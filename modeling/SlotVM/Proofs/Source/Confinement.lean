import SlotVM.Proofs.Link.Acceptance
import SlotVM.Proofs.Session.Invariant

namespace SlotVM

def Ins.target? : Ins → Option UInt64
  | .branch name | .goto name => some name
  | _ => none

/-- Every jump goes to a label of its own body. -/
def Program.Contained (p : Program) : Prop :=
  ∀ m ∈ p.methods, ∀ ins ∈ m.code, ∀ name ∈ ins.target?,
    ∃ text ∈ p.string? name, ∃ label ∈ m.code, p.labelText? label = some text

-- goes through the option, where a search may also choose to go through all names
instance (p : Program) (m : Method) (ins : Ins) : Decidable (∀ name ∈ ins.target?,
    ∃ text ∈ p.string? name, ∃ label ∈ m.code, p.labelText? label = some text) :=
  Option.decidableForallMem _

instance : DecidablePred Program.Contained := fun p =>
  inferInstanceAs (Decidable (∀ m ∈ p.methods, ∀ ins ∈ m.code, ∀ name ∈ ins.target?,
    ∃ text ∈ p.string? name, ∃ label ∈ m.code, p.labelText? label = some text))

section
variable {p : Program} {image : Image} {pos : Position} {ins : Ins}

theorem Program.method_settle (p : Program) (pos : Position) :
    (p.settle pos).method = pos.method := by
  unfold settle
  cases p.method? pos.method <;> rfl

theorem Program.mem_of_ins? (small : p.values.size < 2 ^ 32) (here : p.ins? pos = some ins) :
    ∃ m ∈ p.methods, p.method? pos.method = some m ∧ ins ∈ m.code := by
  obtain ⟨m, found, at_line⟩ := ins?_eq_some_iff.mp here
  exact ⟨m, (mem_methods_iff small).mpr ⟨_, found⟩, found, List.mem_of_getElem? at_line⟩

theorem Program.Contained.stays (contained : p.Contained) (small : p.values.size < 2 ^ 32)
    (linked : Linked p image) (here : p.ins? pos = some ins) {name : UInt64}
    (jumps : ins.target? = some name) {target : Position}
    (found : (p.string? name).bind p.label? = some target) : target.method = pos.method := by
  obtain ⟨m, member, method, inside⟩ := mem_of_ins? small here
  obtain ⟨text, string, label, listed, labelled⟩ := contained m member ins inside name jumps
  obtain ⟨line, at_line⟩ := List.mem_iff_getElem?.mp listed
  have stands : p.ins? ⟨pos.method, line⟩ = some label := ins?_eq_some_iff.mpr ⟨m, method, at_line⟩
  have named : p.labelName? ⟨pos.method, line⟩ = some text := by
    rw [labelName?, stands]
    exact labelled
  rw [Option.mem_def.mp string] at found
  cases (linked.label_iff.mpr named).symm.trans found
  rfl

end

namespace Source

/-- From the innermost on, each frame has the arguments and locals of the method in which control
goes on. -/
inductive Filled (p : Program) : Option Position → List (Frame (Option Position)) → Prop
  | root : Filled p none []
  | frame {pos : Position} {m : Method} {f : Frame (Option Position)}
      {frames : List (Frame (Option Position))} (found : p.method? pos.method = some m)
      (sized : f.locals.length = m.nargs.toNat + m.nlocals.toNat) (below : Filled p f.resume frames) :
      Filled p (some pos) (f :: frames)

def State.Filled (p : Program) (s : State) : Prop :=
  match s.control with
  | .enter _ resume => Source.Filled p resume s.frames
  | .body pos => Source.Filled p (some pos) s.frames

def Outcome.Filled (p : Program) : Outcome → Prop
  | .next s => s.Filled p
  | .crash c => c = .frameMemory
  | _ => True

section
variable {p : Program} {image : Image} {objects : Nat → Prop} {s : State} {store : Store}
  {frames : List (Frame (Option Position))} {pos next : Position} {resume : Option Position}

theorem Filled.move (filled : Filled p (some pos) frames) (same : next.method = pos.method) :
    Filled p (some next) frames := by
  cases filled with
  | frame found sized below => exact .frame (same ▸ found) sized below

theorem Filled.refill (filled : Filled p resume frames) {values : List Value}
    (length : values.length = (frames.flatMap (·.locals)).length) :
    Filled p resume (Frames.refill frames values) := by
  induction filled generalizing values with
  | root => exact .root
  | frame found sized below ih =>
    rw [List.flatMap_cons, List.length_append] at length
    refine .frame found ?_ (ih ?_)
    · rw [List.length_take, ← sized]
      omega
    · rw [List.length_drop]
      omega

theorem Filled.collect (filled : Filled p resume s.frames) {s' : State}
    (collected : s.collect p = .ok s') : Filled p resume s'.frames := by
  obtain ⟨operands, -, collected⟩ := bind_eq_ok.mp collected
  obtain ⟨locals, moved, collected⟩ := bind_eq_ok.mp collected
  obtain ⟨globals, -, collected⟩ := bind_eq_ok.mp collected
  obtain ⟨h, -, collected⟩ := bind_eq_ok.mp collected
  cases collected
  have length := Heap.length_forwardAll moved
  rw [List.length_nil, Nat.zero_add] at length
  exact filled.refill length

theorem Filled.after (filled : Filled p (some next) s.frames) {e : Effect}
    (effect : e.Sound p.shapes p.globalNames.length objects) : (s.after next e).Filled p := by
  cases e with
  | done store => exact filled
  | error e store => trivial
  | crash c => exact effect.elim

theorem Filled.allocate (filled : Filled p (some next) s.frames) (sound : s.Sound p objects)
    (few : p.classes.length < 2 ^ 32) {size : Nat} {build : Store → Effect}
    (builds : ∀ (store : Store) (objects : Nat → Prop),
      store.Sound p.shapes p.globalNames.length objects → store.heap.fits size = true →
      (build store).Sound p.shapes p.globalNames.length objects) :
    (s.allocate p size build next).Filled p := by
  unfold State.allocate
  by_cases fits : s.store.heap.fits size
  · simp only [fits, if_true]
    exact filled.after (builds _ _ sound.store fits)
  · simp only [fits, Bool.false_eq_true, if_false]
    obtain ⟨s', objects', collected, sound'⟩ := sound.collect few
    simp only [collected]
    by_cases fits' : s'.store.heap.fits size
    · simp only [fits', if_true]
      exact (filled.collect collected).after (builds _ _ sound'.store fits')
    · simp only [fits', Bool.false_eq_true, if_false]
      trivial

theorem Filled.newArray (filled : Filled p (some next) s.frames) (sound : s.Sound p objects)
    (few : p.classes.length < 2 ^ 32) : (s.newArray p next).Filled p := by
  unfold State.newArray
  have checked := sound.store.arrayLength
  cases length : s.store.arrayLength with
  | error f =>
    rw [length] at checked
    exact filled.after (sound.store.ofFault checked)
  | ok len => exact filled.allocate sound few fun _ _ store_sound fits => store_sound.buildArray fits

theorem Filled.newObject (filled : Filled p (some next) s.frames) (sound : s.Sound p objects)
    (few : p.classes.length < 2 ^ 32) {index : UInt64} {members : List UInt64}
    (stored : p.constant? index = some (.classDef members)) :
    (s.newObject p (members.countP p.isVariable) (p.classRank index) next).Filled p := by
  have ranked := Program.classes_classRank stored
  have known := (List.getElem?_eq_some_iff.mp ranked).1
  unfold State.newObject
  by_cases short : s.store.stack.size < members.countP p.isVariable + 1
  · simp only [short, if_true]
    trivial
  · simp only [short, if_false]
    refine filled.allocate sound few fun _ _ store_sound fits => store_sound.buildObject ?_ ?_ ?_ fits
    · rwa [Program.size_shapes]
    · rwa [Program.size_shapes]
    · rw [Program.nvars_shapes, ranked]
      rfl

theorem Filled.call (filled : Filled p (some next) s.frames) (method : UInt64) :
    (s.call method next).Filled p := by
  unfold State.call
  by_cases room : Frames.extent s.frames + 2 ≤ Frames.capacity
  · simp only [room, if_true]
    exact filled
  · simp only [room, if_false]
    rfl

theorem Filled.callSlot (filled : Filled p (some next) s.frames) (sound : s.Sound p objects)
    (arity : Nat) (slot : Selector UInt64) : (s.callSlot arity slot next).Filled p := by
  unfold State.callSlot
  have called := sound.store.callSlot arity slot
  cases outcome : s.store.callSlot arity slot with
  | effect e =>
    rw [outcome] at called
    exact filled.after called
  | enter method => exact filled.call method

theorem Filled.enter (filled : Filled p resume s.frames) (method : UInt64) :
    (s.enter p method resume).Filled p := by
  unfold State.enter
  cases found : p.method? method with
  | none => trivial
  | some m =>
    simp only [Outcome.ofOption]
    by_cases short : s.store.stack.size < m.nargs.toNat
    · simp only [short, if_true]
      trivial
    · simp only [short, if_false]
      by_cases room : Frames.extent s.frames + 2 + m.nargs.toNat + m.nlocals.toNat ≤ Frames.capacity
      · simp only [room, if_true]
        refine Source.Filled.frame found ?_ filled
        have taken : (s.store.top m.nargs.toNat).size = m.nargs.toNat := by
          simp only [Store.top, Array.size_extract]
          omega
        rw [List.length_append, List.length_replicate, Array.length_toList, taken]
      · simp only [room, if_false]
        rfl

theorem Filled.ret (filled : Filled p (some pos) s.frames) : s.ret.Filled p := by
  unfold State.ret
  cases frames : s.frames with
  | nil => trivial
  | cons f rest =>
    rw [frames] at filled
    cases rest with
    | nil => trivial
    | cons g rest =>
      cases filled with
      | frame _ _ below =>
        simp only
        cases back : f.resume with
        | none => trivial
        | some pos =>
          rw [back] at below
          exact below

theorem Filled.getLocal (filled : Filled p (some next) s.frames) {m : Method} {index : Nat}
    (found : p.method? next.method = some m) (bound : index < m.frameSize) :
    (s.getLocal index next).Filled p := by
  unfold State.getLocal
  cases frames : s.frames with
  | nil => trivial
  | cons f rest =>
    rw [frames] at filled
    cases filled with
    | frame found' sized below =>
      cases found.symm.trans found'
      have inside : index < f.locals.length := by
        unfold Method.frameSize at bound
        omega
      simp only [List.getElem?_eq_getElem inside]
      exact Source.Filled.frame found sized below

theorem Filled.setLocal (filled : Filled p (some next) s.frames) {m : Method} {index : Nat}
    (found : p.method? next.method = some m) (bound : index < m.frameSize) :
    (s.setLocal index next).Filled p := by
  unfold State.setLocal
  cases s.store.peek? 0 with
  | none => trivial
  | some v =>
    cases frames : s.frames with
    | nil => trivial
    | cons f rest =>
      rw [frames] at filled
      cases filled with
      | frame found' sized below =>
        cases found.symm.trans found'
        have inside : index < f.locals.length := by
          unfold Method.frameSize at bound
          omega
        simp only [inside, if_true]
        exact Source.Filled.frame found (by rw [List.length_set, sized]) below

theorem Filled.branch (filled : Filled p (some next) s.frames) {target : Position}
    (same : target.method = next.method) : (s.branch target next).Filled p := by
  unfold State.branch
  cases s.store.peek? 0 with
  | none => trivial
  | some v =>
    by_cases taken : v.isTruthy
    · simp only [taken, if_true]
      exact filled.move same
    · simp only [taken, Bool.false_eq_true, if_false]
      exact filled

theorem filled_ofOption {α : Type} {o : Option α} {f : α → Outcome}
    (each : ∀ a, o = some a → (f a).Filled p) : (Outcome.ofOption o f).Filled p := by
  cases o with
  | none => trivial
  | some a => exact each a rfl

theorem Filled.exec (runnable : Runnable p image) (contained : p.Contained)
    (filled : Filled p (some pos) s.frames) (sound : s.Sound p objects) {ins : Ins}
    (here : p.ins? pos = some ins) : (s.exec p pos.next ins).Filled p := by
  have few := runnable.small.classes
  have small := runnable.small.pool
  have formed := Program.WellFormed.of_link small runnable.linked
  obtain ⟨m, member, found, inside⟩ := Program.mem_of_ins? small here
  have fits := formed.operands m member ins inside
  have filled : Filled p (some pos.next) s.frames := filled.move rfl
  cases ins with
  | label name => trivial
  | lit idx =>
    rw [State.exec]
    cases p.constant? idx with
    | none => trivial
    | some c =>
      cases c with
      | int value => exact filled
      | null => exact filled
      | _ => trivial
  | printf format arity =>
    exact filled_ofOption fun text _ => filled.after (sound.store.printf text _)
  | array => exact filled.newArray sound few
  | object index =>
    refine filled_ofOption fun members found => ?_
    obtain ⟨c, stored, shape⟩ := Option.bind_eq_some_iff.mp found
    cases c with
    | classDef slots =>
      cases shape
      exact filled.newObject sound few stored
    | _ => cases shape
  | slot name =>
    exact filled_ofOption fun text _ => filled.after (sound.store.getSlot (selector_fits p text))
  | setSlot name =>
    exact filled_ofOption fun text _ => filled.after (sound.store.setSlot (selector_fits p text))
  | callSlot name arity => exact filled_ofOption fun text _ => filled.callSlot sound _ _
  | call name arity => exact filled_ofOption fun method _ => filled.call method
  | setLocal idx => exact filled.setLocal found fits
  | getLocal idx => exact filled.getLocal found fits
  | setGlobal name =>
    refine filled_ofOption fun place found => filled.after (sound.store.setGlobal ?_)
    obtain ⟨text, -, found⟩ := Option.bind_eq_some_iff.mp found
    exact globalPlace?_lt found
  | getGlobal name =>
    refine filled_ofOption fun place found => filled.after (sound.store.getGlobal ?_)
    obtain ⟨text, -, found⟩ := Option.bind_eq_some_iff.mp found
    exact globalPlace?_lt found
  | branch name =>
    exact filled_ofOption fun target jumps =>
      filled.branch (contained.stays small runnable.meets here rfl jumps)
  | goto name =>
    exact filled_ofOption fun target jumps =>
      filled.move (contained.stays small runnable.meets here rfl jumps)
  | ret => exact filled.ret
  | drop => exact filled.after sound.store.drop

theorem State.Filled.step (runnable : Runnable p image) (contained : p.Contained)
    (filled : s.Filled p) (sound : s.Sound p objects) : (s.step p).Filled p := by
  unfold State.Filled at filled
  unfold State.step
  cases control : s.control with
  | enter method resume =>
    rw [control] at filled
    exact filled.enter method
  | body pos =>
    rw [control] at filled
    refine filled_ofOption fun ins here => ?_
    exact (filled.move (p.method_settle pos)).exec runnable contained sound here

theorem State.Filled.run_crash (runnable : Runnable p image) (contained : p.Contained)
    (filled : s.Filled p) (sound : s.Sound p objects) {fuel : Nat} {c : Crash}
    (crashed : run p fuel s = .crash c) : c = .frameMemory := by
  induction fuel generalizing s objects with
  | zero => cases crashed
  | succ fuel ih =>
    have kept := filled.step runnable contained sound
    have stepped := sound.step runnable.small.classes
    unfold Source.run at crashed
    cases outcome : s.step p with
    | next s' =>
      rw [outcome] at kept stepped crashed
      obtain ⟨objects', sound'⟩ := stepped
      exact ih kept sound' crashed
    | crash c' =>
      rw [outcome] at kept crashed
      cases crashed
      exact kept
    | _ =>
      rw [outcome] at crashed
      cases crashed

end
end Source

def Result.crash? : Result → Option Crash
  | .crash c => some c
  | _ => none

theorem Result.eq_of_crash? {r : Result} {c : Crash} (crashed : r.crash? = some c) : r = .crash c := by
  cases r with
  | crash c' =>
    cases crashed
    rfl
  | _ => cases crashed

theorem Ending.flush_eq_crash {e : Ending} {c : Crash} (crashed : e.flush = .crash c) :
    e = .crash c := by
  cases e with
  | crash c' => exact crashed
  | unfinished ip vm => cases crashed
  | ok vm | error e vm =>
    unfold Ending.flush at crashed
    cases flushed : vm.sink.flush <;> simp [flushed] at crashed

/-- Main jumps to a label of another method, which has a local where main has none. -/
def Program.strayJump : Program where
  values := #[.str "main", .str "aside", .method ⟨0, 0, 0, [.goto 1]⟩, .str "other",
    .method ⟨3, 0, 1, [.label 1, .getLocal 0, .ret]⟩]
  slots := []
  entry := 2

/-- Main has no return and runs on into the frame of the method after it. -/
def Program.openBody : Program where
  values := #[.str "main", .method ⟨0, 0, 1, []⟩, .str "other", .method ⟨2, 0, 0, [.ret]⟩]
  slots := []
  entry := 1

theorem Session.linked_programs_crash :
    ∃ s, Session.create ⟨24, false, false⟩ .unbounded = .ok s ∧
      (∃ image, link Program.strayJump = .ok image) ∧
      (s.run Program.strayJump 9).1 = .crash .localSlot ∧
      (∃ image, link Program.openBody = .ok image) ∧
      (s.run Program.openBody 9).1 = .crash .frameWord := by
  have evaluated : (do
      let s ← (Session.create ⟨24, false, false⟩ .unbounded).toOption
      let _ ← (link Program.strayJump).toOption
      let _ ← (link Program.openBody).toOption
      return ((s.run Program.strayJump 9).1.crash?, (s.run Program.openBody 9).1.crash?)) =
        some (some .localSlot, some .frameWord) := by
    decide +kernel
  obtain ⟨s, created, evaluated⟩ := toOption_bind_eq_some.mp evaluated
  obtain ⟨image, stray, evaluated⟩ := toOption_bind_eq_some.mp evaluated
  obtain ⟨image', runsOn, evaluated⟩ := toOption_bind_eq_some.mp evaluated
  obtain ⟨first, second⟩ := Prod.mk.inj (Option.some.inj evaluated)
  exact ⟨s, created, ⟨image, stray⟩, Result.eq_of_crash? first, ⟨image', runsOn⟩,
    Result.eq_of_crash? second⟩

section
variable {p : Program} {image : Image}

/-- A linked program whose bodies do not run out and whose jumps stay in their own body does not crash,
on any machine and after any earlier programs, unless its frames take all the memory there is. -/
theorem Session.Reached.run_crash? {s : Session} (reached : s.Reached) (runnable : Runnable p image)
    (contained : p.Contained) (fuel : Nat) :
    (s.run p fuel).1.crash? = none ∨ (s.run p fuel).1.crash? = some .frameMemory := by
  rw [Session.run_of_linked runnable.linked, Session.execute]
  cases ending : s.vm.execute image fuel with
  | crash c =>
    have stopped := Ending.flush_eq_crash ending
    have lockstep := Source.lockstep_start runnable reached.heap fuel
    rw [stopped] at lockstep
    have filled : (Source.start p s.vm.heap s.vm.sink).Filled p := Source.Filled.root
    have sound := Source.sound_start p reached.heap s.vm.sink
    cases source : Source.run p fuel (Source.start p s.vm.heap s.vm.sink) with
    | crash c' =>
      rw [source] at lockstep
      cases lockstep
      rw [filled.run_crash runnable contained sound source]
      exact .inr rfl
    | _ =>
      rw [source] at lockstep
      cases lockstep
  | _ => exact .inl rfl

theorem Session.getter_run_crash? :
    ∃ s image, Session.create ⟨24, false, false⟩ .unbounded = .ok s ∧ s.Reached ∧
      Runnable Program.getter image ∧ Program.getter.Contained ∧
      ((s.run Program.getter 30).1.crash? = none ∨
        (s.run Program.getter 30).1.crash? = some .frameMemory) := by
  obtain ⟨s, created⟩ : ∃ s, Session.create ⟨24, false, false⟩ .unbounded = .ok s := ⟨_, rfl⟩
  obtain ⟨image, runnable⟩ := Source.getter_runnable
  have reached : s.Reached := .create created
  have contained : Program.getter.Contained := by decide +kernel
  exact ⟨s, image, created, reached, runnable, contained,
    Session.Reached.run_crash? reached runnable contained 30⟩

end
end SlotVM
