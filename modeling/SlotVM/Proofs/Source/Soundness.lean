import SlotVM.Proofs.Heap.Pairing
import SlotVM.Proofs.Machine.Calls
import SlotVM.Proofs.Source.Classes

namespace SlotVM

namespace Source

def State.locals (s : State) : List Value := s.frames.flatMap (·.locals)

structure State.Sound (p : Program) (objects : Nat → Prop) (s : State) : Prop where
  store : s.store.Sound p.shapes p.globalNames.length objects
  locals : ∀ v ∈ s.locals, v.Valid objects

def Outcome.Sound (p : Program) : Outcome → Prop
  | .next s => ∃ objects, s.Sound p objects
  | .halt s => s.store.heap.WellFormed
  | .error e s => e.blamesCode = false ∧ s.store.heap.WellFormed
  | .crash c => c = .localSlot ∨ c = .frameMemory
  | .stuck => True

section
variable {p : Program} {objects : Nat → Prop} {s : State} {next : Position}

theorem selector_fits (p : Program) (name : String) : (p.selector name).Fits p.shapes := by
  intro index place declares
  obtain ⟨members, stored, found⟩ := Option.bind_eq_some_iff.mp declares
  have bound := Program.place_lt_of_member? found
  rw [Program.nvars_shapes, stored]
  change place < members.countP p.isVariable
  omega

theorem globalPlace?_lt {name : String} {place : Nat} (found : p.globalPlace? name = some place) :
    place < p.globalNames.length :=
  (List.idxOf?_eq_some_iff.mp found).1

theorem State.Sound.after (sound : s.Sound p objects) {e : Effect}
    (effect : e.Sound p.shapes p.globalNames.length objects) : (s.after next e).Sound p := by
  cases e with
  | done store =>
    obtain ⟨objects', grown, store_sound⟩ := effect
    exact ⟨objects', store_sound, fun v here => (sound.locals v here).mono grown⟩
  | error e store => exact effect
  | crash c => exact effect.elim

theorem State.Sound.error (sound : s.Sound p objects) {e : RuntimeError}
    (benign : e.blamesCode = false) : (Outcome.error e s).Sound p :=
  ⟨benign, sound.store.houses.heap⟩

def State.relocated (s : State) (f : Nat → Nat) (heap : Heap) : State where
  store := ⟨s.store.stack.map (Value.relocate f), s.store.globals.map (Value.relocate f), heap,
    s.store.sink⟩
  frames := s.frames.map fun frame => ⟨frame.resume, frame.locals.map (Value.relocate f)⟩
  control := s.control

theorem State.collect_eq (few : p.classes.length < 2 ^ 32)
    (houses : s.store.heap.Houses p.shapes objects)
    (valid : ∀ v ∈ s.store.stack.toList ++ s.locals ++ s.store.globals.toList, v.Valid objects) :
    ∃ f live heap, s.collect p = .ok (s.relocated f heap) ∧
      Heap.Evacuated p.shapes f live s.store.heap heap ∧ (∀ a ∈ live, objects a) ∧
      ∀ v ∈ s.store.stack.toList ++ s.locals ++ s.store.globals.toList,
        Value.Paired (fun a b => a ∈ live ∧ f a = b) v (v.relocate f) := by
  obtain ⟨f, live, h₁, h₂, h₃, h₄, run₁, run₂, run₃, run₄, moved, known, values⟩ :=
    houses.evacuates (by rwa [Program.size_shapes]) valid
  refine ⟨f, live, _, ?_, moved, known, values⟩
  have frames := Frames.refill_map s.frames (Value.relocate f)
  simp only [State.locals] at run₂
  simp only [State.collect, run₁, run₂, run₃, run₄, bind, Except.bind, pure, Except.pure, frames,
    State.relocated, ← Array.toList_map, Array.toArray_toList]

theorem State.Sound.roots (sound : s.Sound p objects) :
    ∀ v ∈ s.store.stack.toList ++ s.locals ++ s.store.globals.toList, v.Valid objects := by
  intro v here
  rcases List.mem_append.mp here with here | here
  · rcases List.mem_append.mp here with here | here
    · exact sound.store.stack v here
    · exact sound.locals v here
  · exact sound.store.globals v here

theorem State.Sound.collect (sound : s.Sound p objects) (few : p.classes.length < 2 ^ 32) :
    ∃ s' objects', s.collect p = .ok s' ∧ s'.Sound p objects' := by
  obtain ⟨f, live, heap, collected, moved, -, values⟩ :=
    State.collect_eq few sound.store.houses sound.roots
  have followed (v : Value)
      (here : v ∈ s.store.stack.toList ++ s.locals ++ s.store.globals.toList) :
      (v.relocate f).Valid fun b => ∃ a, a ∈ live ∧ f a = b := (values v here).symm.valid
  simp only [List.mem_append] at followed
  refine ⟨_, _, collected, ⟨moved.paired.right, ?_, ?_, ?_⟩, ?_⟩
  · intro w here
    obtain ⟨v, held, rfl⟩ := List.mem_map.mp (Array.toList_map ▸ here)
    exact followed v (.inl (.inl held))
  · intro w here
    obtain ⟨v, held, rfl⟩ := List.mem_map.mp (Array.toList_map ▸ here)
    exact followed v (.inr held)
  · rw [State.relocated, Array.size_map]
    exact sound.store.width
  · intro w here
    simp only [State.locals, State.relocated, List.flatMap_map, List.mem_flatMap] at here
    obtain ⟨frame, member, here⟩ := here
    obtain ⟨v, held, rfl⟩ := List.mem_map.mp here
    exact followed v (.inl (.inr (List.mem_flatMap.mpr ⟨frame, member, held⟩)))

theorem State.Sound.allocate (sound : s.Sound p objects) (few : p.classes.length < 2 ^ 32)
    {size : Nat} {build : Store → Effect}
    (builds : ∀ (store : Store) (objects : Nat → Prop),
      store.Sound p.shapes p.globalNames.length objects → store.heap.fits size = true →
      (build store).Sound p.shapes p.globalNames.length objects) :
    (s.allocate p size build next).Sound p := by
  unfold State.allocate
  by_cases fits : s.store.heap.fits size
  · simp only [fits, if_true]
    exact sound.after (builds _ _ sound.store fits)
  · simp only [fits, Bool.false_eq_true, if_false]
    obtain ⟨s', objects', collected, sound'⟩ := sound.collect few
    simp only [collected]
    by_cases fits' : s'.store.heap.fits size
    · simp only [fits', if_true]
      exact sound'.after (builds _ _ sound'.store fits')
    · simp only [fits', Bool.false_eq_true, if_false]
      exact sound'.error rfl

theorem State.Sound.newArray (sound : s.Sound p objects) (few : p.classes.length < 2 ^ 32) :
    (s.newArray p next).Sound p := by
  unfold State.newArray
  have checked := sound.store.arrayLength
  cases length : s.store.arrayLength with
  | error f =>
    rw [length] at checked
    exact sound.after (sound.store.ofFault checked)
  | ok len => exact sound.allocate few fun _ _ store_sound fits => store_sound.buildArray fits

theorem State.Sound.newObject (sound : s.Sound p objects) (few : p.classes.length < 2 ^ 32)
    {index : UInt64} {members : List UInt64}
    (stored : p.constant? index = some (.classDef members)) :
    (s.newObject p (members.countP p.isVariable) (p.classRank index) next).Sound p := by
  have ranked := Program.classes_classRank stored
  have known := (List.getElem?_eq_some_iff.mp ranked).1
  unfold State.newObject
  by_cases short : s.store.stack.size < members.countP p.isVariable + 1
  · simp only [short, if_true]
    exact sound.error rfl
  · simp only [short, if_false]
    refine sound.allocate few fun _ _ store_sound fits => store_sound.buildObject ?_ ?_ ?_ fits
    · rwa [Program.size_shapes]
    · rwa [Program.size_shapes]
    · rw [Program.nvars_shapes, ranked]
      rfl

theorem State.Sound.goto (sound : s.Sound p objects) (pos : Position) :
    (s.goto pos).Sound p objects := ⟨sound.store, sound.locals⟩

theorem State.Sound.call (sound : s.Sound p objects) (method : UInt64) :
    (s.call method next).Sound p := by
  unfold State.call
  by_cases room : Frames.extent s.frames + 2 ≤ Frames.capacity
  · simp only [room, if_true]
    exact ⟨objects, sound.store, sound.locals⟩
  · simp only [room, if_false]
    exact .inr rfl

theorem State.Sound.callSlot (sound : s.Sound p objects) (arity : Nat) (slot : Selector UInt64) :
    (s.callSlot arity slot next).Sound p := by
  unfold State.callSlot
  have called := sound.store.callSlot arity slot
  cases outcome : s.store.callSlot arity slot with
  | effect e =>
    rw [outcome] at called
    exact sound.after called
  | enter method => exact sound.call method

theorem State.Sound.enter (sound : s.Sound p objects) (method : UInt64)
    (resume : Option Position) : (s.enter p method resume).Sound p := by
  unfold State.enter
  cases p.method? method with
  | none => trivial
  | some m =>
    simp only [Outcome.ofOption]
    by_cases short : s.store.stack.size < m.nargs.toNat
    · simp only [short, if_true]
      exact sound.error rfl
    · simp only [short, if_false]
      by_cases room : Frames.extent s.frames + 2 + m.nargs.toNat + m.nlocals.toNat ≤ Frames.capacity
      · simp only [room, if_true]
        refine ⟨objects, sound.store.dropTop _, fun v here => ?_⟩
        rw [State.locals, List.flatMap_cons, List.mem_append, List.mem_append] at here
        rcases here with (here | here) | here
        · exact sound.store.top _ v here
        · rw [List.eq_of_mem_replicate here]
          exact Value.valid_null
        · exact sound.locals v here
      · simp only [room, if_false]
        exact .inr rfl

theorem State.Sound.ret (sound : s.Sound p objects) : s.ret.Sound p := by
  unfold State.ret
  cases frames : s.frames with
  | nil => trivial
  | cons f rest =>
    cases rest with
    | nil => exact sound.store.houses.heap
    | cons g rest =>
      simp only
      cases f.resume with
      | none => trivial
      | some pos =>
        refine ⟨objects, sound.store, fun v here => sound.locals v ?_⟩
        rw [State.locals, frames, List.flatMap_cons]
        exact List.mem_append_right _ here

theorem State.Sound.getLocal (sound : s.Sound p objects) (index : Nat) :
    (s.getLocal index next).Sound p := by
  unfold State.getLocal
  cases frames : s.frames with
  | nil => trivial
  | cons f rest =>
    simp only
    cases found : f.locals[index]? with
    | none => exact .inl rfl
    | some v =>
      have held := sound.locals
      rw [State.locals, frames] at held
      refine ⟨objects, sound.store.push (held v ?_), held⟩
      rw [List.flatMap_cons]
      exact List.mem_append_left _ (List.mem_of_getElem? found)

theorem State.Sound.setLocal (sound : s.Sound p objects) (index : Nat) :
    (s.setLocal index next).Sound p := by
  unfold State.setLocal
  cases peeked : s.store.peek? 0 with
  | none => exact sound.error rfl
  | some v =>
    cases frames : s.frames with
    | nil => trivial
    | cons f rest =>
      have held : ∀ w ∈ f.locals ++ rest.flatMap (·.locals), w.Valid objects := by
        have locals := sound.locals
        rwa [State.locals, frames, List.flatMap_cons] at locals
      simp only
      by_cases inside : index < f.locals.length
      · simp only [inside, if_true]
        refine ⟨objects, sound.store, fun w here => ?_⟩
        rw [State.locals, State.goto, List.flatMap_cons, List.mem_append] at here
        rcases here with here | here
        · rcases List.mem_or_eq_of_mem_set here with here | rfl
          · exact held w (List.mem_append_left _ here)
          · exact sound.store.peek? peeked
        · exact held w (List.mem_append_right _ here)
      · simp only [inside, if_false]
        exact .inl rfl

theorem State.Sound.branch (sound : s.Sound p objects) (target : Position) :
    (s.branch target next).Sound p := by
  unfold State.branch
  cases s.store.peek? 0 with
  | none => exact sound.error rfl
  | some v => exact ⟨objects, sound.store.dropTop 1, sound.locals⟩

theorem sound_ofOption {α : Type} {o : Option α} {f : α → Outcome}
    (each : ∀ a, o = some a → (f a).Sound p) : (Outcome.ofOption o f).Sound p := by
  cases o with
  | none => trivial
  | some a => exact each a rfl

theorem State.Sound.exec (sound : s.Sound p objects) (few : p.classes.length < 2 ^ 32) (ins : Ins) :
    (s.exec p next ins).Sound p := by
  cases ins with
  | label name => trivial
  | lit idx =>
    rw [State.exec]
    cases p.constant? idx with
    | none => trivial
    | some c =>
      cases c with
      | int value => exact sound.after (sound.store.push (Value.valid_ofInt _)).done
      | null => exact sound.after (sound.store.push Value.valid_null).done
      | _ => trivial
  | printf format arity =>
    exact sound_ofOption fun text _ => sound.after (sound.store.printf text _)
  | array => exact sound.newArray few
  | object index =>
    refine sound_ofOption fun members found => ?_
    obtain ⟨c, stored, shape⟩ := Option.bind_eq_some_iff.mp found
    cases c with
    | classDef slots =>
      cases shape
      exact sound.newObject few stored
    | _ => cases shape
  | slot name =>
    exact sound_ofOption fun text _ => sound.after (sound.store.getSlot (selector_fits p text))
  | setSlot name =>
    exact sound_ofOption fun text _ => sound.after (sound.store.setSlot (selector_fits p text))
  | callSlot name arity => exact sound_ofOption fun text _ => sound.callSlot _ _
  | call name arity => exact sound_ofOption fun method _ => sound.call method
  | setLocal idx => exact sound.setLocal _
  | getLocal idx => exact sound.getLocal _
  | setGlobal name =>
    refine sound_ofOption fun place found => sound.after (sound.store.setGlobal ?_)
    obtain ⟨text, -, found⟩ := Option.bind_eq_some_iff.mp found
    exact globalPlace?_lt found
  | getGlobal name =>
    refine sound_ofOption fun place found => sound.after (sound.store.getGlobal ?_)
    obtain ⟨text, -, found⟩ := Option.bind_eq_some_iff.mp found
    exact globalPlace?_lt found
  | branch name => exact sound_ofOption fun target _ => sound.branch target
  | goto name => exact sound_ofOption fun target _ => ⟨objects, sound.goto target⟩
  | ret => exact sound.ret
  | drop => exact sound.after sound.store.drop

theorem State.Sound.step (sound : s.Sound p objects) (few : p.classes.length < 2 ^ 32) :
    (s.step p).Sound p := by
  unfold State.step
  cases s.control with
  | enter method resume => exact sound.enter method resume
  | body pos => exact sound_ofOption fun ins _ => sound.exec few ins

def Ending.Sound (p : Program) : Ending → Prop
  | .ok s => s.store.heap.WellFormed
  | .error e s => e.blamesCode = false ∧ s.store.heap.WellFormed
  | .crash c => c = .localSlot ∨ c = .frameMemory
  | .stuck => True
  | .unfinished s => ∃ objects, s.Sound p objects

theorem State.Sound.run (sound : s.Sound p objects) (few : p.classes.length < 2 ^ 32) (fuel : Nat) :
    (run p fuel s).Sound p := by
  induction fuel generalizing s objects with
  | zero => exact ⟨objects, sound⟩
  | succ fuel ih =>
    have stepped := sound.step few
    unfold Source.run
    cases outcome : s.step p with
    | next s' =>
      rw [outcome] at stepped
      obtain ⟨objects', sound'⟩ := stepped
      exact ih sound'
    | halt s' =>
      rw [outcome] at stepped
      exact stepped
    | error e s' =>
      rw [outcome] at stepped
      exact stepped
    | crash c =>
      rw [outcome] at stepped
      exact stepped
    | stuck => trivial

/-- A run starts with no objects of its own, whatever an earlier run left in the heap. -/
theorem sound_start (p : Program) {heap : Heap} (wf : heap.WellFormed) (sink : Sink) :
    (start p heap sink).Sound p fun _ => False := by
  refine ⟨⟨wf.houses _, by simp [start], fun v here => ?_, by simp [start]⟩,
    by simp [start, State.locals]⟩
  rw [start, Array.toList_replicate] at here
  rw [List.eq_of_mem_replicate here]
  exact Value.valid_null

end
end Source
end SlotVM
