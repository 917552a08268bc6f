import SlotVM.Proofs.Machine.PairedCalls
import SlotVM.Proofs.Source.Soundness

namespace SlotVM

def Frame.Paired {ρ : Type} (pairs : Nat → Nat → Prop) (f g : Frame ρ) : Prop :=
  f.resume = g.resume ∧ List.Forall₂ (Value.Paired pairs) f.locals g.locals

section
variable {ρ : Type} {pairs pairs' : Nat → Nat → Prop} {f g : Frame ρ} {fs gs : List (Frame ρ)}

theorem Frame.Paired.mono (paired : f.Paired pairs g) (grown : ∀ a b, pairs a b → pairs' a b) :
    f.Paired pairs' g :=
  ⟨paired.1, paired.2.imp fun _ _ values => values.mono grown⟩

theorem Frame.Paired.symm (paired : f.Paired pairs g) : g.Paired (Function.swap pairs) f :=
  ⟨paired.1.symm, (paired.2.imp fun _ _ values => values.symm).flip⟩

theorem Frames.extent_paired (each : List.Forall₂ (Frame.Paired pairs) fs gs) :
    extent fs = extent gs := by
  induction each with
  | nil => rfl
  | cons first _ ih => rw [extent, extent, ih, first.2.length_eq]

end

namespace Source

structure State.Paired (p : Program) (left right : Setting) (pairs : Nat → Nat → Prop)
    (s t : State) : Prop where
  store : Store.Paired p.shapes left right pairs s.store t.store
  frames : List.Forall₂ (Frame.Paired pairs) s.frames t.frames
  control : s.control = t.control
  room : Frames.extent s.frames ≤ Frames.capacity

/-- The same outcome on both sides, unless only the smaller semispace is used up. -/
inductive Outcome.Paired (p : Program) (left right : Setting) : Outcome → Outcome → Prop
  | next {s t : State} (pairs : Nat → Nat → Prop) (states : s.Paired p left right pairs t) :
      Paired p left right (.next s) (.next t)
  | halt {s t : State} (pairs : Nat → Nat → Prop) (states : s.Paired p left right pairs t) :
      Paired p left right (.halt s) (.halt t)
  | error (e : RuntimeError) {s t : State} (pairs : Nat → Nat → Prop)
      (states : s.Paired p left right pairs t) : Paired p left right (.error e s) (.error e t)
  | crash (c : Crash) : Paired p left right (.crash c) (.crash c)
  | stuck : Paired p left right .stuck .stuck
  | starved (size : Nat) {s t : State} (pairs : Nat → Nat → Prop)
      (states : s.Paired p left right pairs t) (o : Outcome)
      (tight : left.semispace < right.semispace) :
      Paired p left right (.error (.outOfMemory size) s) o

section
variable {p : Program} {left right : Setting} {pairs : Nat → Nat → Prop} {s t : State}
  {next : Position}

theorem State.Paired.symm (paired : s.Paired p left right pairs t) :
    t.Paired p right left (Function.swap pairs) s :=
  ⟨paired.store.symm, (paired.frames.imp fun _ _ frame => frame.symm).flip, paired.control.symm,
    Frames.extent_paired paired.frames ▸ paired.room⟩

theorem State.Paired.goto (paired : s.Paired p left right pairs t) (pos : Position) :
    (s.goto pos).Paired p left right pairs (t.goto pos) :=
  ⟨paired.store, paired.frames, rfl, paired.room⟩

theorem State.Paired.withStore (paired : s.Paired p left right pairs t) {store store' : Store}
    {pairs' : Nat → Nat → Prop} (grown : ∀ a b, pairs a b → pairs' a b)
    (stores : Store.Paired p.shapes left right pairs' store store') :
    State.Paired p left right pairs' { s with store := store } { t with store := store' } :=
  ⟨stores, paired.frames.imp fun _ _ frame => frame.mono grown, paired.control, paired.room⟩

theorem State.Paired.after (paired : s.Paired p left right pairs t) {e e' : Effect}
    (effects : Effect.Paired p.shapes left right pairs e e') :
    Outcome.Paired p left right (s.after next e) (t.after next e') := by
  cases effects with
  | done pairs' grown stores => exact .next pairs' ((paired.withStore grown stores).goto next)
  | error e stores => exact .error e pairs (paired.withStore (fun _ _ pair => pair) stores)
  | crash c => exact .crash c

theorem forall₂_relocate {moved : Nat → Nat → Prop} {f : Nat → Nat} {xs ys : List Value}
    (each : List.Forall₂ (Value.Paired pairs) xs ys)
    (values : ∀ v ∈ xs, Value.Paired moved v (v.relocate f)) :
    List.Forall₂ (Value.Paired (Relation.Comp (Function.swap moved) pairs))
      (xs.map (Value.relocate f)) ys := by
  induction each with
  | nil => exact .nil
  | cons first _ ih =>
    refine .cons ((values _ List.mem_cons_self).symm.trans first) (ih fun v here => ?_)
    exact values v (List.mem_cons_of_mem _ here)

theorem forall₂_relocate_frames {moved : Nat → Nat → Prop} {f : Nat → Nat}
    {fs gs : List (Frame (Option Position))} (each : List.Forall₂ (Frame.Paired pairs) fs gs)
    (values : ∀ v ∈ fs.flatMap (·.locals), Value.Paired moved v (v.relocate f)) :
    List.Forall₂ (Frame.Paired (Relation.Comp (Function.swap moved) pairs))
      (fs.map fun frame => ⟨frame.resume, frame.locals.map (Value.relocate f)⟩) gs := by
  induction each with
  | nil => exact .nil
  | cons first _ ih =>
    rw [List.flatMap_cons] at values
    refine .cons ⟨first.1, forall₂_relocate first.2 fun v here => ?_⟩ (ih fun v here => ?_)
    · exact values v (List.mem_append_left _ here)
    · exact values v (List.mem_append_right _ here)

theorem State.extent_relocated (f : Nat → Nat) (heap : Heap) :
    Frames.extent (s.relocated f heap).frames = Frames.extent s.frames := by
  rw [State.relocated]
  induction s.frames with
  | nil => rfl
  | cons frame frames ih => rw [List.map_cons, Frames.extent, Frames.extent, ih, List.length_map]

theorem State.Paired.partner (paired : s.Paired p left right pairs t) {v : Value}
    (here : v ∈ s.store.stack.toList ++ s.locals ++ s.store.globals.toList) :
    ∃ w, Value.Paired pairs v w := by
  rcases List.mem_append.mp here with here | here
  · rcases List.mem_append.mp here with here | here
    · obtain ⟨w, -, values⟩ := mem_forall₂ paired.store.stack here
      exact ⟨w, values⟩
    · obtain ⟨frame, member, here⟩ := List.mem_flatMap.mp here
      obtain ⟨frame', -, frames⟩ := mem_forall₂ paired.frames member
      obtain ⟨w, -, values⟩ := mem_forall₂ frames.2 here
      exact ⟨w, values⟩
  · obtain ⟨w, -, values⟩ := mem_forall₂ paired.store.globals here
    exact ⟨w, values⟩

/-- A collection on one side: the states stay paired, and what is left there takes no more room than
the other side has in use. -/
theorem State.Paired.collect (paired : s.Paired p left right pairs t)
    (few : p.classes.length < 2 ^ 32) :
    ∃ s' pairs', s.collect p = .ok s' ∧ s'.Paired p left right pairs' t ∧
      s'.store.heap.used ≤ t.store.heap.used := by
  obtain ⟨f, live, heap, collected, moved, known, values⟩ :=
    State.collect_eq few paired.store.heap.left fun v here => by
      obtain ⟨w, values⟩ := paired.partner here
      exact values.valid
  simp only [List.mem_append] at values
  refine ⟨_, _, collected, ⟨⟨moved.paired.symm.trans paired.store.heap, ?_, ?_, ?_,
    paired.store.semispace', paired.store.printed⟩, ?_, paired.control, ?_⟩,
    moved.used_le paired.store.heap known⟩
  · rw [State.relocated, Array.toList_map]
    exact forall₂_relocate paired.store.stack fun v here => values v (.inl (.inl here))
  · rw [State.relocated, Array.toList_map]
    exact forall₂_relocate paired.store.globals fun v here => values v (.inr here)
  · exact moved.semispace.trans paired.store.semispace
  · exact forall₂_relocate_frames paired.frames fun v here => values v (.inl (.inr here))
  · rw [State.extent_relocated]
    exact paired.room

theorem State.Paired.collect_both (paired : s.Paired p left right pairs t)
    (few : p.classes.length < 2 ^ 32) :
    ∃ s' t' pairs', s.collect p = .ok s' ∧ t.collect p = .ok t' ∧
      s'.Paired p left right pairs' t' ∧ s'.store.heap.used = t'.store.heap.used := by
  obtain ⟨s', pairs₁, collected, first, -⟩ := paired.collect few
  obtain ⟨t', pairs₂, collected', second, more⟩ := first.symm.collect few
  -- in the other order the other side is compared with what is left
  obtain ⟨t'', pairs₃, again', third, -⟩ := paired.symm.collect few
  obtain ⟨s'', pairs₄, again, -, less⟩ := third.symm.collect few
  cases collected'.symm.trans again'
  cases collected.symm.trans again
  exact ⟨s', t', _, collected, collected', second.symm, Nat.le_antisymm less more⟩

theorem State.Paired.fits_iff (paired : s.Paired p left right pairs t) (size : Nat) :
    (s.store.heap.fits size = true ↔ s.store.heap.used + size ≤ left.semispace) ∧
      (t.store.heap.fits size = true ↔ t.store.heap.used + size ≤ right.semispace) := by
  rw [paired.store.heap.left.heap.fits_iff, paired.store.heap.right.heap.fits_iff,
    paired.store.semispace, paired.store.semispace']
  exact ⟨Iff.rfl, Iff.rfl⟩

theorem State.Paired.allocate (paired : s.Paired p left right pairs t)
    (few : p.classes.length < 2 ^ 32) (smaller : left.semispace ≤ right.semispace) {size : Nat}
    {build : Store → Effect}
    (builds : ∀ (store store' : Store) (pairs : Nat → Nat → Prop),
      Store.Paired p.shapes left right pairs store store' → store.heap.fits size = true →
      store'.heap.fits size = true →
      Effect.Paired p.shapes left right pairs (build store) (build store')) :
    Outcome.Paired p left right (s.allocate p size build next) (t.allocate p size build next) := by
  obtain ⟨fits_iff, fits_iff'⟩ := paired.fits_iff size
  unfold State.allocate
  by_cases fits : s.store.heap.fits size = true
  · simp only [fits, if_true]
    by_cases fits' : t.store.heap.fits size = true
    · simp only [fits', if_true]
      exact paired.after (builds _ _ _ paired.store fits fits')
    · -- the larger side alone collects, and then it has no less room than the smaller one
      obtain ⟨t', pairs', collected, turned, used⟩ := paired.symm.collect few
      have paired' := turned.symm
      have fits'' : t'.store.heap.fits size = true := by
        rw [(paired'.fits_iff size).2]
        have := fits_iff.mp fits
        omega
      simp only [fits', Bool.false_eq_true, if_false, collected, fits'', if_true]
      exact paired'.after (builds _ _ _ paired'.store fits fits'')
  · simp only [fits, Bool.false_eq_true, if_false]
    by_cases fits' : t.store.heap.fits size = true
    · obtain ⟨s', pairs', collected, paired', used⟩ := paired.collect few
      simp only [collected, fits', if_true]
      by_cases fits'' : s'.store.heap.fits size = true
      · simp only [fits'', if_true]
        exact paired'.after (builds _ _ _ paired'.store fits'' fits')
      · simp only [fits'', Bool.false_eq_true, if_false]
        refine .starved size _ paired' _ ?_
        rw [(paired'.fits_iff size).1] at fits''
        have := fits_iff'.mp fits'
        omega
    · obtain ⟨s', t', pairs', collected, collected', paired', used⟩ := paired.collect_both few
      obtain ⟨iff, iff'⟩ := paired'.fits_iff size
      simp only [fits', Bool.false_eq_true, if_false, collected, collected']
      by_cases enough : s'.store.heap.fits size = true
      · have enough' : t'.store.heap.fits size = true := by
          rw [iff']
          have := iff.mp enough
          omega
        simp only [enough, enough', if_true]
        exact paired'.after (builds _ _ _ paired'.store enough enough')
      · simp only [enough, Bool.false_eq_true, if_false]
        by_cases enough' : t'.store.heap.fits size = true
        · refine .starved size _ paired' _ ?_
          rw [iff] at enough
          have := iff'.mp enough'
          omega
        · simp only [enough', Bool.false_eq_true, if_false]
          exact .error _ _ paired'

theorem State.Paired.newArray (paired : s.Paired p left right pairs t)
    (few : p.classes.length < 2 ^ 32) (smaller : left.semispace ≤ right.semispace) :
    Outcome.Paired p left right (s.newArray p next) (t.newArray p next) := by
  unfold State.newArray
  rw [paired.store.arrayLength]
  cases t.store.arrayLength with
  | error f => exact paired.after (paired.store.ofFault f)
  | ok len =>
    exact paired.allocate few smaller fun _ _ _ stores fits fits' => stores.buildArray fits fits'

theorem State.Paired.newObject (paired : s.Paired p left right pairs t)
    (few : p.classes.length < 2 ^ 32) (smaller : left.semispace ≤ right.semispace) {index : UInt64}
    {members : List UInt64} (stored : p.constant? index = some (.classDef members)) :
    Outcome.Paired p left right
      (s.newObject p (members.countP p.isVariable) (p.classRank index) next)
      (t.newObject p (members.countP p.isVariable) (p.classRank index) next) := by
  have ranked := Program.classes_classRank stored
  have known := (List.getElem?_eq_some_iff.mp ranked).1
  unfold State.newObject
  rw [paired.store.size]
  by_cases short : t.store.stack.size < members.countP p.isVariable + 1
  · simp only [short, if_true]
    exact .error _ _ paired
  · simp only [short, if_false]
    refine paired.allocate few smaller fun _ _ _ stores fits fits' =>
      stores.buildObject ?_ ?_ ?_ fits fits'
    · rwa [Program.size_shapes]
    · rwa [Program.size_shapes]
    · rw [Program.nvars_shapes, ranked]
      rfl

theorem State.Paired.call (paired : s.Paired p left right pairs t) (method : UInt64) :
    Outcome.Paired p left right (s.call method next) (t.call method next) := by
  unfold State.call
  rw [Frames.extent_paired paired.frames]
  by_cases room : Frames.extent t.frames + 2 ≤ Frames.capacity
  · simp only [room, if_true]
    exact .next pairs ⟨paired.store, paired.frames, rfl, paired.room⟩
  · simp only [room, if_false]
    exact .crash _

theorem State.Paired.callSlot (paired : s.Paired p left right pairs t) (arity : Nat)
    (slot : Selector UInt64) :
    Outcome.Paired p left right (s.callSlot arity slot next) (t.callSlot arity slot next) := by
  unfold State.callSlot
  have called := paired.store.callSlot arity slot
  generalize s.store.callSlot arity slot = c at called
  generalize t.store.callSlot arity slot = c' at called
  cases called with
  | effect effects => exact paired.after effects
  | enter method => exact paired.call method

theorem State.Paired.enter (paired : s.Paired p left right pairs t) (method : UInt64)
    (resume : Option Position) :
    Outcome.Paired p left right (s.enter p method resume) (t.enter p method resume) := by
  unfold State.enter
  cases p.method? method with
  | none => exact .stuck
  | some m =>
    have same := Frames.extent_paired paired.frames
    simp only [Outcome.ofOption, paired.store.size, same]
    by_cases short : t.store.stack.size < m.nargs.toNat
    · simp only [short, if_true]
      exact .error _ _ paired
    · simp only [short, if_false]
      by_cases room : Frames.extent t.frames + 2 + m.nargs.toNat + m.nlocals.toNat ≤ Frames.capacity
      · simp only [room, if_true]
        have locals := List.rel_append (paired.store.top m.nargs.toNat)
          (forall₂_replicate Value.paired_null m.nlocals.toNat)
        refine .next pairs ⟨paired.store.dropTop _, .cons ⟨rfl, locals⟩ paired.frames, rfl, ?_⟩
        have enough : m.nargs.toNat ≤ s.store.stack.size := by
          rw [paired.store.size]
          omega
        rw [Frames.extent, List.length_append, Store.length_top enough, List.length_replicate, same]
        omega
      · simp only [room, if_false]
        exact .crash _

theorem State.Paired.ret (paired : s.Paired p left right pairs t) :
    Outcome.Paired p left right s.ret t.ret := by
  obtain ⟨store, frames, control⟩ := s
  obtain ⟨store', frames', control'⟩ := t
  have each := paired.frames
  have room := paired.room
  unfold State.ret
  cases each with
  | nil => exact .stuck
  | @cons f g fs gs first rest =>
    cases rest with
    | nil => exact .halt pairs ⟨paired.store, .nil, paired.control, Nat.zero_le _⟩
    | cons second rest =>
      simp only [first.1]
      cases g.resume with
      | none => exact .stuck
      | some pos =>
        refine .next pairs ⟨paired.store, .cons second rest, rfl, ?_⟩
        simp only [Frames.extent] at room
        simp only [State.goto, Frames.extent]
        omega

theorem State.Paired.getLocal (paired : s.Paired p left right pairs t) (index : Nat) :
    Outcome.Paired p left right (s.getLocal index next) (t.getLocal index next) := by
  have each := paired.frames
  unfold State.getLocal
  generalize frames : s.frames = fs at each
  generalize frames' : t.frames = gs at each
  cases each with
  | nil => exact .stuck
  | @cons f g fs gs first rest =>
    simp only
    rcases forall₂_getElem? first.2 index with ⟨none, none'⟩ | ⟨v, w, here, here', values⟩
    · simp only [none, none']
      exact .crash _
    · simp only [here, here']
      have pushed := paired.withStore (fun _ _ pair => pair) (paired.store.push values)
      rw [frames, frames'] at pushed
      exact .next pairs (pushed.goto next)

theorem State.Paired.setLocal (paired : s.Paired p left right pairs t) (index : Nat) :
    Outcome.Paired p left right (s.setLocal index next) (t.setLocal index next) := by
  have each := paired.frames
  have room := paired.room
  unfold State.setLocal
  rcases paired.store.peek? 0 with ⟨none, none'⟩ | ⟨v, w, here, here', values⟩
  · simp only [none, none']
    exact .error _ _ paired
  · simp only [here, here']
    generalize s.frames = fs at each room
    generalize t.frames = gs at each
    cases each with
    | nil => exact .stuck
    | @cons f g fs gs first rest =>
      simp only [first.2.length_eq]
      by_cases inside : index < g.locals.length
      · simp only [inside, if_true]
        have locals := forall₂_set first.2 index values
        refine .next pairs ⟨paired.store, .cons ⟨first.1, locals⟩ rest, rfl, ?_⟩
        simp only [Frames.extent] at room
        simpa only [State.goto, Frames.extent, List.length_set] using room
      · simp only [inside, if_false]
        exact .crash _

theorem State.Paired.branch (paired : s.Paired p left right pairs t) (target : Position) :
    Outcome.Paired p left right (s.branch target next) (t.branch target next) := by
  unfold State.branch
  rcases paired.store.peek? 0 with ⟨none, none'⟩ | ⟨v, w, here, here', values⟩
  · simp only [none, none']
    exact .error _ _ paired
  · simp only [here, here', Value.isTruthy, values.isNull]
    exact .next pairs
      ((paired.withStore (fun _ _ pair => pair) (paired.store.dropTop 1)).goto _)

theorem paired_ofOption {α : Type} {o : Option α} {f g : α → Outcome}
    (each : ∀ a, o = some a → Outcome.Paired p left right (f a) (g a)) :
    Outcome.Paired p left right (.ofOption o f) (.ofOption o g) := by
  cases o with
  | none => exact .stuck
  | some a => exact each a rfl

theorem State.Paired.exec (paired : s.Paired p left right pairs t)
    (few : p.classes.length < 2 ^ 32) (smaller : left.semispace ≤ right.semispace) (ins : Ins) :
    Outcome.Paired p left right (s.exec p next ins) (t.exec p next ins) := by
  cases ins with
  | label name => exact .stuck
  | lit idx =>
    rw [State.exec, State.exec]
    cases p.constant? idx with
    | none => exact .stuck
    | some c =>
      cases c with
      | int value => exact paired.after (paired.store.push (Value.paired_ofInt _)).done
      | null => exact paired.after (paired.store.push Value.paired_null).done
      | _ => exact .stuck
  | printf format arity =>
    exact paired_ofOption fun text _ => paired.after (paired.store.printf text _)
  | array => exact paired.newArray few smaller
  | object index =>
    refine paired_ofOption fun members found => ?_
    obtain ⟨c, stored, shape⟩ := Option.bind_eq_some_iff.mp found
    cases c with
    | classDef slots =>
      cases shape
      exact paired.newObject few smaller stored
    | _ => cases shape
  | slot name =>
    exact paired_ofOption fun text _ => paired.after (paired.store.getSlot (selector_fits p text))
  | setSlot name =>
    exact paired_ofOption fun text _ => paired.after (paired.store.setSlot (selector_fits p text))
  | callSlot name arity => exact paired_ofOption fun text _ => paired.callSlot _ _
  | call name arity => exact paired_ofOption fun method _ => paired.call method
  | setLocal idx => exact paired.setLocal _
  | getLocal idx => exact paired.getLocal _
  | setGlobal name =>
    exact paired_ofOption fun place _ => paired.after (paired.store.setGlobal place)
  | getGlobal name =>
    exact paired_ofOption fun place _ => paired.after (paired.store.getGlobal place)
  | branch name => exact paired_ofOption fun target _ => paired.branch target
  | goto name => exact paired_ofOption fun target _ => .next pairs (paired.goto target)
  | ret => exact paired.ret
  | drop => exact paired.after paired.store.drop

theorem State.Paired.step (paired : s.Paired p left right pairs t)
    (few : p.classes.length < 2 ^ 32) (smaller : left.semispace ≤ right.semispace) :
    Outcome.Paired p left right (s.step p) (t.step p) := by
  unfold State.step
  rw [paired.control]
  cases t.control with
  | enter method resume => exact paired.enter method resume
  | body pos => exact paired_ofOption fun ins _ => paired.exec few smaller ins

inductive Ending.Paired (p : Program) (left right : Setting) : Ending → Ending → Prop
  | ok {s t : State} (pairs : Nat → Nat → Prop) (states : s.Paired p left right pairs t) :
      Paired p left right (.ok s) (.ok t)
  | error (e : RuntimeError) {s t : State} (pairs : Nat → Nat → Prop)
      (states : s.Paired p left right pairs t) : Paired p left right (.error e s) (.error e t)
  | crash (c : Crash) : Paired p left right (.crash c) (.crash c)
  | stuck : Paired p left right .stuck .stuck
  | unfinished {s t : State} (pairs : Nat → Nat → Prop) (states : s.Paired p left right pairs t) :
      Paired p left right (.unfinished s) (.unfinished t)
  | starved (size : Nat) {s t : State} (pairs : Nat → Nat → Prop)
      (states : s.Paired p left right pairs t) (e : Ending)
      (tight : left.semispace < right.semispace) :
      Paired p left right (.error (.outOfMemory size) s) e

theorem State.Paired.run (paired : s.Paired p left right pairs t)
    (few : p.classes.length < 2 ^ 32) (smaller : left.semispace ≤ right.semispace) (fuel : Nat) :
    Ending.Paired p left right (run p fuel s) (run p fuel t) := by
  induction fuel generalizing s t pairs with
  | zero => exact .unfinished pairs paired
  | succ fuel ih =>
    have stepped := paired.step few smaller
    unfold Source.run
    generalize s.step p = o at stepped
    generalize t.step p = o' at stepped
    cases stepped with
    | next pairs' states => exact ih states
    | halt pairs' states => exact .ok pairs' states
    | error e pairs' states => exact .error e pairs' states
    | crash c => exact .crash c
    | stuck => exact .stuck
    | starved size pairs' states o tight => exact .starved size pairs' states _ tight

theorem paired_start (p : Program) {heap heap' : Heap} (wf : heap.WellFormed)
    (wf' : heap'.WellFormed) (semispace : heap.semispace = left.semispace)
    (semispace' : heap'.semispace = right.semispace) :
    (start p heap left.sink).Paired p left right (fun _ _ => False)
      (start p heap' right.sink) := by
  have unwritten (sink : Sink) : sink = sink.write "" := by simp [Sink.write]
  refine ⟨⟨wf.paired wf' _, .nil, ?_, semispace, semispace', "", unwritten _, unwritten _⟩, .nil, rfl,
    Nat.zero_le _⟩
  simp only [start, Array.toList_replicate]
  exact forall₂_replicate Value.paired_null _

end
end Source
end SlotVM
