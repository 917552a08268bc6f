import SlotVM.Proofs.Heap.BreadthFirst
import SlotVM.Proofs.Session.Invariant

namespace SlotVM

namespace Heap

/-- `h'` is `h` with `size` more bytes in use, and what was in use has not changed. -/
structure Grown (h h' : Heap) (size : Nat) : Prop where
  base : h'.base = h.base
  top : h'.top = h.top + size
  below : ∀ i < h.top / 8, h'.memory.word i = h.memory.word i
  cycles : h'.cycles = h.cycles

section
variable {f : Nat → Nat} {old h h' : Heap} {classes : ClassTable} {root root' : Value → Prop}
  {size a n : Nat}

theorem Grown.wordAt (grown : h.Grown h' size) (inside : h.Encloses classes a)
    (word : n < h.wordsAt classes a) : h'.wordAt a n = h.wordAt a n := by
  unfold Encloses sizeAt at inside
  exact grown.below _ (by omega)

theorem Grown.extentAt (grown : h.Grown h' size) (inside : h.Encloses classes a) :
    h'.extentAt classes a = h.extentAt classes a := by
  have two := h.two_le_words classes a
  apply extentAt_congr
  · exact grown.wordAt inside (by omega)
  · intro _
    exact grown.wordAt inside (by omega)

theorem Grown.fieldsAt (grown : h.Grown h' size) (inside : h.Encloses classes a) :
    h'.fieldsAt classes a = h.fieldsAt classes a := by
  have first := h.firstField_le classes a
  have two := h.two_le_words classes a
  unfold Heap.fieldsAt
  rw [grown.extentAt inside]
  apply List.map_congr_left
  intro n here
  rw [List.mem_range'_1] at here
  unfold wordsAt at two
  rw [grown.wordAt inside (by unfold wordsAt; omega)]

theorem Grown.encloses (grown : h.Grown h' size) (inside : h.Encloses classes a) :
    h'.Encloses classes a := by
  have extent := grown.extentAt inside
  unfold Encloses sizeAt wordsAt at inside ⊢
  rw [extent, grown.base, grown.top]
  omega

theorem Grown.reachable_iff (grown : h.Grown h' size)
    (inside : ∀ a, h.Reachable classes root a → h.Encloses classes a) (a : Nat) :
    h'.Reachable classes root a ↔ h.Reachable classes root a := by
  constructor
  · intro reach
    induction reach with
    | root here ref => exact .root here ref
    | field _ here ref ih =>
      rw [grown.fieldsAt (inside _ ih)] at here
      exact .field ih here ref
  · intro reach
    induction reach with
    | root here ref => exact .root here ref
    | field parent here ref ih =>
      rw [← grown.fieldsAt (inside _ parent)] at here
      exact .field ih here ref

theorem Carries.grow (carries : Carries f old h classes root root') (grown : h.Grown h' size) :
    Carries f old h' classes root root' where
  injective := carries.injective
  encloses a reach := grown.encloses (carries.encloses a reach)
  header a reach := by
    have two := h.two_le_words classes (f a)
    rw [grown.wordAt (carries.encloses a reach) (by omega), carries.header a reach]
  length a reach array := by
    have two := h.two_le_words classes (f a)
    rw [grown.wordAt (carries.encloses a reach) (by omega), carries.length a reach array]
  fields a reach := by
    rw [grown.fieldsAt (carries.encloses a reach), carries.fields a reach]
  reachable b := by
    refine (grown.reachable_iff (fun b reach => ?_) b).trans (carries.reachable b)
    obtain ⟨a, old_reach, rfl⟩ := (carries.reachable b).mp reach
    exact carries.encloses a old_reach

theorem Traceable.carries_id (live : h.Traceable classes root) :
    Carries id h h classes root root where
  injective _ _ _ _ same := same
  encloses _ reach := live.encloses reach
  header _ _ := rfl
  length _ _ _ := rfl
  fields a _ := by
    rw [Value.relocate_id, List.map_id]
    rfl
  reachable b := by simp

end
end Heap

namespace Store

structure Built (s : Store) (count size : Nat) (good : Heap → Value → Prop) (s' : Store) : Prop where
  heap : s.heap.Grown s'.heap size
  stack : s'.stack = (s.stack.shrink (s.stack.size - count)).push (.ofAddr s.heap.top)
  ref : (Value.ofAddr s.heap.top).addr? = some s.heap.top
  globals : s'.globals = s.globals
  sink : s'.sink = s.sink
  good : good s'.heap (.ofAddr s.heap.top)

theorem Built.imp {s s' : Store} {count size : Nat} {good good' : Heap → Value → Prop}
    (built : s.Built count size good s') (weaker : ∀ h v, good h v → good' h v) :
    s.Built count size good' s' :=
  { built with good := weaker _ _ built.good }

theorem buildArray_built {s : Store} {len : Nat} {init : Value} (heap : s.heap.WellFormed)
    (item : s.peek? 0 = some init) (fits : s.heap.fits (Heap.blockSize len) = true) :
    ∃ s', s.buildArray len = .done s' ∧ s.Built 2 (Heap.blockSize len) (fun h array =>
      h.shape? array = .ok (some (.array len)) ∧ ∀ i < len, h.arrayGet array i = .ok init) s' := by
  obtain ⟨header, length, items, below⟩ := heap.wordAt_pushArray init fits
  obtain ⟨-, inside, -⟩ := heap.room fits
  have ref := heap.addr?_top (len + 2) (by omega) fits
  have capacity : (s.heap.pushArray len init).2.memory.capacity = s.heap.memory.capacity := by
    simp [Heap.pushArray]
  have shape := Heap.shape?_of_array ref (by omega) header
  rw [length] at shape
  have done : s.buildArray len = .done
      ({ s with heap := (s.heap.pushArray len init).2 }.dropTop 2 |>.push (.ofAddr s.heap.top)) := by
    simp only [Store.buildArray, item]
    rfl
  refine ⟨_, done, ⟨⟨rfl, rfl, below, rfl⟩, rfl, ref, rfl, rfl, shape, ?_⟩⟩
  intro i bound
  have loaded := Heap.loadWord_eq_wordAt (h := (s.heap.pushArray len init).2) (n := 2 + i) ref
    (by omega)
  rw [items (2 + i) (by omega) (by omega)] at loaded
  show (Heap.loadWord _ _ _ >>= _) = _
  simp only [dropTop, push, loaded]
  rfl

theorem buildObject_built {s : Store} {nvars index : Nat} {parent : Value}
    (heap : s.heap.WellFormed) (small : index < 2 ^ 32) (below : s.peek? nvars = some parent)
    (fits : s.heap.fits (Heap.blockSize nvars) = true) :
    ∃ s', s.buildObject nvars index = .done s' ∧
      s.Built (nvars + 1) (Heap.blockSize nvars) (fun h object =>
        h.shape? object = .ok (some (.object index)) ∧ h.parent object = .ok parent ∧
        ∀ i v, (s.top nvars)[i]? = some v → h.slot object i = .ok v) s' := by
  have length : (s.top nvars).toList.length = nvars :=
    length_top (Nat.le_of_lt (peek?_eq_some below).1)
  have ref := heap.addr?_top (nvars + 2) (by omega) fits
  rw [← length] at fits
  obtain ⟨memory, filled, capacity, kept, header, second, slots⟩ :=
    wordAt_fillObject heap index parent fits
  rw [length] at fits filled
  obtain ⟨-, inside, -⟩ := heap.room fits
  have done : s.buildObject nvars index = .done
      ({ s with heap := { s.heap with
          memory := memory, top := s.heap.top + Heap.blockSize nvars } }.dropTop (nvars + 1)
        |>.push (.ofAddr s.heap.top)) := by
    simp only [Store.buildObject, below, filled]
  refine ⟨_, done, ⟨⟨rfl, rfl, kept, rfl⟩, rfl, ref, rfl, rfl, ?_, ?_, ?_⟩⟩
  · apply Heap.shape?_of_object ref
    · show s.heap.top / 8 < memory.capacity
      omega
    · show (memory.word (s.heap.top / 8)).toNat = index + 1
      rw [header]
      exact Heap.toNat_instanceTag (by omega)
  · have loaded := Heap.loadWord_eq_wordAt (h := { s.heap with
      memory := memory, top := s.heap.top + Heap.blockSize nvars }) (n := 1) ref (by
        show s.heap.top / 8 + 1 < memory.capacity
        omega)
    simp only [Heap.parent, dropTop, push, loaded]
    exact congrArg (fun word => Except.ok (Value.mk word)) second
  · intro i v found
    have bound : i < nvars := by
      have listed := (Array.getElem?_eq_some_iff.mp found).1
      rwa [← Array.length_toList, length] at listed
    have loaded := Heap.loadWord_eq_wordAt (h := { s.heap with
      memory := memory, top := s.heap.top + Heap.blockSize nvars }) (n := 2 + i) ref (by
        show s.heap.top / 8 + (2 + i) < memory.capacity
        omega)
    simp only [Heap.slot, dropTop, push, loaded]
    exact congrArg (fun word => Except.ok (Value.mk word)) (slots i v (by simpa using found))

end Store

namespace Vm

/-- `after` is `vm` with its top `count` operands replaced by `new`, which refers to an object that is
none of the earlier ones. All that `vm` held has moved along `f`, and leads to the same graph. -/
structure Allocated (classes : ClassTable) (f : Nat → Nat) (count : Nat) (new : Value)
    (vm after : Vm) : Prop where
  stack : after.stack =
    ((vm.stack.map (Value.relocate f)).shrink (vm.stack.size - count)).push new
  roots : vm.roots.Relocated f ⟨vm.stack.map (Value.relocate f), after.frames, after.globals⟩
  graph : Heap.Carries f vm.heap after.heap classes vm.roots.Holds
    (Roots.Holds ⟨vm.stack.map (Value.relocate f), after.frames, after.globals⟩)
  fresh : ∃ addr, new.addr? = some addr ∧
    ∀ a, vm.heap.Reachable classes vm.roots.Holds a → f a ≠ addr
  sink : after.sink = vm.sink

/-- The outcome of allocating `size` bytes for an object that replaces the top `count` operands. It
depends on what the objects in reach take together: the object is built, as `good` says, if they leave
room for it, and otherwise there is no memory. A collection runs, once, if what is in use does not. -/
def Allocates (vm : Vm) (classes : ClassTable) (next size count : Nat)
    (good : (Nat → Nat) → Heap → Value → Prop) (outcome : Outcome) : Prop :=
  ∃ objects, vm.heap.Enumerates classes vm.roots.Holds objects ∧
    if Packing.total (vm.heap.sizeAt classes) objects + size ≤ vm.heap.semispace then
      ∃ f new after, outcome = .next next after ∧ vm.Allocated classes f count new after ∧
        good f after.heap new ∧ after.heap.cycles =
          vm.heap.cycles + if vm.heap.used + size ≤ vm.heap.semispace then 0 else 1
    else
      ∃ after, outcome = .error (.outOfMemory size) after ∧ after.heap.cycles =
        vm.heap.cycles + if vm.heap.used + size ≤ vm.heap.semispace then 0 else 1

section
variable {vm : Vm} {classes : ClassTable} {size count next : Nat}
  {good : (Nat → Nat) → Heap → Value → Prop}

/-- `moved` is `vm` after its heap was brought along `f` down to the objects in reach. -/
structure Compacted (classes : ClassTable) (f : Nat → Nat) (vm moved : Vm) : Prop where
  stack : moved.stack = vm.stack.map (Value.relocate f)
  roots : vm.roots.Relocated f moved.roots
  graph : Heap.Carries f vm.heap moved.heap classes vm.roots.Holds moved.roots.Holds
  sink : moved.sink = vm.sink

theorem compacted_id (live : vm.heap.Traceable classes vm.roots.Holds) :
    Compacted classes id vm vm := by
  refine ⟨?_, ⟨?_, ?_, rfl, rfl, ?_, fun _ _ => rfl⟩, live.carries_id, rfl⟩ <;> simp

theorem collect_compacts (heap : vm.heap.WellFormed) (frames : vm.frames.WellFormed)
    (live : vm.heap.Traceable classes vm.roots.Holds) :
    ∃ objects f moved, vm.heap.Enumerates classes vm.roots.Holds objects ∧
      vm.collect classes = .ok moved ∧ Compacted classes f vm moved ∧ moved.heap.WellFormed ∧
      moved.heap.semispace = vm.heap.semispace ∧
      moved.heap.used = Packing.total (vm.heap.sizeAt classes) objects ∧
      moved.heap.used ≤ vm.heap.used ∧ moved.heap.cycles = vm.heap.cycles + 1 := by
  have frames : vm.roots.frames.WellFormed := frames
  obtain ⟨places, walk, -⟩ := frames.rootPlaces?
  obtain ⟨h', run, state⟩ := Heap.collect_copying heap frames live walk
  have covered : ∀ v, vm.roots.Holds v → ∀ a, v.addr? = some a →
      a ∈ vm.heap.survivors classes (Heap.rootValues vm.roots places) :=
    fun _ held _ => Heap.mem_survivors frames walk held
  have moved := Heap.relocated_setPlaces frames walk
    (vm.heap.newAddr classes (vm.heap.survivors classes (Heap.rootValues vm.roots places)))
  have carries := state.carries heap live covered (moved.holds_iff frames)
  refine ⟨_, _, ⟨vm.stack.map (Value.relocate _), _, vm.globals.map (Value.relocate _), h', vm.sink⟩,
    state.enumerates heap covered, ?_, ⟨rfl, moved, carries, rfl⟩, state.wellFormed heap live,
    state.semispace, state.used_eq, state.used_le heap live, Heap.cycles_collect run⟩
  simp only [Vm.collect, run, bind, Except.bind, pure, Except.pure]
  rfl

theorem Compacted.allocated {f : Nat → Nat} {good : Heap → Value → Prop} {moved : Vm} {s : Store}
    (compacted : Compacted classes f vm moved) (built : moved.store.Built count size good s) :
    vm.Allocated classes f count (.ofAddr moved.heap.top) (moved.withStore s) := by
  have globals : s.globals = moved.globals := built.globals
  have same : Roots.mk (vm.stack.map (Value.relocate f)) moved.frames s.globals = moved.roots := by
    rw [← compacted.stack, globals]
    rfl
  refine ⟨?_, ?_, ?_, ⟨_, built.ref, ?_⟩, built.sink.trans compacted.sink⟩
  · have replaced := built.stack
    rw [Vm.store, compacted.stack, Array.size_map] at replaced
    exact replaced
  · show vm.roots.Relocated f ⟨_, moved.frames, s.globals⟩
    rw [same]
    exact compacted.roots
  · show Heap.Carries f vm.heap s.heap classes _ (Roots.Holds ⟨_, moved.frames, s.globals⟩)
    rw [same]
    exact compacted.graph.grow built.heap
  · intro a reach at_top
    have inside := compacted.graph.encloses a reach
    have two := moved.heap.two_le_words classes (f a)
    unfold Heap.Encloses Heap.sizeAt at inside
    change f a = moved.heap.top at at_top
    omega

theorem allocate_allocates {build : Store → Effect} (heap : vm.heap.WellFormed)
    (frames : vm.frames.WellFormed) (live : vm.heap.Traceable classes vm.roots.Holds)
    (builds : ∀ (f : Nat → Nat) (s : Store), s.stack = vm.stack.map (Value.relocate f) →
      s.heap.WellFormed → s.heap.fits size = true →
      ∃ s', build s = .done s' ∧ s.Built count size (good f) s') :
    vm.Allocates classes next size count good (vm.allocate classes size build next) := by
  obtain ⟨objects, f, moved, enumerated, collected, compacted, heap', semispace, used, fewer,
    cycles⟩ := collect_compacts heap frames live
  refine ⟨objects, enumerated, ?_⟩
  rw [← used]
  unfold Vm.allocate
  by_cases fits : vm.heap.used + size ≤ vm.heap.semispace
  · -- there is room as it is, so nothing moves
    have room := (heap.fits_iff size).mpr fits
    have stays := compacted_id live
    obtain ⟨s, done, built⟩ := builds id vm.store stays.stack heap room
    rw [if_pos (by omega), if_pos fits, if_pos room, done]
    exact ⟨id, _, _, rfl, stays.allocated built, built.good, built.heap.cycles⟩
  · have full : ¬ vm.heap.fits size = true := fun room => fits ((heap.fits_iff size).mp room)
    rw [if_neg fits, if_neg full]
    simp only [collected]
    by_cases enough : moved.heap.used + size ≤ vm.heap.semispace
    · have room := (heap'.fits_iff size).mpr (semispace ▸ enough)
      obtain ⟨s, done, built⟩ := builds f moved.store compacted.stack heap' room
      rw [if_pos enough, if_pos room, done]
      exact ⟨f, _, _, rfl, compacted.allocated built, built.good, built.heap.cycles.trans cycles⟩
    · have full' : ¬ moved.heap.fits size = true :=
        fun room => enough (semispace ▸ (heap'.fits_iff size).mp room)
      rw [if_neg enough, if_neg full']
      exact ⟨moved, rfl, cycles⟩

end

section
variable {vm : Vm} {image : Image} {ip : Nat} {completed : Frames}

theorem Invariant.inside (invariant : vm.Invariant image ip completed) {instr : Instr} {next : Nat}
    (decoded : image.code.decode ip = .ok (instr, next))
    (plain : ∀ nargs nlocals, instr ≠ .frame nargs nlocals) :
    vm.frames.WellFormed ∧ vm.heap.Traceable image.classes vm.roots.Holds := by
  have other {nargs nlocals : UInt32} (emits : image.Emits ip (.frame nargs nlocals)) : False := by
    obtain ⟨before, after, code, offset⟩ := emits
    have read := Code.decode_foldl_emit before after (.frame nargs nlocals)
    rw [← code, offset, decoded] at read
    cases read
    exact plain nargs nlocals rfl
  have traceable := invariant.traceable
  generalize at_frames : vm.frames = frames at traceable
  have stands := invariant.stands
  rw [at_frames] at stands
  cases stands with
  | inside _ stacked =>
    refine ⟨.inr stacked.chain, ?_⟩
    rw [Vm.roots, at_frames]
    exact traceable
  | entering opcode => exact (other opcode).elim
  | calling opcode => exact (other opcode).elim

theorem peek?_relocated {s : Store} {f : Nat → Nat} (moved : s.stack = vm.stack.map (Value.relocate f))
    (depth : Nat) : s.peek? depth = (vm.peek? depth).map (Value.relocate f) := by
  unfold Vm.peek? Store.peek?
  rw [moved, Array.size_map, Vm.store]
  split
  · rw [Array.getElem?_map]
  · rfl

def IsArray (n : Nat) (init : Value) (f : Nat → Nat) (heap : Heap) (new : Value) : Prop :=
  heap.shape? new = .ok (some (.array n)) ∧ ∀ i < n, heap.arrayGet new i = .ok (init.relocate f)

def IsInstance (vm : Vm) (nvars index : Nat) (f : Nat → Nat) (heap : Heap) (new : Value) : Prop :=
  heap.shape? new = .ok (some (.object index)) ∧
    (∃ parent, vm.peek? nvars = some parent ∧ heap.parent new = .ok (parent.relocate f)) ∧
    ∀ i < nvars, ∃ v, vm.stack[vm.stack.size - nvars + i]? = some v ∧
      heap.slot new i = .ok (v.relocate f)

/-- What the instructions that allocate do in any state that keeps the invariant: they fail only when
the objects in reach leave too little room, and otherwise make an array of the length and the item on
top, or an instance of the slots on top and the parent below them. -/
theorem Invariant.allocates (invariant : vm.Invariant image ip completed) (next : Nat) :
    (∀ (n : Nat) (length init : Value), image.code.decode ip = .ok (.array, next) →
      vm.peek? 1 = some length → length.toInt? = some (n : Int) → vm.peek? 0 = some init →
      vm.Allocates image.classes next (8 * (n + 2)) 2 (IsArray n init) (vm.step image ip)) ∧
    ∀ nvars index : UInt32, image.code.decode ip = .ok (.object nvars index, next) →
      nvars.toNat + 1 ≤ vm.stack.size →
      vm.Allocates image.classes next (8 * (nvars.toNat + 2)) (nvars.toNat + 1)
        (vm.IsInstance nvars.toNat index.toNat) (vm.step image ip) := by
  constructor
  · intro n length init decoded second int first
    obtain ⟨frames, live⟩ := invariant.inside decoded (by simp)
    have measured : vm.store.arrayLength = .ok n := by
      change vm.store.peek? 1 = some length at second
      have kept : length.toInt?.filter (0 ≤ ·) = some (n : Int) := by simp [int]
      simp [Store.arrayLength, second, kept]
    have step : vm.step image ip =
        vm.allocate image.classes (8 * (n + 2)) (Store.buildArray n) next := by
      simp only [Vm.step, decoded, Vm.exec]
      exact newArray_of_length image.classes next measured
    rw [step]
    apply allocate_allocates invariant.heap frames live
    intro f s moved heap fits
    apply Store.buildArray_built heap _ fits
    rw [peek?_relocated moved, first, Option.map_some]
  · intro nvars index decoded enough
    obtain ⟨frames, live⟩ := invariant.inside decoded (by simp)
    have step : vm.step image ip = vm.allocate image.classes (8 * (nvars.toNat + 2))
        (Store.buildObject nvars.toNat index.toNat) next := by
      simp only [Vm.step, decoded, Vm.exec]
      exact newObject_of_enough image.classes next nvars.toNat_lt_size index.toNat enough
    rw [step]
    apply allocate_allocates invariant.heap frames live
    intro f s moved heap fits
    have inside : nvars.toNat < vm.stack.size := enough
    have below : vm.peek? nvars.toNat = some vm.stack[vm.stack.size - 1 - nvars.toNat] := by
      simp [Vm.peek?, Store.peek?, Vm.store, inside]
    have below' : s.peek? nvars.toNat =
        some (vm.stack[vm.stack.size - 1 - nvars.toNat].relocate f) := by
      rw [peek?_relocated moved, below, Option.map_some]
    obtain ⟨s', done, built⟩ := Store.buildObject_built heap index.toNat_lt below' fits
    refine ⟨s', done, built.imp ?_⟩
    intro h new made
    obtain ⟨shape, parent, slots⟩ := made
    refine ⟨shape, ⟨_, below, parent⟩, ?_⟩
    intro i bound
    have place : vm.stack.size - nvars.toNat + i < vm.stack.size := by omega
    refine ⟨vm.stack[vm.stack.size - nvars.toNat + i], Array.getElem?_eq_getElem place, ?_⟩
    apply slots
    rw [s.getElem?_top (by rw [moved, Array.size_map]; omega) bound, moved, Array.size_map,
      Array.getElem?_map, Array.getElem?_eq_getElem place, Option.map_some]

end

theorem getter_allocates :
    ∃ image vm completed, Runnable Program.getter image ∧ Vm.Invariant image 52 vm completed ∧
      image.code.decode 52 = .ok (.object 1 0, 64) ∧ vm.stack.size = 2 ∧ vm.heap.used = 24 ∧
      vm.heap.semispace = 24 ∧
      vm.Allocates image.classes 64 24 2 (vm.IsInstance 1 0) (vm.step image 52) := by
  have evaluated : (do
      let (image, ip, vm) ← Session.getterAgain 3
      return decide (ip = 52 ∧ image.code.decode 52 = .ok (.object 1 0, 64) ∧ vm.stack.size = 2 ∧
        vm.heap.used = 24 ∧ vm.heap.semispace = 24)) = some true := by
    rw [Session.getterAgain, link_eq]
    decide +kernel
  obtain ⟨⟨image, ip, vm⟩, again, evaluated⟩ := Option.bind_eq_some_iff.mp evaluated
  obtain ⟨rfl, decoded, stack, used, semispace⟩ := of_decide_eq_true (Option.some.inj evaluated)
  obtain ⟨s, -, reached, runnable, here⟩ := Session.getter_again again
  have lockstep := Source.lockstep_start runnable reached.heap 3
  rw [here] at lockstep
  obtain ⟨completed, invariant⟩ := lockstep.invariant runnable
  exact ⟨image, vm, completed, runnable, invariant, decoded, stack, used, semispace,
    (Invariant.allocates invariant 64).2 1 0 decoded (Nat.le_of_eq stack.symm)⟩

end Vm
end SlotVM
