import SlotVM.Proofs.Source.Simulation
import SlotVM.Proofs.Source.Soundness

namespace SlotVM

/-- An image that can be run: of a program whose lists have their sizes in 32 bits and whose bodies
do not run out, with an address for every byte of its code. -/
structure Runnable (p : Program) (image : Image) : Prop where
  linked : link p = .ok image
  small : p.Small
  complete : p.Complete
  room : image.code.size < 2 ^ 64

theorem Runnable.meets {p : Program} {image : Image} (runnable : Runnable p image) :
    Linked p image :=
  link_linked runnable.linked runnable.small runnable.room

theorem Program.Small.classes {p : Program} (small : p.Small) : p.classes.length < 2 ^ 32 := by
  have pool := small.pool
  have fewer : p.classes.length ≤ p.values.toList.length := List.length_filterMap_le _ _
  have size : p.values.toList.length = p.values.size := Array.length_toList
  omega

namespace Source

/-- Both machines end, or stand after equally many steps, in the same way: with the same operands,
globals, heap and output, with frames that hold the same arguments and locals and return to the same
instructions, and at the same instruction. No error is one of decoding, and all crashes but two are
ruled out: a local that the frame does not have, and more frames than memory. -/
inductive Lockstep (p : Program) : Ending → SlotVM.Ending → Prop
  | ok (s : State) (heap : s.store.heap.WellFormed) : Lockstep p (.ok s) (.ok (s.toVm p))
  | error (e : RuntimeError) (s : State) (benign : e.blamesCode = false)
      (heap : s.store.heap.WellFormed) : Lockstep p (.error e s) (.error e (s.toVm p))
  | crash (c : Crash) (possible : c = .localSlot ∨ c = .frameMemory) :
      Lockstep p (.crash c) (.crash c)
  | unfinished (s : State) (placed : s.Placed p) (sound : ∃ objects, s.Sound p objects) :
      Lockstep p (.unfinished s) (.unfinished (s.control.offset p) (s.toVm p))

section
variable {p : Program} {image : Image} {s : State} {objects : Nat → Prop}

theorem lockstep_run (runnable : Runnable p image) (placed : s.Placed p) (sound : s.Sound p objects)
    (fuel : Nat) :
    Lockstep p (run p fuel s) (Vm.runFrom image fuel (s.control.offset p) (s.toVm p)) := by
  induction fuel generalizing s objects with
  | zero => exact .unfinished s placed ⟨objects, sound⟩
  | succ fuel ih =>
    have agrees := agrees_step runnable.meets runnable.complete runnable.room placed
    have stepped := sound.step runnable.small.classes
    unfold run Vm.runFrom
    generalize s.step p = source at agrees stepped
    generalize (s.toVm p).step image (s.control.offset p) = target at agrees
    cases agrees with
    | next s' placed' =>
      obtain ⟨objects', sound'⟩ := stepped
      exact ih placed' sound'
    | halt s' => exact .ok s' stepped
    | error e s' => exact .error e s' stepped.1 stepped.2
    | crash c => exact .crash c stepped

theorem placed_start (linked : Linked p image) (heap : Heap) (sink : Sink) :
    (start p heap sink).Placed p := by
  obtain ⟨m, found, -⟩ := linked.entry
  refine ⟨⟨m, found⟩, .root, ?_⟩
  rw [State.toVm, start, size_layout_enter]
  exact (by decide : 0 + 2 ≤ Frames.capacity)

theorem toVm_start (linked : Linked p image) (vm : Vm) :
    (start p vm.heap vm.sink).toVm p = vm.start image := by
  have globals : p.globalNames.length = image.globals.size := by
    rw [linked.globals.length_eq, Array.length_toList]
  rw [State.toVm, start, globals]
  rfl

theorem Lockstep.flush {source : Ending} {target : SlotVM.Ending} (steps : Lockstep p source target) :
    Lockstep p source.flush target.flush := by
  have failed (sink : Sink) (e : RuntimeError) (flushed : sink.flush = .error e) :
      e.blamesCode = false := by
    unfold Sink.flush at flushed
    split at flushed
    · cases flushed
    · cases flushed
      rfl
  cases steps with
  | ok s heap =>
    have same : (s.toVm p).sink = s.store.sink := rfl
    simp only [Ending.flush, SlotVM.Ending.flush, same]
    cases flushed : s.store.sink.flush with
    | ok _ => exact .ok s heap
    | error e => exact .error e s (failed _ e flushed) heap
  | error e s benign heap =>
    have same : (s.toVm p).sink = s.store.sink := rfl
    simp only [Ending.flush, SlotVM.Ending.flush, same]
    cases flushed : s.store.sink.flush with
    | ok _ => exact .error e s benign heap
    | error e => exact .error e s (failed _ e flushed) heap
  | crash c possible => exact .crash c possible
  | unfinished s placed sound => exact .unfinished s placed sound

theorem lockstep_start (runnable : Runnable p image) {vm : Vm} (heap : vm.heap.WellFormed)
    (fuel : Nat) :
    Lockstep p (run p fuel (start p vm.heap vm.sink))
      (Vm.runFrom image fuel image.entry (vm.start image)) := by
  have linked := runnable.meets
  obtain ⟨m, -, entry⟩ := linked.entry
  have steps := lockstep_run runnable (placed_start linked vm.heap vm.sink)
    (sound_start p heap vm.sink) fuel
  rw [toVm_start linked vm] at steps
  rwa [entry]

theorem execute_lockstep (runnable : Runnable p image) {vm : Vm} (heap : vm.heap.WellFormed)
    (fuel : Nat) :
    Lockstep p (execute p vm.heap vm.sink fuel) (vm.execute image fuel) :=
  (lockstep_start runnable heap fuel).flush

theorem getter_complete : Program.getter.Complete := by
  rintro c member m rfl
  simp only [Program.getter, List.mem_cons, reduceCtorEq, Constant.method.injEq, false_or,
    List.not_mem_nil, or_false] at member
  rcases member with rfl | rfl <;> exact ⟨_, rfl, rfl⟩

theorem getter_runnable : ∃ image, Runnable Program.getter image := by
  obtain ⟨image, linked, size, -⟩ := Program.link_getter
  exact ⟨image, linked, Program.getter_small, getter_complete, by rw [size]; decide⟩

theorem execute_getter_lockstep :
    ∃ image vm, Vm.create .default .unbounded = .ok vm ∧ Runnable Program.getter image ∧
      vm.heap.WellFormed ∧
      Lockstep Program.getter (execute Program.getter vm.heap vm.sink 30) (vm.execute image 30) := by
  obtain ⟨image, runnable⟩ := getter_runnable
  have created : Heap.create Config.default.heapSize = .ok ⟨.zero 262144, 1048576, 0, 0, 0, 0⟩ := rfl
  have heap := Heap.create_wellFormed created
  exact ⟨image, ⟨#[], .empty, #[], ⟨.zero 262144, 1048576, 0, 0, 0, 0⟩, .unbounded⟩, rfl, runnable,
    heap, execute_lockstep runnable heap 30⟩

end
end Source
end SlotVM
