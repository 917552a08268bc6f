import SlotVM.Proofs.Source.Lockstep
import SlotVM.Session

namespace SlotVM

namespace Session

/-- The sessions that come about when programs are run one after another. A program that links must be
one whose image can be run; one that does not link leaves the session as it is. -/
inductive Reached : Session → Prop
  | create {config : Config} {sink : Sink} {s : Session}
      (created : Session.create config sink = .ok s) : Reached s
  | run {s : Session} {p : Program} (fuel : Nat) (before : Reached s)
      (runnable : ∀ image, link p = .ok image → Runnable p image) : Reached (s.run p fuel).2
  | takeOutput {s : Session} (before : Reached s) : Reached s.takeOutput.2

theorem run_of_linked {s : Session} {p : Program} {image : Image} (linked : link p = .ok image)
    (fuel : Nat) : s.run p fuel = s.execute image fuel := by
  rw [Session.run, linked]

theorem run_of_unlinked {s : Session} {p : Program} {fault : LinkFault}
    (failed : link p = .error fault) (fuel : Nat) : (s.run p fuel).2 = s := by
  obtain ⟨e, rfl⟩ := link_eq_error failed
  rw [Session.run, failed]

theorem heap_after {s : Session} {p : Program} {image : Image} {source : Source.Ending}
    {target : Ending} (heap : s.vm.heap.WellFormed) (steps : Source.Lockstep p source target) :
    (s.after image target).2.vm.heap.WellFormed := by
  cases steps with
  | ok s' heap' => exact heap'
  | error e s' benign heap' => exact heap'
  | crash c possible => exact heap
  | unfinished s' placed sound =>
    obtain ⟨objects, sound⟩ := sound
    exact sound.store.houses.heap

theorem Reached.heap {s : Session} (reached : s.Reached) : s.vm.heap.WellFormed := by
  induction reached with
  | @create config sink s created =>
    obtain ⟨vm, machine, created⟩ := bind_eq_ok.mp created
    obtain ⟨h, space, machine⟩ := bind_eq_ok.mp machine
    cases machine
    cases created
    exact Heap.create_wellFormed space
  | @run s p fuel before runnable ih =>
    cases linked : link p with
    | error fault =>
      rw [run_of_unlinked linked]
      exact ih
    | ok image =>
      rw [run_of_linked linked]
      exact heap_after ih (Source.lockstep_start (runnable image linked) ih fuel).flush
  | takeOutput before ih => exact ih

theorem Reached.rerun {s : Session} {p : Program} {image : Image} (reached : s.Reached)
    (runnable : Runnable p image) (fuel : Nat) : (s.run p fuel).2.Reached := by
  apply Reached.run fuel reached
  intro image' linked
  have same := linked.symm.trans runnable.linked
  cases same
  exact runnable

end Session

def Image.Opcode (image : Image) (offset : Nat) : Prop := ∃ instr, image.Emits offset instr

/-- Where a machine can stand, and its completed frames: inside a method at an opcode, or before a
method's frame, with a header on top that is not completed yet. -/
inductive Vm.Stands (image : Image) : Nat → Frames → Frames → Prop
  | inside {ip : Nat} {frames : Frames} (opcode : image.Opcode ip)
      (stacked : Frames.Stacked image.Opcode frames.words frames.fp frames.size) :
      Stands image ip frames frames
  | entering {ip : Nat} {nargs nlocals : UInt32} (opcode : image.Emits ip (.frame nargs nlocals)) :
      Stands image ip (Frames.empty.pushCall 0) .empty
  | calling {ip ret : Nat} {frames : Frames} {nargs nlocals : UInt32}
      (opcode : image.Emits ip (.frame nargs nlocals)) (resume : image.Opcode ret)
      (small : ret < 2 ^ 64)
      (stacked : Frames.Stacked image.Opcode frames.words frames.fp frames.size) :
      Stands image ip (frames.pushCall ret) frames

/-- An array, or an instance of a known class with exactly the variables of the class. -/
def Heap.Classified (h : Heap) (classes : ClassTable) (addr : Nat) : Prop :=
  (∃ len, h.shape? (.ofAddr addr) = .ok (some (.array len)) ∧
    h.sizeAt classes addr = Heap.blockSize len) ∨
  ∃ index layout, h.shape? (.ofAddr addr) = .ok (some (.object index)) ∧
    classes.get? index = some layout ∧ h.sizeAt classes addr = Heap.blockSize layout.nvars

/-- The invariant: control and frames are in order, the part of the semispace in use ends inside it at
a word, and every operand, argument, local and global, and every field of an object they lead to, is an
integer, null or a reference to the start of an object in use; these objects are apart, and each is of
a known shape. -/
structure Vm.Invariant (image : Image) (ip : Nat) (vm : Vm) (completed : Frames) : Prop where
  stands : Vm.Stands image ip vm.frames completed
  heap : vm.heap.WellFormed
  traceable : vm.heap.Traceable image.classes (Roots.Holds ⟨vm.stack, completed, vm.globals⟩)
  classified : ∀ addr, vm.heap.Reachable image.classes
    (Roots.Holds ⟨vm.stack, completed, vm.globals⟩) addr → vm.heap.Classified image.classes addr

section
variable {p : Program} {image : Image}

theorem Linked.opcode_of_inside (linked : Linked p image) (complete : p.Complete) {pos : Position}
    (inside : p.Inside pos) : image.Opcode (p.place pos) := by
  obtain ⟨ins, here, plain, place⟩ := complete.settle inside
  obtain ⟨instr, emitted, -⟩ := linked.emits_place here (Source.emits_of_not_label plain)
  exact ⟨instr, place ▸ emitted⟩

theorem Source.Returns.resume_inside {frames : List (Frame (Option Position))}
    (returns : Source.Returns p (frames.map (·.resume))) :
    ∀ f ∈ frames.dropLast, ∃ pos, f.resume = some pos ∧ p.Inside pos := by
  induction frames with
  | nil => simp
  | cons f frames ih =>
    rcases returns.cases_cons with ⟨-, last⟩ | ⟨pos, resume, inside, below⟩
    · rw [List.map_eq_nil_iff] at last
      simp [last]
    · cases frames with
      | nil => cases below
      | cons g frames =>
        intro h member
        rw [List.dropLast_cons_cons] at member
        rcases List.mem_cons.mp member with rfl | member
        · exact ⟨pos, resume, inside⟩
        · exact ih below h member

theorem place_lt (linked : Linked p image) (room : image.code.size < 2 ^ 64) {pos : Position}
    (inside : p.Inside pos) : p.place pos < 2 ^ 64 := by
  obtain ⟨ins, here⟩ := inside
  exact Nat.lt_of_le_of_lt (Program.place_le here) (linked.room ▸ room)

theorem stacked_encode (linked : Linked p image) (complete : p.Complete)
    (room : image.code.size < 2 ^ 64) {frames : List (Frame (Option Position))}
    (returns : Source.Returns p (frames.map (·.resume)))
    (small : Frames.extent frames ≤ Frames.capacity) :
    Frames.Stacked image.Opcode (Frames.build (Source.encode p frames)).words
      (Frames.build (Source.encode p frames)).fp (Frames.build (Source.encode p frames)).size := by
  cases frames with
  | nil => cases returns
  | cons f frames =>
    have taken : Frames.extent (Source.encode p (f :: frames)) < 2 ^ 64 := by
      rw [Source.extent_encode]
      exact Nat.lt_of_le_of_lt small (by decide)
    have allowed : ∀ g ∈ (Source.encode p (f :: frames)).dropLast,
        image.Opcode (Frames.rawWord g.resume).raw.toNat := by
      rw [Source.encode, ← List.map_dropLast]
      intro g member
      obtain ⟨f', here, rfl⟩ := List.mem_map.mp member
      obtain ⟨pos, resume, inside⟩ := returns.resume_inside f' here
      rw [resume, Source.returnOffset, Frames.rawWord_toNat (place_lt linked room inside)]
      exact linked.opcode_of_inside complete inside
    simp only [Source.encode, List.map_cons] at taken allowed ⊢
    rw [Frames.size_build, Frames.fp_build_cons, Frames.size_build]
    exact Frames.stacked_build _ _ taken allowed List.prefix_rfl

theorem Source.State.Placed.stands (runnable : Runnable p image) {s : Source.State}
    (placed : s.Placed p) :
    Vm.Stands image (s.control.offset p) (s.toVm p).frames
        (Frames.build (Source.encode p s.frames)) ∧
      (Frames.build (Source.encode p s.frames)).WellFormed ∧
      Frames.extent s.frames ≤ Frames.capacity := by
  have linked := runnable.meets
  have complete := runnable.complete
  obtain ⟨store, frames, control⟩ := s
  cases control with
  | body pos =>
    have small := placed.extent_le
    have stacked := stacked_encode linked complete runnable.room placed.returns small
    exact ⟨.inside (linked.opcode_of_inside complete placed.control) stacked, .inr stacked.chain,
      small⟩
  | enter method resume =>
    obtain ⟨m, found⟩ := placed.control
    have small : Frames.extent frames ≤ Frames.capacity := by
      have room := placed.room
      rw [Source.State.toVm, Source.size_layout_enter] at room
      exact Nat.le_of_add_right_le room
    have opcode := linked.emits_start found
    rcases placed.returns.cases_cons with ⟨none, empty⟩ | ⟨pos, some_pos, inside, below⟩
    · rw [List.map_eq_nil_iff] at empty
      change frames = [] at empty
      subst none empty
      exact ⟨.entering opcode, .inl rfl, small⟩
    · subst some_pos
      have stacked := stacked_encode linked complete runnable.room below small
      exact ⟨.calling opcode (linked.opcode_of_inside complete inside)
        (place_lt linked runnable.room inside) stacked, .inr stacked.chain, small⟩

theorem mem_of_holds {stack globals : Array Value} {frames : List (Frame (Option Position))}
    (wf : (Frames.build (Source.encode p frames)).WellFormed)
    (small : Frames.extent frames ≤ Frames.capacity) {v : Value}
    (held : Roots.Holds ⟨stack, Frames.build (Source.encode p frames), globals⟩ v) :
    v ∈ stack.toList ∨ v ∈ frames.flatMap (·.locals) ∨ v ∈ globals.toList := by
  have taken : Frames.extent (Source.encode p frames) < 2 ^ 64 := by
    rw [Source.extent_encode]
    exact Nat.lt_of_le_of_lt small (by decide)
  obtain ⟨places, walk, -, -, inside⟩ := wf.rootPlaces?
  have read := Frames.roots?_eq walk inside
  rw [Frames.roots?_build _ taken, Option.some.injEq, Source.flatMap_encode] at read
  have member := (Heap.mem_rootValues_iff wf walk v).mpr held
  simp only [Heap.rootValues, ← read, List.mem_append, or_assoc] at member
  exact member

theorem Heap.Houses.classified {h : Heap} {classes : ClassTable} {objects : Nat → Prop}
    (houses : h.Houses classes objects) {addr : Nat} (here : objects addr) :
    h.Classified classes addr := by
  rcases houses.shape? (houses.addr?_ofAddr here) here with
    ⟨-, shape, words⟩ | ⟨index, known, -, shape, words⟩
  · exact .inl ⟨_, shape, by rw [sizeAt, words]; rfl⟩
  · have stored : classes.get? index = some classes.classes[index] :=
      Array.getElem?_eq_getElem known
    refine .inr ⟨index, _, shape, stored, ?_⟩
    rw [sizeAt, words, ClassTable.nvars, stored]
    rfl

theorem Linked.size_classes (linked : Linked p image) : p.shapes.size = image.classes.size := by
  rw [Program.size_shapes, linked.classes.length_eq]
  rfl

theorem Source.State.Placed.housed (runnable : Runnable p image) {s : Source.State}
    (placed : s.Placed p) {objects : Nat → Prop} (sound : s.Sound p objects) :
    s.store.heap.Houses image.classes objects ∧
      ∀ v, Roots.Holds ⟨s.store.stack, Frames.build (Source.encode p s.frames), s.store.globals⟩ v →
        v.Valid objects := by
  have linked := runnable.meets
  obtain ⟨-, frames, small⟩ := placed.stands runnable
  constructor
  · exact sound.store.houses.sizes linked.size_classes fun index => (linked.nvars_eq index).symm
  · intro v held
    rcases mem_of_holds frames small held with here | here | here
    · exact sound.store.stack v here
    · exact sound.locals v here
    · exact sound.store.globals v here

theorem Source.State.Placed.invariant (runnable : Runnable p image) {s : Source.State}
    (placed : s.Placed p) {objects : Nat → Prop} (sound : s.Sound p objects) :
    Vm.Invariant image (s.control.offset p) (s.toVm p)
      (Frames.build (Source.encode p s.frames)) := by
  obtain ⟨stands, -, -⟩ := placed.stands runnable
  obtain ⟨houses, valid⟩ := placed.housed runnable sound
  have few : image.classes.size < 2 ^ 32 := by
    rw [← runnable.meets.size_classes, Program.size_shapes]
    exact runnable.small.classes
  exact ⟨stands, houses.heap, houses.traceable few valid,
    fun addr reach => houses.classified (houses.of_reachable valid reach)⟩

theorem Source.Lockstep.invariant (runnable : Runnable p image) {source : Source.Ending} {ip : Nat}
    {vm : Vm} (lockstep : Source.Lockstep p source (.unfinished ip vm)) :
    ∃ completed, Vm.Invariant image ip vm completed := by
  cases lockstep with
  | unfinished s placed sound =>
    obtain ⟨objects, sound⟩ := sound
    exact ⟨_, placed.invariant runnable sound⟩

def Ending.state? : Ending → Option (Nat × Vm)
  | .unfinished ip vm => some (ip, vm)
  | _ => none

theorem Ending.state?_bind_eq_some {α : Type} {e : Ending} {rest : Nat × Vm → Option α} {a : α} :
    (e.state? >>= rest) = some a ↔ ∃ ip vm, e = .unfinished ip vm ∧ rest (ip, vm) = some a := by
  cases e <;> simp [state?, bind]

/-- What the machine does in a semispace of 24 bytes if it runs `getter` a second time, for so many
instructions: it has to collect what the first run left. -/
def Session.getterAgain (steps : Nat) : Option (Image × Nat × Vm) := do
  let s ← (Session.create ⟨24, false, false⟩ .unbounded).toOption
  let image ← (link Program.getter).toOption
  let state ← (Vm.runFrom image steps image.entry ((s.execute image 30).2.vm.start image)).state?
  return (image, state)

theorem Session.getter_again {steps ip : Nat} {image : Image} {vm : Vm}
    (evaluated : getterAgain steps = some (image, ip, vm)) :
    ∃ s, Session.create ⟨24, false, false⟩ .unbounded = .ok s ∧
      (s.run Program.getter 30).2.Reached ∧ Runnable Program.getter image ∧
      Vm.runFrom image steps image.entry ((s.run Program.getter 30).2.vm.start image) =
        .unfinished ip vm := by
  obtain ⟨s, created, evaluated⟩ := toOption_bind_eq_some.mp evaluated
  obtain ⟨image', linked, evaluated⟩ := toOption_bind_eq_some.mp evaluated
  obtain ⟨ip', vm', here, evaluated⟩ := Ending.state?_bind_eq_some.mp evaluated
  cases evaluated
  obtain ⟨image', runnable⟩ := Source.getter_runnable
  have same := linked.symm.trans runnable.linked
  cases same
  rw [← run_of_linked linked] at here
  exact ⟨s, created, .rerun (.create created) runnable 30, runnable, here⟩

/-- Whenever a machine that runs programs one after another is about to execute an instruction, the
invariant holds. -/
theorem Session.Reached.keeps_invariant {s : Session} (reached : s.Reached) (runnable : Runnable p image)
    {steps ip : Nat} {vm : Vm}
    (here : Vm.runFrom image steps image.entry (s.vm.start image) = .unfinished ip vm) :
    ∃ completed, Vm.Invariant image ip vm completed := by
  have lockstep := Source.lockstep_start runnable reached.heap steps
  rw [here] at lockstep
  exact lockstep.invariant runnable

theorem getter_keeps_invariant :
    ∃ (s : Session) (image : Image) (vm : Vm), Session.create ⟨24, false, false⟩ .unbounded = .ok s ∧
      (s.run Program.getter 30).2.Reached ∧ Runnable Program.getter image ∧
      Vm.runFrom image 9 image.entry ((s.run Program.getter 30).2.vm.start image) =
        .unfinished 32 vm ∧
      vm.heap.cycles = 1 ∧ ∃ completed, Vm.Invariant image 32 vm completed := by
  have evaluated : (do
      let (_, ip, vm) ← Session.getterAgain 9
      return (ip, vm.heap.cycles)) = some (32, 1) := by
    rw [Session.getterAgain, link_eq]
    decide +kernel
  obtain ⟨⟨image, ip, vm⟩, again, evaluated⟩ := Option.bind_eq_some_iff.mp evaluated
  obtain ⟨rfl, cycles⟩ := Prod.mk.inj (Option.some.inj evaluated)
  obtain ⟨s, created, reached, runnable, here⟩ := Session.getter_again again
  exact ⟨s, image, vm, created, reached, runnable, here, cycles,
    Session.Reached.keeps_invariant reached runnable here⟩

end
end SlotVM
