import SlotVM.Proofs.Machine.Framing
import SlotVM.Proofs.Machine.Pairing
import SlotVM.Proofs.Session.Invariant

namespace SlotVM

/-- The machine is about to call a method: the deepest of `arity` operands is an object, and the name
leads from it to the method at `target`. -/
structure Vm.CallsMethod (image : Image) (vm : Vm) (ip next : Nat) (arity : UInt32) (name : UInt64)
    (receiver : Value) (index target : Nat) : Prop where
  decoded : image.code.decode ip = .ok (.callSlot arity name, next)
  given : 0 < arity.toNat
  operand : vm.peek? (arity.toNat - 1) = some receiver
  object : vm.heap.shape? receiver = .ok (some (.object index))
  found : vm.heap.findMethod receiver (image.selector (.ofOperand name)) = .ok target

instance (image : Image) (vm : Vm) (ip next : Nat) (arity : UInt32) (name : UInt64)
    (receiver : Value) (index target : Nat) :
    Decidable (vm.CallsMethod image ip next arity name receiver index target) :=
  decidable_of_iff
    (image.code.decode ip = .ok (.callSlot arity name, next) ∧ 0 < arity.toNat ∧
      vm.peek? (arity.toNat - 1) = some receiver ∧
      vm.heap.shape? receiver = .ok (some (.object index)) ∧
      vm.heap.findMethod receiver (image.selector (.ofOperand name)) = .ok target)
    ⟨fun ⟨decoded, given, operand, object, found⟩ => ⟨decoded, given, operand, object, found⟩,
      fun call => ⟨call.decoded, call.given, call.operand, call.object, call.found⟩⟩

theorem Store.callSlot_of_method {s : Store} {arity index target : Nat} {slot : Selector Nat}
    {receiver : Value} (given : 0 < arity) (operand : s.peek? (arity - 1) = some receiver)
    (object : s.heap.shape? receiver = .ok (some (.object index)))
    (found : s.heap.findMethod receiver slot = .ok target) :
    s.callSlot arity slot = .enter target := by
  have kind : receiver.kind? = some .object := by
    cases ref : receiver.addr? with
    | none => simp [Heap.shape?, ref] at object
    | some addr => simp [Value.kind?, Value.tag_of_addr? ref]
  have some_operand : arity ≠ 0 := by omega
  simp only [Store.callSlot, some_operand, if_false, operand, kind, object, found]

section
variable {p : Program} {image : Image}

theorem method_of_number {members : List UInt64} {decls : List SlotDecl}
    (declared : List.Forall₂ (Declared p image) members decls) {next offset : Nat} {slot : Slot}
    (member : slot ∈ ClassLayout.number next decls) (kind : slot.kind = .code offset) :
    ∃ method m, p.method? method = some m ∧ p.start method = offset := by
  induction declared generalizing next with
  | nil => cases member
  | cons here _ ih =>
    cases here with
    | var stored string named =>
      rcases List.mem_cons.mp member with rfl | later
      · cases kind
      · exact ih later
    | method stored string named =>
      rcases List.mem_cons.mp member with rfl | later
      · cases kind
        exact ⟨_, _, stored, rfl⟩
      · exact ih later

theorem Linked.method_of_declares (linked : Linked p image) {symbol : Symbol} {index target : Nat}
    (declares : (image.selector symbol).declares index = some (.code target)) :
    ∃ method m, p.method? method = some m ∧ p.start method = target := by
  obtain ⟨slot, found, kind⟩ := Option.map_eq_some_iff.mp declares
  obtain ⟨layout, stored, found⟩ := Option.bind_eq_some_iff.mp found
  rcases linked.class_pair index with ⟨-, none⟩ | ⟨members, decls, -, known, declared⟩
  · rw [stored] at none
    cases none
  · rw [stored] at known
    cases known
    exact method_of_number declared (List.mem_of_find?_eq_some found) kind

/-- A call that finds a method of an object leaves it to the frame of the method, in any state of the
machine. The run ends there when the operands or the memory for frames do not suffice; otherwise the
frame takes the operands that the method declares. They are the receiver and the arguments, in order
and without one more or less, when the call passes as many. -/
theorem Vm.callSlot_frames_operands (linked : Linked p image) {vm : Vm} {ip next index target : Nat}
    {arity : UInt32} {name : UInt64} {receiver : Value}
    (call : vm.CallsMethod image ip next arity name receiver index target) :
    ∃ method m, p.method? method = some m ∧ p.start method = target ∧
      (vm.stack.size < m.nargs.toNat ∧ m.nargs ≠ arity ∧
          (∃ last, Vm.runFrom image 2 ip vm = .error .stackUnderflow last) ∨
        vm.frames.size + 2 + m.nargs.toNat + m.nlocals.toNat > Frames.capacity ∧
          Vm.runFrom image 2 ip vm = .crash .frameMemory ∨
        ∃ after, Vm.runFrom image 2 ip vm = .unfinished (p.place ⟨method, 0⟩) after ∧
          vm.Framed after m.nargs.toNat m.nlocals.toNat ∧
          (m.nargs = arity → after.frames.local? 0 = some receiver)) := by
  obtain ⟨slot_index, declares⟩ := Heap.declares_of_findMethod call.found
  obtain ⟨method, m, stored, start⟩ := linked.method_of_declares declares
  have entered := linked.decode_start stored
  rw [start] at entered
  have called := Store.callSlot_of_method call.given call.operand call.object call.found
  have first : vm.step image ip = vm.jump target next := by
    simp only [Vm.step, call.decoded, Vm.exec, Vm.callSlot, called]
  have second (vm : Vm) : vm.step image target =
      vm.enter m.nargs.toNat m.nlocals.toNat (p.place ⟨method, 0⟩) := by
    simp only [Vm.step, entered, Vm.exec]
  obtain ⟨enough, at_receiver⟩ := Store.peek?_eq_some call.operand
  refine ⟨method, m, stored, start, ?_⟩
  rcases vm.jump_enter m.nargs.toNat m.nlocals.toNat target next (p.place ⟨method, 0⟩) with
    ⟨full, crashed⟩ | ⟨called, jumped, short | full | ⟨after, made, framed⟩⟩
  · refine .inr (.inl ⟨by omega, ?_⟩)
    simp only [Vm.runFrom, first, crashed]
  · refine .inl ⟨short.1, ?_, called, ?_⟩
    · intro same
      have few := short.1
      rw [same] at few
      change arity.toNat - 1 < vm.stack.size at enough
      omega
    · simp only [Vm.runFrom, first, jumped, second, short.2]
  · refine .inr (.inl ⟨full.1, ?_⟩)
    simp only [Vm.runFrom, first, jumped, second, full.2]
  · refine .inr (.inr ⟨after, ?_, framed, ?_⟩)
    · simp only [Vm.runFrom, first, jumped, second, made]
    · intro same
      have deepest := framed.arguments 0 (by rw [same]; exact call.given)
      rw [deepest, same, Nat.add_zero, ← at_receiver, Nat.sub_add_cancel call.given]
      rfl

end

/-- The method `pick` takes its receiver and returns it. Main calls it as it should, and then with an
argument that it does not take. -/
def Program.pick : Program where
  values := #[.str "main", .str "pick", .null, .int 5, .method ⟨1, 1, 1, [.getLocal 0, .ret]⟩,
    .classDef [4],
    .method ⟨0, 0, 0, [.lit 2, .object 5, .callSlot 1 1, .lit 3, .callSlot 1 2, .ret]⟩]
  slots := []
  entry := 6

theorem Program.pick_complete : Program.pick.Complete := by
  intro c member m same
  subst same
  simp only [Program.pick, List.mem_cons, reduceCtorEq, Constant.method.injEq, false_or,
    List.not_mem_nil, or_false] at member
  rcases member with rfl | rfl
  · exact ⟨_, rfl, rfl⟩
  · exact ⟨_, rfl, rfl⟩

theorem Program.pick_calls :
    ∃ s image vm before vm' after, Session.create ⟨24, false, false⟩ .unbounded = .ok s ∧
      Runnable Program.pick image ∧
      Vm.runFrom image 3 image.entry (s.vm.start image) = .unfinished 44 vm ∧
      vm.CallsMethod image 44 64 1 0 ⟨1⟩ 0 0 ∧
      Vm.runFrom image 2 44 vm = .unfinished 12 before ∧
      Vm.runFrom image 8 image.entry (s.vm.start image) = .unfinished 72 vm' ∧
      vm'.CallsMethod image 72 88 2 0 ⟨1⟩ 0 0 ∧
      Vm.runFrom image 2 72 vm' = .unfinished 12 after ∧
      after.stack = #[⟨1⟩] ∧ after.frames.local? 0 = some (.ofInt 5) := by
  have evaluated : (do
      let s ← (Session.create ⟨24, false, false⟩ .unbounded).toOption
      let image ← (link Program.pick).toOption
      let first ← (Vm.runFrom image 3 image.entry (s.vm.start image)).state?
      let middle ← (Vm.runFrom image 2 first.1 first.2).state?
      let second ← (Vm.runFrom image 8 image.entry (s.vm.start image)).state?
      let last ← (Vm.runFrom image 2 second.1 second.2).state?
      return decide (image.code.size = 89 ∧
        first.1 = 44 ∧ first.2.CallsMethod image 44 64 1 0 ⟨1⟩ 0 0 ∧ middle.1 = 12 ∧
        second.1 = 72 ∧ second.2.CallsMethod image 72 88 2 0 ⟨1⟩ 0 0 ∧
        last.1 = 12 ∧ last.2.stack = #[⟨1⟩] ∧ last.2.frames.local? 0 = some (.ofInt 5))) =
      some true := by
    rw [link_eq]
    decide +kernel
  obtain ⟨s, created, evaluated⟩ := toOption_bind_eq_some.mp evaluated
  obtain ⟨image, linked, evaluated⟩ := toOption_bind_eq_some.mp evaluated
  obtain ⟨ip, vm, first, evaluated⟩ := Ending.state?_bind_eq_some.mp evaluated
  obtain ⟨mid, before, middle, evaluated⟩ := Ending.state?_bind_eq_some.mp evaluated
  obtain ⟨ip', vm', second, evaluated⟩ := Ending.state?_bind_eq_some.mp evaluated
  obtain ⟨ip'', after, last, evaluated⟩ := Ending.state?_bind_eq_some.mp evaluated
  obtain ⟨size, at_first, call, at_middle, at_second, call', at_last, stack, frame⟩ :=
    of_decide_eq_true (Option.some.inj evaluated)
  subst at_first at_middle at_second at_last
  have runnable : Runnable Program.pick image :=
    ⟨linked, ⟨by decide, by decide, by decide⟩, Program.pick_complete, by rw [size]; decide⟩
  exact ⟨s, image, vm, before, vm', after, created, runnable, first, call, middle, second, call',
    last, stack, frame⟩

theorem Vm.pick_frames_operands :
    ∃ image vm after, Runnable Program.pick image ∧ vm.CallsMethod image 44 64 1 0 ⟨1⟩ 0 0 ∧
      Vm.runFrom image 2 44 vm = .unfinished 12 after ∧
      ∃ method m, Program.pick.method? method = some m ∧ Program.pick.start method = 0 ∧
        vm.Framed after m.nargs.toNat m.nlocals.toNat ∧
        (m.nargs = 1 → after.frames.local? 0 = some ⟨1⟩) := by
  obtain ⟨-, image, vm, before, -, -, -, runnable, -, call, entered, -⟩ := Program.pick_calls
  obtain ⟨method, m, stored, start, ended⟩ := Vm.callSlot_frames_operands runnable.meets call
  rw [entered] at ended
  rcases ended with ⟨-, -, last, ended⟩ | ⟨-, ended⟩ | ⟨after, ended, framed, receives⟩
  · cases ended
  · cases ended
  · obtain ⟨-, rfl⟩ := Ending.unfinished.inj ended
    exact ⟨image, vm, before, runnable, call, entered, method, m, stored, start, framed, receives⟩

/-- A call that passes one operand more than the method declares: the frame takes the argument for
the receiver, which stays behind among the operands. -/
theorem Session.callSlot_drops_receiver :
    ∃ s image vm after, Session.create ⟨24, false, false⟩ .unbounded = .ok s ∧ s.Reached ∧
      Runnable Program.pick image ∧
      Vm.runFrom image 8 image.entry (s.vm.start image) = .unfinished 72 vm ∧
      vm.CallsMethod image 72 88 2 0 ⟨1⟩ 0 0 ∧
      Vm.runFrom image 2 72 vm = .unfinished 12 after ∧
      after.frames.local? 0 = some (.ofInt 5) ∧ after.frames.local? 0 ≠ some ⟨1⟩ ∧
      after.stack = #[⟨1⟩] := by
  obtain ⟨s, image, -, -, vm, after, created, runnable, -, -, -, second, call, last, stack,
    argument⟩ := Program.pick_calls
  have other : after.frames.local? 0 ≠ some ⟨1⟩ := by
    rw [argument]
    decide
  exact ⟨s, image, vm, after, created, .create created, runnable, second, call, last, argument,
    other, stack⟩

end SlotVM
