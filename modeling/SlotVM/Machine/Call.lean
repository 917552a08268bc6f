import SlotVM.Machine.Builtin
import SlotVM.Machine.Slots
import SlotVM.Machine.State

namespace SlotVM

namespace Store

/-- The result of an integer built-in. An integer equals no value of another type. -/
def intResult (h : Heap) (op : IntOp) (a : Int) (rhs : Value) : Except Fault Value :=
  match rhs.toInt? with
  | some b =>
    match op.apply a b with
    | .ok v => .ok v
    | .error e => .error (.error e)
  | none => if op = .eq then .ok .null else h.wrongType .integerOperand rhs

def callInt (s : Store) (name : String) (arity : Nat) (a : Int) : Effect :=
  match IntOp.ofName? name with
  | none => .error (.unknownBuiltin name .int) s
  | some op =>
    if arity = 2 then
      match s.peek? 0 with
      | none => .error .stackUnderflow s
      | some rhs =>
        let s := s.dropTop 2
        match intResult s.heap op a rhs with
        | .error f => .ofFault f s
        | .ok v => .done (s.push v)
    else .error (.builtinArity name 2 arity) s

def indexOperand (h : Heap) (v : Value) (length : Nat) : Except Fault Nat :=
  match v.toInt? with
  | none => h.wrongType .arrayIndex v
  | some index =>
    match checkIndex index length with
    | .ok i => .ok i
    | .error e => .error (.error e)

def arrayGet (s : Store) (array : Value) (length : Nat) : Effect :=
  match s.peek? 0 with
  | none => .error .stackUnderflow s
  | some index =>
    let s := s.dropTop 2
    match indexOperand s.heap index length with
    | .error f => .ofFault f s
    | .ok i =>
      match s.heap.arrayGet array i with
      | .error c => .crash c
      | .ok v => .done (s.push v)

def arraySet (s : Store) (array : Value) (length : Nat) : Effect :=
  match s.peek? 0, s.peek? 1 with
  | some v, some index =>
    let s := s.dropTop 3
    match indexOperand s.heap index length with
    | .error f => .ofFault f s
    | .ok i =>
      match s.heap.arraySet array i v with
      | .error c => .crash c
      | .ok heap => .done ({ s with heap := heap }.push .null)
  | _, _ => .error .stackUnderflow s

def callArray (s : Store) (name : String) (arity : Nat) (array : Value) (length : Nat) : Effect :=
  match ArrayOp.ofName? name with
  | none => .error (.unknownBuiltin name .array) s
  | some op =>
    if arity = op.arity then
      match op with
      | .length => .done (s.dropTop 1 |>.push (.ofInt length))
      | .get => s.arrayGet array length
      | .set => s.arraySet array length
    else .error (.builtinArity name op.arity arity) s

inductive Called (τ : Type) where
  | effect (e : Effect)
  | enter (target : τ)

/-- Calls a slot of the receiver, the deepest of `arity` operands: a built-in of an integer or an
array, or a method of an object. -/
def callSlot {τ : Type} (s : Store) (arity : Nat) (slot : Selector τ) : Called τ :=
  if arity = 0 then .effect (.error .stackUnderflow s)
  else
    match s.peek? (arity - 1) with
    | none => .effect (.error .stackUnderflow s)
    | some receiver =>
      match receiver.kind? with
      | none => .effect (.crash .valueTag)
      | some .null => .effect (.error (.nullReceiver slot.name) s)
      | some .int => .effect (s.callInt slot.name arity (receiver.toInt?.getD 0))
      | some .object =>
        match s.heap.shape? receiver with
        | .error c => .effect (.crash c)
        | .ok (some (.array length)) => .effect (s.callArray slot.name arity receiver length)
        | .ok _ =>
          match s.heap.findMethod receiver slot with
          | .error f => .effect (.ofFault f s)
          | .ok target => .enter target

end Store

namespace Vm

def jump (vm : Vm) (target next : Nat) : Outcome :=
  if vm.frames.size + 2 ≤ Frames.capacity then
    .next target { vm with frames := vm.frames.pushCall next }
  else .crash .frameMemory

def callSlot (vm : Vm) (arity : Nat) (slot : Selector Nat) (next : Nat) : Outcome :=
  match vm.store.callSlot arity slot with
  | .effect e => vm.after next e
  | .enter target => vm.jump target next

def enter (vm : Vm) (nargs nlocals next : Nat) : Outcome :=
  if vm.stack.size < nargs then .error .stackUnderflow vm
  else if vm.frames.size + nargs + nlocals ≤ Frames.capacity then
    match vm.frames.enter? (vm.store.top nargs) nlocals with
    | none => .crash .frameWord
    | some frames => .next next ({ vm with frames := frames }.dropTop nargs)
  else .crash .frameMemory

def ret (vm : Vm) : Outcome :=
  match vm.frames.ret? with
  | none => .crash .frameWord
  | some (.halt, frames) => .halt { vm with frames := frames }
  | some (.resume ip, frames) => .next ip { vm with frames := frames }

end Vm
end SlotVM
