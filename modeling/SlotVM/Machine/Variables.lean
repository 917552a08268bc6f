import SlotVM.Machine.Slots
import SlotVM.Machine.State

namespace SlotVM

namespace Store

variable {τ : Type}

def getSlot (s : Store) (slot : Selector τ) : Effect :=
  match s.peek? 0 with
  | none => .error .stackUnderflow s
  | some receiver =>
    let s := s.dropTop 1
    match s.heap.findVar receiver slot with
    | .error f => .ofFault f s
    | .ok (object, index) =>
      match s.heap.slot object index with
      | .error c => .crash c
      | .ok v => .done (s.push v)

/-- Stores the top operand into a variable of the receiver below it, and leaves the operand. -/
def setSlot (s : Store) (slot : Selector τ) : Effect :=
  match s.peek? 0, s.peek? 1 with
  | none, _ => .error .stackUnderflow s
  | some _, none => .error .stackUnderflow (s.dropTop 1)
  | some v, some receiver =>
    let s := s.dropTop 2
    match s.heap.findVar receiver slot with
    | .error f => .ofFault f s
    | .ok (object, index) =>
      match s.heap.setSlot object index v with
      | .error c => .crash c
      | .ok heap => .done ({ s with heap := heap }.push v)

def getGlobal (s : Store) (index : Nat) : Effect :=
  match s.globals[index]? with
  | none => .crash .globalSlot
  | some v => .done (s.push v)

def setGlobal (s : Store) (index : Nat) : Effect :=
  match s.peek? 0 with
  | none => .error .stackUnderflow s
  | some v =>
    if index < s.globals.size then
      .done { s with globals := s.globals.setIfInBounds index v }
    else .crash .globalSlot

def drop (s : Store) : Effect :=
  if s.stack.isEmpty then .error .stackUnderflow s else .done (s.dropTop 1)

end Store

namespace Vm

def getLocal (vm : Vm) (index next : Nat) : Outcome :=
  match vm.frames.local? index with
  | none => .crash .localSlot
  | some v => .next next (vm.push v)

def setLocal (vm : Vm) (index next : Nat) : Outcome :=
  match vm.peek? 0 with
  | none => .error .stackUnderflow vm
  | some v =>
    match vm.frames.setLocal? index v with
    | none => .crash .localSlot
    | some frames => .next next { vm with frames := frames }

end Vm
end SlotVM
