import SlotVM.ClassTable
import SlotVM.Heap.Basic
import SlotVM.Machine.Fault

namespace SlotVM

def Value.typeName (v : Value) : Except Crash TypeName :=
  match v.kind? with
  | some .int => .ok .int
  | some .null => .ok .null
  | some .object => .ok .object
  | none => .error .valueTag

/-- What the classes of a program have under a name. -/
structure Selector (τ : Type) where
  name : String
  declares : Nat → Option (Member τ)

namespace Heap

variable {τ : Type}

def typeName (h : Heap) (v : Value) : Except Crash TypeName := do
  match ← h.shape? v with
  | some (.array _) => .ok .array
  | some (.object _) => .ok .object
  | none => v.typeName

def wrongType {α : Type} (h : Heap) (usage : Usage) (v : Value) : Except Fault α := do
  .error (.error (.typeMismatch usage (← orCrash (h.typeName v))))

/-- The nearest object on a chain of parents whose class has the slot, and what the slot holds. There
are no more objects than words of memory, so `fuel` words suffice for a chain that ends. -/
def lookupFrom (h : Heap) (slot : Selector τ) : Nat → Value → Except Fault (Value × Member τ)
  | 0, _ => .error (.crash .parentCycle)
  | fuel + 1, object =>
    match h.shape? object with
    | .error c => .error (.crash c)
    | .ok (some (.object index)) =>
      match slot.declares index with
      | some member => .ok (object, member)
      | none =>
        match h.parent object with
        | .error c => .error (.crash c)
        | .ok parent =>
          if parent.isNull then .error (.error (.slotNotFound slot.name))
          else lookupFrom h slot fuel parent
    | .ok _ => h.wrongType .slotLookup object

def lookup (h : Heap) (receiver : Value) (slot : Selector τ) : Except Fault (Value × Member τ) :=
  if receiver.isNull then .error (.error (.nullReceiver slot.name))
  else h.lookupFrom slot (h.memory.capacity + 1) receiver

def findVar (h : Heap) (receiver : Value) (slot : Selector τ) : Except Fault (Value × Nat) := do
  match ← h.lookup receiver slot with
  | (object, .var index) => return (object, index)
  | (_, .code _) => .error (.error (.notAVariable slot.name))

def findMethod (h : Heap) (receiver : Value) (slot : Selector τ) : Except Fault τ := do
  match ← h.lookup receiver slot with
  | (_, .code target) => return target
  | (_, .var _) => .error (.error (.notAMethod slot.name))

end Heap
end SlotVM
