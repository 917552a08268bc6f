import SlotVM.Machine.Slots
import SlotVM.Machine.State

namespace SlotVM

namespace Store

def buildArray (len : Nat) (s : Store) : Effect :=
  match s.peek? 0 with
  | none => .error .stackUnderflow s
  | some init =>
    let (array, heap) := s.heap.pushArray len init
    .done ({ s with heap := heap }.dropTop 2 |>.push array)

def arrayLength (s : Store) : Except Fault Nat :=
  match s.peek? 1 with
  | none => .error (.error .stackUnderflow)
  | some length =>
    match length.toInt?.filter (0 ≤ ·) with
    | none => do .error (.error (.typeMismatch .arrayLength (← orCrash length.typeName)))
    | some n => .ok n.toNat

theorem arrayLength_lt {s : Store} {len : Nat} (measured : s.arrayLength = .ok len) :
    Heap.blockSize len < UInt64.size := by
  unfold arrayLength at measured
  cases peeked : s.peek? 1 with
  | none => simp [peeked] at measured
  | some length =>
    simp only [peeked] at measured
    split at measured
    · cases name : length.typeName <;> simp [name, orCrash, bind, Except.bind] at measured
    · next n found =>
      cases measured
      obtain ⟨int, -⟩ := Option.filter_eq_some_iff.mp found
      unfold Value.toInt? at int
      split at int
      · have high := length.raw.toInt64.toInt_lt
        cases int
        unfold Heap.blockSize UInt64.size
        omega
      · cases int

def fillObject (h : Heap) (index : Nat) (parent : Value) (slots : List Value) :
    Except Crash (Value × Heap) := do
  let (object, h) := h.pushObject index slots.length
  let h ← h.setSlots object 0 slots
  return (object, ← h.setParent object parent)

def buildObject (nvars index : Nat) (s : Store) : Effect :=
  match s.peek? nvars with
  | none => .error .stackUnderflow s
  | some parent =>
    match fillObject s.heap index parent (s.top nvars).toList with
    | .error c => .crash c
    | .ok (object, heap) => .done ({ s with heap := heap }.dropTop (nvars + 1) |>.push object)

end Store

namespace Vm

/-- Builds an object of `size` bytes, after a collection if the semispace has too little left. The
operands stay on the stack meanwhile, so that a collection keeps them. -/
def allocate (vm : Vm) (classes : ClassTable) (size : Nat) (build : Store → Effect) (next : Nat) :
    Outcome :=
  if vm.heap.fits size then vm.after next (build vm.store)
  else
    match vm.collect classes with
    | .error c => .crash c
    | .ok vm =>
      if vm.heap.fits size then vm.after next (build vm.store) else .error (.outOfMemory size) vm

/-- An array of the length and initial item on top of the stack. More bytes than a word can count are
the most that it can. -/
def newArray (vm : Vm) (classes : ClassTable) (next : Nat) : Outcome :=
  match vm.store.arrayLength with
  | .error f => vm.after next (.ofFault f vm.store)
  | .ok len =>
    let size := (Heap.arraySize? len).getD 0xFFFFFFFFFFFFFFFF
    vm.allocate classes size (Store.buildArray len) next

def newObject (vm : Vm) (classes : ClassTable) (nvars index next : Nat) : Outcome :=
  if vm.stack.size < nvars + 1 then .error .stackUnderflow vm
  else vm.allocate classes (Heap.objectSize nvars) (Store.buildObject nvars index) next

section
variable {vm : Vm} (classes : ClassTable) (next : Nat)

theorem newArray_of_length {len : Nat} (measured : vm.store.arrayLength = .ok len) :
    vm.newArray classes next =
      vm.allocate classes (Heap.blockSize len) (Store.buildArray len) next := by
  simp only [newArray, measured]
  rw [Heap.arraySize?_of_lt (Store.arrayLength_lt measured), Option.getD_some]

theorem newObject_of_enough {nvars : Nat} (small : nvars < UInt32.size) (index : Nat)
    (enough : nvars + 1 ≤ vm.stack.size) :
    vm.newObject classes nvars index next =
      vm.allocate classes (Heap.blockSize nvars) (Store.buildObject nvars index) next := by
  have sized : Heap.blockSize nvars < UInt64.size := by
    unfold Heap.blockSize UInt64.size
    unfold UInt32.size at small
    omega
  rw [newObject, if_neg (by omega), Heap.objectSize_of_lt sized]

end
end Vm
end SlotVM
