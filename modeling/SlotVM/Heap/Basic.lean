import SlotVM.Config.Basic
import SlotVM.Crash
import SlotVM.Heap.Memory
import SlotVM.Value

namespace SlotVM

inductive Shape where
  | array (len : Nat)
  | object (index : Nat)
deriving DecidableEq

/-- Two semispaces in one memory, of which the one at `base` is filled up to `top`. An object is a header
word, a second word and its items or slots:

    array:  [0] [length] [item 0 ..]
    object: [1 + class index] [parent] [slot 0 ..] -/
structure Heap where
  memory : Memory
  semispace : Nat
  base : Nat
  top : Nat
  cycles : Nat
  bytesCopied : Nat

namespace Heap

def arrayTag : UInt64 := 0

/-- The most bytes that one piece of memory can have. -/
def maxReserve : Nat := 0x7FFFFFFFFFFFFFFF

def create (size : Nat) : Except ConfigError Heap :=
  let words := (size + 7) / 8
  if 16 * words ≤ maxReserve then .ok ⟨.zero (2 * words), 8 * words, 0, 0, 0, 0⟩
  else .error (.heapSize size)

def limit (h : Heap) : Nat := h.base + h.semispace

def used (h : Heap) : Nat := h.top - h.base

def inCurrentSpace (h : Heap) (v : Value) : Bool :=
  match v.addr? with
  | some addr => h.base ≤ addr && addr < h.top
  | none => false

def blockSize (fields : Nat) : Nat := 8 * (fields + 2)

/-- The bytes of an array, if a word can count them. -/
def arraySize? (len : Nat) : Option Nat :=
  if blockSize len < UInt64.size then some (blockSize len) else none

/-- The words of an instance. A word counts them, and the carry is lost. -/
def objectWords (nvars : Nat) : Nat := (nvars + 2) % UInt64.size

def objectSize (nvars : Nat) : Nat := 8 * objectWords nvars % UInt64.size

theorem arraySize?_of_lt {len : Nat} (small : blockSize len < UInt64.size) :
    arraySize? len = some (blockSize len) :=
  if_pos small

theorem objectWords_of_lt {nvars : Nat} (small : blockSize nvars < UInt64.size) :
    objectWords nvars = nvars + 2 := by
  apply Nat.mod_eq_of_lt
  unfold blockSize at small
  omega

theorem objectSize_of_lt {nvars : Nat} (small : blockSize nvars < UInt64.size) :
    objectSize nvars = blockSize nvars := by
  rw [objectSize, objectWords_of_lt small]
  exact Nat.mod_eq_of_lt small

def fits (h : Heap) (size : Nat) : Bool := h.top + size ≤ h.limit

def pushArray (h : Heap) (len : Nat) (init : Value) : Value × Heap :=
  let place := h.top / 8
  let memory := (h.memory.put place arrayTag).put (place + 1) len.toUInt64
  (.ofAddr h.top,
    { h with memory := memory.fill (place + 2) init.raw len, top := h.top + blockSize len })

def pushObject (h : Heap) (index nvars : Nat) : Value × Heap :=
  let place := h.top / 8
  let memory := h.memory.put place (1 + index.toUInt64)
  (.ofAddr h.top,
    { h with
      memory := memory.fill (place + 1) Value.null.raw (objectWords nvars - 1)
      top := h.top + objectSize nvars })

theorem pushObject_of_lt (h : Heap) (index : Nat) {nvars : Nat}
    (small : blockSize nvars < UInt64.size) : h.pushObject index nvars = (.ofAddr h.top,
      { h with
        memory := (h.memory.put (h.top / 8) (1 + index.toUInt64)).fill (h.top / 8 + 1)
          Value.null.raw (nvars + 1)
        top := h.top + blockSize nvars }) := by
  rw [pushObject, objectSize_of_lt small, objectWords_of_lt small]
  rfl

def allocArray? (h : Heap) (len : Nat) (init : Value) : Option (Value × Heap) := do
  let size ← arraySize? len
  if h.fits size then some (h.pushArray len init) else none

/-- A new instance, if its size fits. A size that lost its carry can fit where the words do not. -/
def allocObject? (h : Heap) (index nvars : Nat) : Except Crash (Option (Value × Heap)) :=
  if h.fits (objectSize nvars) then
    if h.top / 8 + max 1 (objectWords nvars) ≤ h.memory.capacity then
      .ok (some (h.pushObject index nvars))
    else .error .memory
  else .ok none

def load (h : Heap) (addr : Nat) : Except Crash UInt64 :=
  match h.memory.get? (addr / 8) with
  | some word => .ok word
  | none => .error .memory

def store (h : Heap) (addr : Nat) (word : UInt64) : Except Crash Heap :=
  if addr / 8 < h.memory.capacity then .ok { h with memory := h.memory.put (addr / 8) word }
  else .error .memory

def wordAddr (v : Value) (n : Nat) : Except Crash Nat :=
  match v.addr? with
  | some addr => .ok (addr + 8 * n)
  | none => .error .memory

def loadWord (h : Heap) (v : Value) (n : Nat) : Except Crash UInt64 := do
  h.load (← wordAddr v n)

def storeWord (h : Heap) (v : Value) (n : Nat) (word : UInt64) : Except Crash Heap := do
  h.store (← wordAddr v n) word

def shape? (h : Heap) (v : Value) : Except Crash (Option Shape) :=
  match v.addr? with
  | none => .ok none
  | some addr => do
    let header ← h.load addr
    if header = arrayTag then return some (.array (← h.load (addr + 8)).toNat)
    else return some (.object (header.toNat - 1))

def arrayLen (h : Heap) (array : Value) : Except Crash Nat := do
  return (← h.loadWord array 1).toNat

def arrayGet (h : Heap) (array : Value) (index : Nat) : Except Crash Value := do
  return ⟨← h.loadWord array (2 + index)⟩

def arraySet (h : Heap) (array : Value) (index : Nat) (value : Value) : Except Crash Heap :=
  h.storeWord array (2 + index) value.raw

def classOf (h : Heap) (object : Value) : Except Crash Nat := do
  return ((← h.loadWord object 0) - 1).toNat

def parent (h : Heap) (object : Value) : Except Crash Value := do
  return ⟨← h.loadWord object 1⟩

def setParent (h : Heap) (object value : Value) : Except Crash Heap :=
  h.storeWord object 1 value.raw

def slot (h : Heap) (object : Value) (index : Nat) : Except Crash Value := do
  return ⟨← h.loadWord object (2 + index)⟩

def setSlot (h : Heap) (object : Value) (index : Nat) (value : Value) : Except Crash Heap :=
  h.storeWord object (2 + index) value.raw

def setSlots (h : Heap) (object : Value) (index : Nat) : List Value → Except Crash Heap
  | [] => .ok h
  | value :: values =>
    match h.setSlot object index value with
    | .error c => .error c
    | .ok h => h.setSlots object (index + 1) values

end Heap
end SlotVM
