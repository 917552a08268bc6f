import SlotVM.ClassTable
import SlotVM.Frames
import SlotVM.Heap.Basic

namespace SlotVM

structure Roots where
  stack : Array Value
  frames : Frames
  globals : Array Value

structure Extent where
  words : Nat
  firstField : Nat
deriving DecidableEq

namespace Heap

def forwardTag : UInt64 := 0xFFFFFFFFFFFFFFFF

/-- The extent of the object at an address. The parent of an instance is traced with its slots. -/
def extent (h : Heap) (classes : ClassTable) (addr : Nat) : Except Crash Extent := do
  let header ← h.load addr
  if header = arrayTag then return ⟨(← h.load (addr + 8)).toNat + 2, 2⟩
  else return ⟨classes.nvars (header.toNat - 1) + 2, 1⟩

def evacuate (h : Heap) (addr : Nat) (block : List UInt64) : Value × Heap :=
  let moved := Value.ofAddr h.top
  let memory := h.memory.putAll (h.top / 8) block
  let memory := (memory.put (addr / 8) forwardTag).put (addr / 8 + 1) moved.raw
  let size := 8 * block.length
  (moved, { h with memory := memory, top := h.top + size, bytesCopied := h.bytesCopied + size })

/-- The new reference of a value; its object is copied unless it was before. Other values stay. -/
def forward (h : Heap) (classes : ClassTable) (v : Value) : Except Crash (Value × Heap) :=
  match v.addr? with
  | none => .ok (v, h)
  | some addr => do
    if (← h.load addr) = forwardTag then return (⟨← h.load (addr + 8)⟩, h)
    else
      let extent ← h.extent classes addr
      match h.memory.slice? (addr / 8) extent.words with
      | none => .error .memory
      | some block =>
        if h.top / 8 + extent.words ≤ h.memory.capacity then return h.evacuate addr block
        else .error .memory

def forwardAll (classes : ClassTable) :
    Heap → List Value → List Value → Except Crash (List Value × Heap)
  | h, seen, [] => .ok (seen.reverse, h)
  | h, seen, v :: vs =>
    match h.forward classes v with
    | .error c => .error c
    | .ok (v, h) => forwardAll classes h (v :: seen) vs

def forwardFields (classes : ClassTable) : Nat → Nat → Heap → Except Crash Heap
  | 0, _, h => .ok h
  | count + 1, addr, h =>
    match h.load addr with
    | .error c => .error c
    | .ok word =>
      match h.forward classes ⟨word⟩ with
      | .error c => .error c
      | .ok (v, h) =>
        match h.store addr v.raw with
        | .error c => .error c
        | .ok h => forwardFields classes count (addr + 8) h

/-- Scans the copied objects from an address on. Each has a word at least, so `fuel` words of memory
suffice. -/
def scan (classes : ClassTable) : Nat → Nat → Heap → Except Crash Heap
  | 0, _, _ => .error .memory
  | fuel + 1, addr, h =>
    if addr < h.top then
      match h.extent classes addr with
      | .error c => .error c
      | .ok extent =>
        match forwardFields classes (extent.words - extent.firstField)
            (addr + 8 * extent.firstField) h with
        | .error c => .error c
        | .ok h => scan classes fuel (addr + 8 * extent.words) h
    else .ok h

def otherBase (h : Heap) : Nat := if h.base = 0 then h.semispace else 0

def flip (h : Heap) : Heap := { h with base := h.otherBase, top := h.otherBase }

def collect (h : Heap) (classes : ClassTable) (roots : Roots) : Except Crash (Roots × Heap) := do
  let (stack, h) ← forwardAll classes h.flip [] roots.stack.toList
  match roots.frames.roots? with
  | none => .error .frameWord
  | some frameRoots =>
    let (frameRoots, h) ← forwardAll classes h [] frameRoots
    match roots.frames.withRoots? frameRoots with
    | none => .error .frameWord
    | some frames =>
      let (globals, h) ← forwardAll classes h [] roots.globals.toList
      let h ← scan classes (h.memory.capacity + 1) h.base h
      return (⟨stack.toArray, frames, globals.toArray⟩, { h with cycles := h.cycles + 1 })

end Heap
end SlotVM
