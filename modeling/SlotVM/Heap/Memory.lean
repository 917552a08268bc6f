namespace SlotVM

/-- A word that was never written is zero; only the words up to the last one written are kept. -/
structure Memory where
  capacity : Nat
  cells : Array UInt64

namespace Memory

def zero (capacity : Nat) : Memory := ⟨capacity, #[]⟩

def get? (m : Memory) (i : Nat) : Option UInt64 :=
  if i < m.capacity then some (m.cells.getD i 0) else none

/-- Writes a word; outside the memory nothing changes. -/
def put (m : Memory) (i : Nat) (word : UInt64) : Memory :=
  if i < m.capacity then
    if i < m.cells.size then { m with cells := m.cells.setIfInBounds i word }
    else { m with cells := (m.cells ++ Array.replicate (i - m.cells.size) 0).push word }
  else m

def putAll (m : Memory) (i : Nat) : List UInt64 → Memory
  | [] => m
  | word :: words => (m.put i word).putAll (i + 1) words

def fill (m : Memory) (i : Nat) (word : UInt64) : Nat → Memory
  | 0 => m
  | count + 1 => (m.put i word).fill (i + 1) word count

def slice? (m : Memory) (i count : Nat) : Option (List UInt64) :=
  if i + count ≤ m.capacity then some ((List.range' i count).map (m.cells.getD · 0)) else none

theorem get?_put_same (m : Memory) (i : Nat) (word : UInt64) (inside : i < m.capacity) :
    (m.put i word).get? i = some word := by
  unfold put get?
  rw [if_pos inside]
  by_cases written : i < m.cells.size
  · simp [written, inside]
  · have size : i = m.cells.size + (i - m.cells.size) := by omega
    simp only [written, if_false, inside, if_true]
    rw [Array.getD_eq_getD_getElem?, Array.getElem?_push]
    simp [← size]

theorem get?_put_other (m : Memory) (i j : Nat) (word : UInt64) (apart : i ≠ j) :
    (m.put i word).get? j = m.get? j := by
  unfold put get?
  by_cases inside : i < m.capacity
  · rw [if_pos inside]
    by_cases written : i < m.cells.size
    · simp [written, apart]
    · simp only [written, if_false]
      rw [Array.getD_eq_getD_getElem?, Array.getD_eq_getD_getElem?, Array.getElem?_push,
        Array.getElem?_append]
      have size : m.cells.size + (i - m.cells.size) = i := by omega
      by_cases below : j < m.cells.size
      · have apart' : j ≠ i := fun h => apart h.symm
        simp [below, size, apart']
      · have apart' : j ≠ i := fun h => apart h.symm
        by_cases gap : j - m.cells.size < i - m.cells.size <;>
          simp [below, size, apart', gap]
  · rw [if_neg inside]

end Memory
end SlotVM
