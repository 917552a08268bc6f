import SlotVM.Heap.Collector
import SlotVM.Proofs.Heap.Memory
import SlotVM.Proofs.Value

namespace SlotVM

namespace Heap

/-- The semispaces fill the memory, one of them is in use up to `top`, and every address has a
reference. -/
structure WellFormed (h : Heap) : Prop where
  semispace_aligned : 8 ∣ h.semispace
  capacity : 8 * h.memory.capacity = 2 * h.semispace
  addressable : 2 * h.semispace ≤ 2 ^ 64
  base : h.base = 0 ∨ h.base = h.semispace
  base_le_top : h.base ≤ h.top
  top_le_limit : h.top ≤ h.limit
  top_aligned : 8 ∣ h.top

theorem create_wellFormed {size : Nat} {h : Heap} (created : create size = .ok h) :
    h.WellFormed := by
  unfold create at created
  simp only at created
  split at created
  · rename_i small
    unfold maxReserve at small
    cases created
    refine ⟨?_, ?_, ?_, .inl rfl, ?_, ?_, ?_⟩ <;> simp only [limit, Memory.zero] <;> omega
  · cases created

def wordAt (h : Heap) (addr n : Nat) : UInt64 := h.memory.word (addr / 8 + n)

def extentAt (h : Heap) (classes : ClassTable) (addr : Nat) : Extent :=
  if h.wordAt addr 0 = arrayTag then ⟨(h.wordAt addr 1).toNat + 2, 2⟩
  else ⟨classes.nvars ((h.wordAt addr 0).toNat - 1) + 2, 1⟩

def wordsAt (h : Heap) (classes : ClassTable) (addr : Nat) : Nat := (h.extentAt classes addr).words

def sizeAt (h : Heap) (classes : ClassTable) (addr : Nat) : Nat := 8 * h.wordsAt classes addr

/-- The traced values of the object at an address: the items of an array, the parent and the slots of
an instance. -/
def fieldsAt (h : Heap) (classes : ClassTable) (addr : Nat) : List Value :=
  let extent := h.extentAt classes addr
  (List.range' extent.firstField (extent.words - extent.firstField)).map
    fun n => ⟨h.wordAt addr n⟩

theorem two_le_words (h : Heap) (classes : ClassTable) (addr : Nat) :
    2 ≤ h.wordsAt classes addr := by
  unfold wordsAt extentAt
  split <;> simp

theorem firstField_le (h : Heap) (classes : ClassTable) (addr : Nat) :
    (h.extentAt classes addr).firstField ≤ 2 := by
  unfold extentAt
  split <;> simp

theorem firstField_pos (h : Heap) (classes : ClassTable) (addr : Nat) :
    0 < (h.extentAt classes addr).firstField := by
  unfold extentAt
  split <;> simp

theorem firstField_of_array {h : Heap} (classes : ClassTable) {addr : Nat}
    (array : h.wordAt addr 0 = arrayTag) : (h.extentAt classes addr).firstField = 2 := by
  simp [extentAt, array]

theorem mem_fieldsAt_iff (h : Heap) (classes : ClassTable) (addr : Nat) (v : Value) :
    v ∈ h.fieldsAt classes addr ↔
      ∃ n, (h.extentAt classes addr).firstField ≤ n ∧ n < h.wordsAt classes addr ∧
        v = ⟨h.wordAt addr n⟩ := by
  have first := h.firstField_le classes addr
  have words := h.two_le_words classes addr
  unfold wordsAt at words ⊢
  simp only [fieldsAt, List.mem_map, List.mem_range'_1]
  constructor
  · rintro ⟨n, ⟨low, high⟩, rfl⟩
    exact ⟨n, low, by omega, rfl⟩
  · rintro ⟨n, low, high, rfl⟩
    exact ⟨n, ⟨low, by omega⟩, rfl⟩

theorem extentAt_congr {h h' : Heap} (classes : ClassTable) {addr addr' : Nat}
    (header : h'.wordAt addr' 0 = h.wordAt addr 0)
    (length : h.wordAt addr 0 = arrayTag → h'.wordAt addr' 1 = h.wordAt addr 1) :
    h'.extentAt classes addr' = h.extentAt classes addr := by
  unfold extentAt
  rw [header]
  split
  · rename_i array
    rw [length array]
  · rfl

theorem load_eq_wordAt (h : Heap) (addr n : Nat) (inside : addr / 8 + n < h.memory.capacity) :
    h.load (addr + 8 * n) = .ok (h.wordAt addr n) := by
  have place : (addr + 8 * n) / 8 = addr / 8 + n := by omega
  simp [load, place, Memory.get?_eq_word _ _ inside, wordAt]

theorem load_eq_header (h : Heap) (addr : Nat) (inside : addr / 8 < h.memory.capacity) :
    h.load addr = .ok (h.wordAt addr 0) := h.load_eq_wordAt addr 0 inside

theorem extent_eq_extentAt (h : Heap) (classes : ClassTable) (addr : Nat)
    (inside : addr / 8 + 1 < h.memory.capacity) :
    h.extent classes addr = .ok (h.extentAt classes addr) := by
  unfold extent extentAt
  rw [load_eq_header _ _ (by omega), h.load_eq_wordAt addr 1 inside]
  simp only [bind, Except.bind, pure, Except.pure]
  split <;> rfl

section
variable {h : Heap} {a n : Nat}

theorem loadWord_eq_wordAt {v : Value} (ref : v.addr? = some a)
    (inside : a / 8 + n < h.memory.capacity) : h.loadWord v n = .ok (h.wordAt a n) := by
  simp only [loadWord, wordAddr, ref, bind, Except.bind]
  exact h.load_eq_wordAt a n inside

theorem shape?_of_array {v : Value} (ref : v.addr? = some a)
    (inside : a / 8 + 1 < h.memory.capacity) (header : h.wordAt a 0 = arrayTag) :
    h.shape? v = .ok (some (.array (h.wordAt a 1).toNat)) := by
  have first := h.load_eq_header a (by omega)
  have second := h.load_eq_wordAt a 1 inside
  simp only [shape?, ref, first, header, bind, Except.bind, if_true]
  rw [second]
  rfl

theorem shape?_of_object {v : Value} (ref : v.addr? = some a) {index : Nat}
    (inside : a / 8 < h.memory.capacity) (header : (h.wordAt a 0).toNat = index + 1) :
    h.shape? v = .ok (some (.object index)) := by
  have first := h.load_eq_header a inside
  have plain : h.wordAt a 0 ≠ arrayTag := by
    intro array
    rw [array] at header
    cases header
  simp [shape?, ref, first, plain, header, bind, Except.bind, pure, Except.pure]

end

inductive Reachable (h : Heap) (classes : ClassTable) (root : Value → Prop) : Nat → Prop where
  | root {v : Value} {addr : Nat} (here : root v) (ref : v.addr? = some addr) :
      Reachable h classes root addr
  | field {addr addr' : Nat} {v : Value} (parent : Reachable h classes root addr)
      (here : v ∈ h.fieldsAt classes addr) (ref : v.addr? = some addr') :
      Reachable h classes root addr'

def Encloses (h : Heap) (classes : ClassTable) (addr : Nat) : Prop :=
  h.base ≤ addr ∧ addr + h.sizeAt classes addr ≤ h.top

/-- An integer, null, or a reference to the start of an object in use. -/
def Supports (h : Heap) (classes : ClassTable) (v : Value) : Prop :=
  v.isInt = true ∨ v = .null ∨ ∃ addr, v.addr? = some addr ∧ h.Encloses classes addr

/-- What a collection expects: root values and all fields they lead to are sound, the objects do not
overlap, and none has been moved yet. -/
structure Traceable (h : Heap) (classes : ClassTable) (root : Value → Prop) : Prop where
  roots : ∀ v, root v → h.Supports classes v
  fields : ∀ addr, h.Reachable classes root addr →
    ∀ v ∈ h.fieldsAt classes addr, h.Supports classes v
  apart : ∀ a b, h.Reachable classes root a → h.Reachable classes root b → a ≠ b →
    a + h.sizeAt classes a ≤ b ∨ b + h.sizeAt classes b ≤ a
  unmoved : ∀ addr, h.Reachable classes root addr → h.wordAt addr 0 ≠ forwardTag

theorem Supports.encloses {h : Heap} {classes : ClassTable} {v : Value} {addr : Nat}
    (sound : h.Supports classes v) (ref : v.addr? = some addr) : h.Encloses classes addr := by
  rcases sound with int | null | ⟨addr', ref', inside⟩
  · rw [Value.addr?_of_isInt int] at ref
    cases ref
  · rw [null, Value.addr?_null] at ref
    cases ref
  · rw [ref] at ref'
    cases ref'
    exact inside

theorem Traceable.encloses {h : Heap} {classes : ClassTable} {root : Value → Prop} {addr : Nat}
    (live : h.Traceable classes root) (reach : h.Reachable classes root addr) :
    h.Encloses classes addr := by
  cases reach with
  | root here ref => exact (live.roots _ here).encloses ref
  | field parent here ref => exact (live.fields _ parent _ here).encloses ref

theorem Reachable.aligned {h : Heap} {classes : ClassTable} {root : Value → Prop} {addr : Nat}
    (reach : h.Reachable classes root addr) : 8 ∣ addr := by
  cases reach with
  | root _ ref => exact Value.addr?_aligned ref
  | field _ _ ref => exact Value.addr?_aligned ref

end Heap
end SlotVM
