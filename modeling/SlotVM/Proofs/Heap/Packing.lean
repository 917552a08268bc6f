import Mathlib.Algebra.BigOperators.Group.Finset.Basic
import Mathlib.Algebra.Ring.Nat
import Mathlib.Order.Interval.Finset.Nat

namespace SlotVM.Packing

variable (size : Nat → Nat)

def total (blocks : List Nat) : Nat := (blocks.map size).sum

/-- What the blocks before a block take together. -/
def start : List Nat → Nat → Nat
  | [], _ => 0
  | block :: blocks, a => if block = a then 0 else size block + start blocks a

@[simp] theorem total_nil : total size [] = 0 := rfl

@[simp] theorem total_cons (block : Nat) (blocks : List Nat) :
    total size (block :: blocks) = size block + total size blocks := by
  simp [total]

@[simp] theorem total_append (left right : List Nat) :
    total size (left ++ right) = total size left + total size right := by
  simp [total]

theorem start_append_of_mem {a : Nat} {left : List Nat} (right : List Nat) (here : a ∈ left) :
    start size (left ++ right) a = start size left a := by
  induction left with
  | nil => simp at here
  | cons block blocks ih =>
    simp only [List.cons_append, start]
    by_cases first : block = a
    · simp [first]
    · have rest : a ∈ blocks := by
        rcases List.mem_cons.mp here with same | rest
        · exact absurd same.symm first
        · exact rest
      simp [first, ih rest]

theorem start_append_of_not_mem {a : Nat} {left : List Nat} (right : List Nat)
    (apart : a ∉ left) : start size (left ++ right) a = total size left + start size right a := by
  induction left with
  | nil => simp
  | cons block blocks ih =>
    have first : ¬ block = a := fun same => apart (same ▸ List.mem_cons_self)
    have rest : a ∉ blocks := fun here => apart (List.mem_cons_of_mem _ here)
    simp only [List.cons_append, start, first, if_false, ih rest, total_cons]
    omega

theorem start_of_grown {a : Nat} {before after : List Nat} (grown : before <+: after)
    (here : a ∈ before) : start size after a = start size before a := by
  obtain ⟨more, rfl⟩ := grown
  exact start_append_of_mem size more here

theorem start_add_size_le {a : Nat} {blocks : List Nat} (here : a ∈ blocks) :
    start size blocks a + size a ≤ total size blocks := by
  induction blocks with
  | nil => simp at here
  | cons block blocks ih =>
    simp only [start, total_cons]
    by_cases first : block = a
    · subst first
      simp
    · have rest : a ∈ blocks := by
        rcases List.mem_cons.mp here with same | rest
        · exact absurd same.symm first
        · exact rest
      have := ih rest
      simp only [first, if_false]
      omega

theorem length_mul_le (least : Nat) (blocks : List Nat) (large : ∀ a ∈ blocks, least ≤ size a) :
    least * blocks.length ≤ total size blocks := by
  induction blocks with
  | nil => simp
  | cons block blocks ih =>
    have first := large block List.mem_cons_self
    have rest := ih fun a here => large a (List.mem_cons_of_mem _ here)
    rw [total_cons, List.length_cons, Nat.mul_succ]
    omega

theorem start_getElem {blocks : List Nat} (nodup : blocks.Nodup) {i : Nat}
    (bound : i < blocks.length) : start size blocks blocks[i] = total size (blocks.take i) := by
  induction blocks generalizing i with
  | nil => simp at bound
  | cons block blocks ih =>
    obtain ⟨fresh, nodup⟩ := List.nodup_cons.mp nodup
    cases i with
    | zero => simp [start]
    | succ i =>
      have bound : i < blocks.length := by simpa using bound
      have apart : block ≠ blocks[i] := fun same => fresh (same ▸ List.getElem_mem bound)
      simp [start, apart, ih nodup bound]

theorem start_apart {a b : Nat} {blocks : List Nat} (ha : a ∈ blocks) (hb : b ∈ blocks)
    (distinct : a ≠ b) :
    start size blocks a + size a ≤ start size blocks b ∨
      start size blocks b + size b ≤ start size blocks a := by
  induction blocks with
  | nil => simp at ha
  | cons block blocks ih =>
    simp only [start]
    by_cases first : block = a
    · subst first
      left
      simp [distinct]
    · by_cases second : block = b
      · subst second
        right
        simp [first]
      · have ha : a ∈ blocks := (List.mem_cons.mp ha).resolve_left (fun h => first h.symm)
        have hb : b ∈ blocks := (List.mem_cons.mp hb).resolve_left (fun h => second h.symm)
        simp only [first, second, if_false]
        have := ih ha hb
        omega

/-- Blocks that lie apart between two bounds fit between them packed. -/
theorem total_le (low high : Nat) (place : Nat → Nat) (blocks : List Nat) (nodup : blocks.Nodup)
    (inside : ∀ a ∈ blocks, low ≤ place a ∧ place a + size a ≤ high)
    (apart : ∀ a ∈ blocks, ∀ b ∈ blocks, a ≠ b →
      place a + size a ≤ place b ∨ place b + size b ≤ place a) :
    total size blocks ≤ high - low := by
  have disjoint : (blocks.toFinset : Set Nat).PairwiseDisjoint
      fun a => Finset.Ico (place a) (place a + size a) := by
    intro a ha b hb distinct
    rw [Function.onFun, Finset.disjoint_left]
    intro x hx hy
    have := apart a (by simpa using ha) b (by simpa using hb) distinct
    rw [Finset.mem_Ico] at hx hy
    omega
  have union : (blocks.toFinset.biUnion fun a => Finset.Ico (place a) (place a + size a)) ⊆
      Finset.Ico low high := by
    intro x hx
    obtain ⟨a, ha, hx⟩ := Finset.mem_biUnion.mp hx
    have := inside a (by simpa using ha)
    rw [Finset.mem_Ico] at hx ⊢
    omega
  calc total size blocks
      = ∑ a ∈ blocks.toFinset, size a := (List.sum_toFinset size nodup).symm
    _ = ∑ a ∈ blocks.toFinset, (Finset.Ico (place a) (place a + size a)).card := by simp
    _ = (blocks.toFinset.biUnion fun a => Finset.Ico (place a) (place a + size a)).card :=
        (Finset.card_biUnion disjoint).symm
    _ ≤ (Finset.Ico low high).card := Finset.card_le_card union
    _ = high - low := Nat.card_Ico low high

end SlotVM.Packing
