import SlotVM.Proofs.Source.Machine
import Mathlib.Data.List.TakeWhile

namespace SlotVM

def Ins.leaves : Ins → Bool
  | .ret => true
  | .goto _ => true
  | _ => false

theorem Ins.isLabel_of_leaves (ins : Ins) (leaves : ins.leaves = true) : ins.isLabel = false := by
  cases ins with
  | label name => cases leaves
  | _ => rfl

namespace Program

/-- Every body ends in a return or a jump. -/
def Complete (p : Program) : Prop :=
  ∀ c ∈ p.values.toList, ∀ m, c = .method m →
    ∃ last, m.code.getLast? = some last ∧ last.leaves = true

def Inside (p : Program) (pos : Position) : Prop := ∃ ins, p.ins? pos = some ins

section
variable {p : Program} {pos : Position} {ins : Ins} {m : Method} {index : UInt64}

theorem Complete.last (complete : p.Complete) (found : p.method? index = some m) :
    ∃ last, m.code.getLast? = some last ∧ last.leaves = true := by
  rw [method?_eq_some_iff, constant?] at found
  have member : Constant.method m ∈ p.values.toList := by
    simpa using Array.mem_of_getElem? found
  exact complete _ member m rfl

theorem Complete.first (complete : p.Complete) (found : p.method? index = some m) :
    p.Inside ⟨index, 0⟩ := by
  obtain ⟨last, ends, -⟩ := complete.last found
  cases code : m.code with
  | nil => simp [code] at ends
  | cons ins rest => exact ⟨ins, ins?_eq_some_iff.mpr ⟨m, found, by simp [code]⟩⟩

theorem Complete.next (complete : p.Complete) (here : p.ins? pos = some ins)
    (stays : ins.leaves = false) : p.Inside pos.next := by
  obtain ⟨m, found, at_line⟩ := ins?_eq_some_iff.mp here
  obtain ⟨last, ends, leaves⟩ := complete.last found
  by_cases inside : pos.line + 1 < m.code.length
  · exact ⟨_, ins?_eq_some_iff.mpr ⟨m, found, List.getElem?_eq_getElem inside⟩⟩
  · have bound := (List.getElem?_eq_some_iff.mp at_line).1
    have line : pos.line = m.code.length - 1 := by omega
    rw [List.getLast?_eq_getElem?, ← line, at_line, Option.some.injEq] at ends
    rw [ends, leaves] at stays
    cases stays

theorem place_label (here : p.ins? pos = some ins) (label : ins.isLabel = true) :
    p.place pos.next = p.place pos := by
  rw [place_next here]
  cases ins with
  | label name => rfl
  | _ => cases label

theorem Complete.settle (complete : p.Complete) (inside : p.Inside pos) :
    ∃ ins, p.ins? (p.settle pos) = some ins ∧ ins.isLabel = false ∧
      p.place (p.settle pos) = p.place pos := by
  obtain ⟨ins, here⟩ := inside
  obtain ⟨m, found, at_line⟩ := ins?_eq_some_iff.mp here
  obtain ⟨last, ends, leaves⟩ := complete.last found
  have bound := (List.getElem?_eq_some_iff.mp at_line).1
  have settled : p.settle pos =
      ⟨pos.method, pos.line + ((m.code.drop pos.line).takeWhile Ins.isLabel).length⟩ := by
    rw [Program.settle, found]
  have split := List.takeWhile_append_dropWhile (p := Ins.isLabel) (l := m.code.drop pos.line)
  have labels : ∀ a ∈ (m.code.drop pos.line).takeWhile Ins.isLabel, a.isLabel = true :=
    fun a member => List.mem_takeWhile_imp member
  have read (k : Nat) : m.code[pos.line + k]? = (m.code.drop pos.line)[k]? := by
    rw [List.getElem?_drop]
  rw [settled]
  generalize (m.code.drop pos.line).takeWhile Ins.isLabel = run at split labels
  -- the labels stand at one offset
  have same : ∀ k ≤ run.length, p.place ⟨pos.method, pos.line + k⟩ = p.place pos := by
    intro k inside
    induction k with
    | zero => rfl
    | succ k ih =>
      have short : k < run.length := by omega
      have label : p.ins? ⟨pos.method, pos.line + k⟩ = some run[k] := by
        refine ins?_eq_some_iff.mpr ⟨m, found, ?_⟩
        rw [read, ← split, List.getElem?_append_left short, List.getElem?_eq_getElem short]
      have step := place_label label (labels _ (List.getElem_mem short))
      exact step.trans (ih (by omega))
  cases rest : (m.code.drop pos.line).dropWhile Ins.isLabel with
  | nil =>
    -- otherwise the last instruction would be a label
    rw [rest, List.append_nil] at split
    have final : last ∈ run := by
      have tail : (m.code.drop pos.line).getLast? = some last := by
        rw [List.getLast?_drop, if_neg (by omega), ends]
      rw [split]
      exact List.mem_of_getLast? tail
    have label := labels last final
    rw [last.isLabel_of_leaves leaves] at label
    cases label
  | cons next tail =>
    refine ⟨next, ins?_eq_some_iff.mpr ⟨m, found, ?_⟩, ?_, same _ (Nat.le_refl _)⟩
    · rw [read, ← split, rest]
      simp
    · have head := List.head?_dropWhile_not Ins.isLabel (m.code.drop pos.line)
      rw [rest] at head
      simpa using head

end
end Program
end SlotVM
