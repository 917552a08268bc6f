import Mathlib.Data.List.Forall2

namespace SlotVM

theorem mem_forall₂ {α β : Type} {R : α → β → Prop} {as : List α} {bs : List β}
    (related : List.Forall₂ R as bs) {a : α} (member : a ∈ as) : ∃ b ∈ bs, R a b := by
  induction related with
  | nil => cases member
  | @cons first b _ _ here _ ih =>
    rcases List.mem_cons.mp member with rfl | member
    · exact ⟨b, List.mem_cons_self, here⟩
    · obtain ⟨b, listed, here⟩ := ih member
      exact ⟨b, List.mem_cons_of_mem _ listed, here⟩

theorem forall₂_trans {α β γ : Type} {R : α → β → Prop} {S : β → γ → Prop} {T : α → γ → Prop}
    {as : List α} {bs : List β} {cs : List γ} (first : List.Forall₂ R as bs)
    (second : List.Forall₂ S bs cs) (step : ∀ {a b c}, R a b → S b c → T a c) :
    List.Forall₂ T as cs := by
  induction first generalizing cs with
  | nil =>
    cases second
    exact .nil
  | cons left _ ih =>
    cases second with
    | cons right rest => exact .cons (step left right) (ih rest)

section
variable {α β : Type} {related : α → β → Prop} {xs : List α} {ys : List β}

theorem forall₂_getElem? (each : List.Forall₂ related xs ys) (i : Nat) :
    (xs[i]? = none ∧ ys[i]? = none) ∨
      ∃ x y, xs[i]? = some x ∧ ys[i]? = some y ∧ related x y := by
  induction each generalizing i with
  | nil => exact .inl ⟨rfl, rfl⟩
  | @cons x y xs ys first rest ih =>
    cases i with
    | zero => exact .inr ⟨x, y, rfl, rfl, first⟩
    | succ i => exact ih i

theorem forall₂_set (each : List.Forall₂ related xs ys) (i : Nat) {x : α} {y : β}
    (new : related x y) : List.Forall₂ related (xs.set i x) (ys.set i y) := by
  induction each generalizing i with
  | nil => exact .nil
  | cons first rest ih =>
    cases i with
    | zero => exact .cons new rest
    | succ i => exact .cons first (ih i)

theorem forall₂_replicate {x : α} {y : β} (each : related x y) (count : Nat) :
    List.Forall₂ related (List.replicate count x) (List.replicate count y) := by
  induction count with
  | zero => exact .nil
  | succ count ih => exact .cons each ih

end
end SlotVM
