namespace SlotVM

theorem bind_eq_ok {ε α β : Type} {first : Except ε α} {rest : α → Except ε β} {result : β} :
    (first >>= rest) = .ok result ↔ ∃ a, first = .ok a ∧ rest a = .ok result := by
  cases first <;> simp [bind, Except.bind]

theorem toOption_bind_eq_some {ε α β : Type} {first : Except ε α} {rest : α → Option β} {result : β} :
    (first.toOption >>= rest) = some result ↔ ∃ a, first = .ok a ∧ rest a = some result := by
  cases first <;> simp [Except.toOption, bind, Option.bind]

end SlotVM
