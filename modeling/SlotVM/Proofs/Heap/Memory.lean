import SlotVM.Heap.Memory

namespace SlotVM.Memory

def word (m : Memory) (i : Nat) : UInt64 := m.cells.getD i 0

theorem get?_eq_word (m : Memory) (i : Nat) (inside : i < m.capacity) :
    m.get? i = some (m.word i) := by
  simp [get?, inside, word]

theorem slice?_eq_words (m : Memory) (i count : Nat) (inside : i + count ≤ m.capacity) :
    m.slice? i count = some ((List.range' i count).map m.word) := by
  simp [slice?, inside, word]

@[simp] theorem capacity_put (m : Memory) (i : Nat) (w : UInt64) :
    (m.put i w).capacity = m.capacity := by
  unfold put
  split
  · split <;> rfl
  · rfl

theorem word_put_same (m : Memory) (i : Nat) (w : UInt64) (inside : i < m.capacity) :
    (m.put i w).word i = w := by
  have read := get?_put_same m i w inside
  rw [get?_eq_word _ _ (by simpa using inside)] at read
  exact Option.some.inj read

theorem word_put_other (m : Memory) (i j : Nat) (w : UInt64) (apart : i ≠ j) :
    (m.put i w).word j = m.word j := by
  -- a place outside the memory is read from the cells alone, as in a memory that is large enough
  have read := get?_put_other ⟨max m.capacity (j + 1), m.cells⟩ i j w apart
  by_cases inside : i < m.capacity
  · have within : i < max m.capacity (j + 1) := by omega
    have last : j < max m.capacity (j + 1) := by omega
    rw [get?_eq_word _ _ (by rw [capacity_put]; exact last), get?_eq_word _ _ last] at read
    have words := Option.some.inj read
    simp only [put, inside, within, if_true] at words ⊢
    split at words <;> rename_i written <;> simp only [written, if_true, if_false] <;> exact words
  · simp [put, inside]

@[simp] theorem capacity_putAll (m : Memory) (i : Nat) (ws : List UInt64) :
    (m.putAll i ws).capacity = m.capacity := by
  induction ws generalizing m i with
  | nil => rfl
  | cons w ws ih => rw [putAll, ih, capacity_put]

theorem word_putAll_outside (m : Memory) (i j : Nat) (ws : List UInt64)
    (outside : j < i ∨ i + ws.length ≤ j) : (m.putAll i ws).word j = m.word j := by
  induction ws generalizing m i with
  | nil => rfl
  | cons w ws ih =>
    simp only [List.length_cons] at outside
    rw [putAll, ih _ _ (by omega), word_put_other _ _ _ _ (by omega)]

theorem word_putAll_inside (m : Memory) (i n : Nat) (ws : List UInt64)
    (fits : i + ws.length ≤ m.capacity) (inside : n < ws.length) :
    (m.putAll i ws).word (i + n) = ws.get ⟨n, inside⟩ := by
  induction ws generalizing m i n with
  | nil => simp at inside
  | cons w ws ih =>
    simp only [List.length_cons] at fits inside
    rw [putAll]
    cases n with
    | zero =>
      rw [word_putAll_outside _ _ _ _ (by omega)]
      exact word_put_same m i w (by omega)
    | succ n =>
      have rest := ih (m.put i w) (i + 1) n (by rw [capacity_put]; omega) (by omega)
      rw [show i + (n + 1) = i + 1 + n by omega, rest]
      rfl

@[simp] theorem capacity_fill (m : Memory) (i : Nat) (w : UInt64) (count : Nat) :
    (m.fill i w count).capacity = m.capacity := by
  induction count generalizing m i with
  | zero => rfl
  | succ count ih => rw [fill, ih, capacity_put]

theorem word_fill_outside (m : Memory) (i j : Nat) (w : UInt64) (count : Nat)
    (outside : j < i ∨ i + count ≤ j) : (m.fill i w count).word j = m.word j := by
  induction count generalizing m i with
  | zero => rfl
  | succ count ih => rw [fill, ih _ _ (by omega), word_put_other _ _ _ _ (by omega)]

theorem word_fill_inside (m : Memory) (i j : Nat) (w : UInt64) (count : Nat)
    (fits : i + count ≤ m.capacity) (low : i ≤ j) (high : j < i + count) :
    (m.fill i w count).word j = w := by
  induction count generalizing m i with
  | zero => omega
  | succ count ih =>
    rw [fill]
    by_cases first : j = i
    · subst first
      rw [word_fill_outside _ _ _ _ _ (by omega), word_put_same m j w (by omega)]
    · exact ih (m.put i w) (i + 1) (by rw [capacity_put]; omega) (by omega) (by omega)

end SlotVM.Memory
