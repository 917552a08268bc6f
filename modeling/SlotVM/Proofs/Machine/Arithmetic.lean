import SlotVM.Proofs.Machine.Calls
import Mathlib.Data.Int.ModEq

namespace SlotVM

namespace Value

/-- The signed 61-bit integer that a word keeps of an integer. -/
def wrap (n : Int) : Int := n.bmod (2 ^ 61)

theorem wrap_bounds (n : Int) : -2 ^ 60 ≤ wrap n ∧ wrap n < 2 ^ 60 := by
  unfold wrap Int.bmod
  dsimp only
  split <;> omega

theorem wrap_modEq (n : Int) : wrap n ≡ n [ZMOD 2 ^ 61] := Int.bmod_emod

theorem raw_ofInt (n : Int) : (ofInt n).raw.toInt64.toInt = (8 * n).bmod (2 ^ 64) := by
  have nonneg : 0 ≤ 8 * n % 2 ^ 64 := by omega
  have word : (ofInt n).raw.toInt64 = Int64.ofNat (8 * n % 2 ^ 64).toNat := UInt64.toInt64_ofNat'
  rw [word, Int64.toInt_ofNat', Int.toNat_of_nonneg nonneg]
  exact Int.emod_bmod (8 * n) (2 ^ 64)

theorem toInt?_ofInt (n : Int) : (ofInt n).toInt? = some (wrap n) := by
  have shifted : (8 * n).bmod (2 ^ 64) / 8 = n.bmod (2 ^ 61) := by
    unfold Int.bmod
    dsimp only
    split <;> split <;> omega
  rw [toInt?, isInt_ofInt, if_pos rfl, raw_ofInt, shifted, wrap]

theorem ofInt_congr {m n : Int} (same : m ≡ n [ZMOD 2 ^ 61]) : ofInt m = ofInt n := by
  have scaled : 8 * m % 2 ^ 64 = 8 * n % 2 ^ 64 := by
    unfold Int.ModEq at same
    omega
  unfold ofInt UInt64.ofInt
  rw [scaled]

end Value

namespace IntOp

open Value

/-- The result is the word of a 64-bit integer, and reads as the exact integer in 61 bits. -/
structure Keeps (result : Except RuntimeError Value) (exact : Int) (word : Int64) : Prop where
  value : result = .ok (.ofInt word.toInt)
  reads : (Value.ofInt word.toInt).toInt? = some (wrap exact)
  range : -2 ^ 60 ≤ wrap exact ∧ wrap exact < 2 ^ 60
  congruent : wrap exact ≡ exact [ZMOD 2 ^ 61]

theorem keeps_ofInt {exact : Int} {word : Int64} (wrapped : word.toInt = exact.bmod (2 ^ 64)) :
    Keeps (.ok (.ofInt exact)) exact word := by
  have same : ofInt word.toInt = ofInt exact := by
    apply ofInt_congr
    rw [wrapped]
    apply Int.ModEq.of_dvd (show (2 : Int) ^ 61 ∣ 2 ^ 64 by decide)
    exact Int.bmod_emod
  refine ⟨?_, ?_, wrap_bounds exact, wrap_modEq exact⟩
  · rw [same]
  · rw [same, toInt?_ofInt]

section
variable {a b : Int64}

theorem toInt_eq_zero_iff : b.toInt = 0 ↔ b = 0 := Int64.toInt_inj (y := 0)

theorem keeps_div (nonzero : b ≠ 0) :
    Keeps (div.apply a.toInt b.toInt) (a.toInt.tdiv b.toInt) (a / b) := by
  have divides : div.apply a.toInt b.toInt = .ok (.ofInt (a.toInt.tdiv b.toInt)) :=
    if_neg fun zero => nonzero (toInt_eq_zero_iff.mp zero)
  rw [divides]
  exact keeps_ofInt (Int64.toInt_div a b)

theorem keeps_mod (nonzero : b ≠ 0) :
    Keeps (mod.apply a.toInt b.toInt) (a.toInt.tmod b.toInt) (a % b) := by
  have divides : mod.apply a.toInt b.toInt = .ok (.ofInt (a.toInt.tmod b.toInt)) :=
    if_neg fun zero => nonzero (toInt_eq_zero_iff.mp zero)
  -- a remainder is no larger than the dividend, so 64 bits hold it as it is
  rw [divides, ← Int64.toInt_mod]
  apply keeps_ofInt
  exact (Int64.toInt_bmod_size (a % b)).symm

theorem divisionByZero_iff {op : IntOp} (divides : op = .div ∨ op = .mod) :
    op.apply a.toInt b.toInt = .error .divisionByZero ↔ b = 0 := by
  rw [← toInt_eq_zero_iff]
  rcases divides with rfl | rfl
  · by_cases zero : b.toInt = 0 <;> simp [apply, zero]
  · by_cases zero : b.toInt = 0 <;> simp [apply, zero]

theorem wrap_quotient_add_remainder (a b : Int) :
    wrap (a.tdiv b) * b + wrap (a.tmod b) ≡ a [ZMOD 2 ^ 61] := by
  calc wrap (a.tdiv b) * b + wrap (a.tmod b)
      ≡ a.tdiv b * b + a.tmod b [ZMOD 2 ^ 61] :=
        ((wrap_modEq (a.tdiv b)).mul_right b).add (wrap_modEq (a.tmod b))
    _ = a := by rw [Int.mul_comm]; exact Int.mul_tdiv_add_tmod a b

theorem flag_eq {holds : Prop} [Decidable holds] {b : Bool} (same : b = true ↔ holds) :
    flag b = if holds then .ofInt 1 else .null := by
  simp only [flag, same]

theorem kind_of_apply {op : IntOp} {a b : Int} {v : Value} (applied : op.apply a b = .ok v) :
    (v.kind? = some .int ∨ v = .null) ∧ v.kind? ≠ some .object := by
  have valid : v.Valid fun _ => False := Store.valid_apply applied
  rcases valid.kind? with ⟨-, kind⟩ | ⟨null, kind⟩ | ⟨_, -, absent, -⟩
  · exact ⟨.inl kind, by simp [kind]⟩
  · exact ⟨.inr null, by simp [kind]⟩
  · exact absent.elim

end

/-- Built-ins of 64-bit integers. Sums, differences and products read as the exact result in 61 bits;
division fails by zero only and goes toward zero, with a remainder of the dividend's sign; a comparison
gives one or null. No result is a reference. -/
theorem apply_modulo (a b : Int64) :
    Keeps (add.apply a.toInt b.toInt) (a.toInt + b.toInt) (a + b) ∧
    Keeps (sub.apply a.toInt b.toInt) (a.toInt - b.toInt) (a - b) ∧
    Keeps (mul.apply a.toInt b.toInt) (a.toInt * b.toInt) (a * b) ∧
    (div.apply a.toInt b.toInt = .error .divisionByZero ↔ b = 0) ∧
    (mod.apply a.toInt b.toInt = .error .divisionByZero ↔ b = 0) ∧
    (b ≠ 0 →
      Keeps (div.apply a.toInt b.toInt) (a.toInt.tdiv b.toInt) (a / b) ∧
      Keeps (mod.apply a.toInt b.toInt) (a.toInt.tmod b.toInt) (a % b) ∧
      wrap (a.toInt.tdiv b.toInt) * b.toInt + wrap (a.toInt.tmod b.toInt) ≡ a.toInt
        [ZMOD 2 ^ 61]) ∧
    lt.apply a.toInt b.toInt = .ok (if a < b then .ofInt 1 else .null) ∧
    le.apply a.toInt b.toInt = .ok (if a ≤ b then .ofInt 1 else .null) ∧
    gt.apply a.toInt b.toInt = .ok (if a > b then .ofInt 1 else .null) ∧
    ge.apply a.toInt b.toInt = .ok (if a ≥ b then .ofInt 1 else .null) ∧
    eq.apply a.toInt b.toInt = .ok (if a = b then .ofInt 1 else .null) ∧
    (∀ (op : IntOp) (v : Value), op.apply a.toInt b.toInt = .ok v →
      (v.kind? = some .int ∨ v = .null) ∧ v.kind? ≠ some .object) := by
  refine ⟨keeps_ofInt (Int64.toInt_add a b), keeps_ofInt (Int64.toInt_sub a b),
    keeps_ofInt (Int64.toInt_mul a b), divisionByZero_iff (.inl rfl), divisionByZero_iff (.inr rfl),
    ?_, ?_, ?_, ?_, ?_, ?_, fun op v => kind_of_apply⟩
  · intro nonzero
    exact ⟨keeps_div nonzero, keeps_mod nonzero, wrap_quotient_add_remainder a.toInt b.toInt⟩
  · exact congrArg Except.ok (flag_eq (by simp [Int64.lt_iff_toInt_lt]))
  · exact congrArg Except.ok (flag_eq (by simp [Int64.le_iff_toInt_le]))
  · exact congrArg Except.ok (flag_eq (by simp [Int64.lt_iff_toInt_lt]))
  · exact congrArg Except.ok (flag_eq (by simp [Int64.le_iff_toInt_le]))
  · exact congrArg Except.ok (flag_eq (by simp [Int64.toInt_inj]))

theorem minValue_div_neg_one :
    (-1 : Int64) ≠ 0 ∧ Keeps (div.apply (-2 ^ 63) (-1)) (2 ^ 63) Int64.minValue ∧
      Keeps (mod.apply (-2 ^ 63) (-1)) 0 0 ∧ wrap (2 ^ 63) = 0 := by
  have nonzero : (-1 : Int64) ≠ 0 := by decide
  obtain ⟨-, -, -, -, -, divides, -⟩ := apply_modulo Int64.minValue (-1)
  obtain ⟨quotient, remainder, -⟩ := divides nonzero
  exact ⟨nonzero, quotient, remainder, by decide⟩

end IntOp
end SlotVM
