import SlotVM.Value
import Mathlib.Algebra.Ring.Nat

namespace SlotVM.Value

theorem tag_toNat (v : Value) : v.tag.toNat = v.raw.toNat % 8 := by
  unfold tag
  rw [UInt64.toNat_and]
  exact Nat.and_two_pow_sub_one_eq_mod v.raw.toNat 3

theorem isInt_iff (v : Value) : v.isInt = true ↔ v.raw.toNat % 8 = 0 := by
  rw [← tag_toNat]
  unfold isInt
  rw [beq_iff_eq, ← UInt64.toNat_inj]
  rfl

theorem isObject_iff (v : Value) : v.isObject = true ↔ v.raw.toNat % 8 = 1 := by
  rw [← tag_toNat]
  unfold isObject
  rw [beq_iff_eq, ← UInt64.toNat_inj]
  rfl

theorem addr?_eq_some_iff (v : Value) (addr : Nat) :
    v.addr? = some addr ↔ v.raw.toNat = addr + 1 ∧ 8 ∣ addr := by
  unfold addr?
  by_cases object : v.isObject
  · have low := (isObject_iff v).mp object
    simp only [object, if_true, Option.some.injEq]
    omega
  · have low : ¬ v.raw.toNat % 8 = 1 := fun h => object ((isObject_iff v).mpr h)
    simp only [object, if_false, reduceCtorEq, false_iff]
    omega

theorem raw_ofAddr (addr : Nat) (aligned : 8 ∣ addr) (small : addr < 2 ^ 64) :
    (ofAddr addr).raw.toNat = addr + 1 := by
  obtain ⟨k, rfl⟩ := aligned
  have bits : 2 ^ 3 * k + 1 = 2 ^ 3 * k ||| 1 := Nat.two_pow_add_eq_or_of_lt (by decide) k
  have fits : (8 * k).toUInt64.toNat = 8 * k := UInt64.toNat_ofNat_of_lt' small
  simp only [ofAddr, UInt64.toNat_or, fits]
  exact bits.symm

theorem addr?_ofAddr (addr : Nat) (aligned : 8 ∣ addr) (small : addr < 2 ^ 64) :
    (ofAddr addr).addr? = some addr :=
  (addr?_eq_some_iff _ _).mpr ⟨raw_ofAddr addr aligned small, aligned⟩

theorem eq_ofAddr {v : Value} {addr : Nat} (ref : v.addr? = some addr) : v = ofAddr addr := by
  obtain ⟨raw, aligned⟩ := (addr?_eq_some_iff v addr).mp ref
  have small := v.raw.toNat_lt
  have same : v.raw = (ofAddr addr).raw := by
    rw [← UInt64.toNat_inj, raw, raw_ofAddr addr aligned (by omega)]
  exact congrArg Value.mk same

theorem addr?_aligned {v : Value} {addr : Nat} (h : v.addr? = some addr) : 8 ∣ addr :=
  ((addr?_eq_some_iff v addr).mp h).2

theorem addr?_of_isInt {v : Value} (h : v.isInt = true) : v.addr? = none := by
  have low := (isInt_iff v).mp h
  have object : ¬ v.isObject = true := fun o => by
    have := (isObject_iff v).mp o
    omega
  simp [addr?, object]

@[simp] theorem addr?_null : null.addr? = none := by decide

theorem isInt_ofInt (n : Int) : (ofInt n).isInt = true := by
  have raw : (ofInt n).raw.toNat = (8 * n % 2 ^ 64).toNat :=
    UInt64.toNat_ofNat_of_lt' (show (8 * n % 2 ^ 64).toNat < 2 ^ 64 by omega)
  rw [isInt_iff, raw]
  omega

/-- The value after objects have moved: a reference follows its object, any other value stays. -/
def relocate (f : Nat → Nat) (v : Value) : Value :=
  match v.addr? with
  | some addr => ofAddr (f addr)
  | none => v

theorem relocate_of_addr? {f : Nat → Nat} {v : Value} {addr : Nat} (h : v.addr? = some addr) :
    v.relocate f = ofAddr (f addr) := by
  simp [relocate, h]

theorem relocate_of_none {f : Nat → Nat} {v : Value} (h : v.addr? = none) :
    v.relocate f = v := by
  simp [relocate, h]

theorem relocate_congr {f g : Nat → Nat} {v : Value}
    (same : ∀ addr, v.addr? = some addr → f addr = g addr) : v.relocate f = v.relocate g := by
  cases h : v.addr? with
  | none => rw [relocate_of_none h, relocate_of_none h]
  | some addr => rw [relocate_of_addr? h, relocate_of_addr? h, same addr h]

@[simp] theorem relocate_id : relocate id = id := by
  funext v
  cases ref : v.addr? with
  | none => exact relocate_of_none ref
  | some addr =>
    rw [relocate_of_addr? ref, eq_ofAddr ref]
    rfl

end SlotVM.Value
