import SlotVM.Program.Printer
import Mathlib.Data.List.Forall2

namespace SlotVM

inductive Json.Scalar : Json → Prop where
  | null : Scalar .null
  | bool (b : Bool) : Scalar (.bool b)
  | int {n : Int} (low : -0x8000000000000000 ≤ n) (high : n < 0x10000000000000000) :
      Scalar (.number (.int n))
  | string (s : String) : Scalar (.string s)

/-- The documents of a record with the members given. -/
inductive Record.Spells (given : List (String × Json)) : Json → Prop where
  | object {members : List (String × Json)} (extra : List (String × Json))
      (order : members.Perm (given ++ extra))
      (foreign : ∀ member ∈ extra, member.1 ∉ given.map (·.1))
      (scalar : ∀ member ∈ extra, member.2.Scalar) : Spells given (.object members)
  | array : Spells given (.array (given.map (·.2)))

theorem Record.spells_object (given : List (String × Json)) : Spells given (.object given) := by
  have order : given.Perm (given ++ []) := by rw [List.append_nil]
  exact .object [] order (by simp) (by simp)

def Ins.Spells (i : Ins) (j : Json) : Prop := Record.Spells (("op", .string i.tag) :: i.fields) j

namespace Constant

inductive Told : Constant → List (String × Json) → Prop where
  | method {m : Method} {code : List Json} (each : List.Forall₂ Ins.Spells m.code code) :
      Told (.method m) [("name", .ofIndex m.name), ("nargs", .ofCount m.nargs),
        ("nlocals", .ofCount m.nlocals), ("code", .array code)]
  | other {c : Constant} (other : ∀ m, c ≠ .method m) : Told c c.fields

def Spells (c : Constant) (j : Json) : Prop :=
  ∃ fields, c.Told fields ∧ Record.Spells (("tag", .string c.tag) :: fields) j

end Constant

def Program.Spells (p : Program) (j : Json) : Prop :=
  ∃ values, List.Forall₂ Constant.Spells p.values.toList values ∧
    Record.Spells [("values", .array values), ("slots", .array (p.slots.map Json.ofIndex)),
      ("entry", .ofIndex p.entry)] j

theorem Ins.spells_toJson (i : Ins) : i.Spells i.toJson := Record.spells_object _

theorem Constant.told_fields (c : Constant) : c.Told c.fields := by
  cases c with
  | method m =>
    apply Told.method
    rw [List.forall₂_map_right_iff, List.forall₂_same]
    exact fun i _ => i.spells_toJson
  | int value | null | str value | slot name | classDef slots => exact .other nofun

theorem Constant.spells_toJson (c : Constant) : c.Spells c.toJson :=
  ⟨c.fields, c.told_fields, Record.spells_object _⟩

theorem Program.spells_toJson (p : Program) : p.Spells p.toJson := by
  refine ⟨p.values.toList.map Constant.toJson, ?_, Record.spells_object _⟩
  rw [List.forall₂_map_right_iff, List.forall₂_same]
  exact fun c _ => c.spells_toJson

end SlotVM
