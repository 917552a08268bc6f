namespace SlotVM

/-- A source instruction. Names and formats are pool indices of strings. -/
inductive Ins where
  | label (name : UInt64)
  | lit (idx : UInt64)
  | printf (format : UInt64) (arity : UInt32)
  | array
  | object (index : UInt64)
  | slot (name : UInt64)
  | setSlot (name : UInt64)
  | callSlot (name : UInt64) (arity : UInt32)
  | call (name : UInt64) (arity : UInt32)
  | setLocal (idx : UInt32)
  | getLocal (idx : UInt32)
  | setGlobal (name : UInt64)
  | getGlobal (name : UInt64)
  | branch (name : UInt64)
  | goto (name : UInt64)
  | ret
  | drop
deriving DecidableEq

structure Method where
  name : UInt64
  nargs : UInt32
  nlocals : UInt32
  code : List Ins
deriving DecidableEq

/-- A constant-pool entry. A class lists the pool indices of its slots and methods. -/
inductive Constant where
  | int (value : Int32)
  | null
  | str (value : String)
  | method (m : Method)
  | slot (name : UInt64)
  | classDef (slots : List UInt64)
deriving DecidableEq

def Constant.kindName : Constant → String
  | .int _ => "int"
  | .null => "null"
  | .str _ => "string"
  | .method _ => "method"
  | .slot _ => "slot"
  | .classDef _ => "class"

structure Program where
  values : Array Constant
  slots : List UInt64
  entry : UInt64
deriving DecidableEq

namespace Program

def constant? (p : Program) (index : UInt64) : Option Constant := p.values[index.toNat]?

def string? (p : Program) (index : UInt64) : Option String :=
  match p.constant? index with
  | some (.str value) => some value
  | _ => none

theorem string?_eq_some_iff {p : Program} {index : UInt64} {text : String} :
    p.string? index = some text ↔ p.constant? index = some (.str text) := by
  unfold string?
  cases p.constant? index with
  | none => simp
  | some c => cases c <;> simp

end Program
end SlotVM
