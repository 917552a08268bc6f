namespace SlotVM

structure Value where
  raw : UInt64
deriving DecidableEq

inductive Kind where
  | int
  | null
  | object
deriving DecidableEq

def Kind.name : Kind → String
  | .int => "int"
  | .null => "null"
  | .object => "object"

namespace Value

def tag (v : Value) : UInt64 := v.raw &&& 7

/-- The word of an integer. The top three bits are lost, so integers are kept modulo `2 ^ 61`. -/
def ofInt (n : Int) : Value := ⟨UInt64.ofInt (8 * n)⟩

def null : Value := ⟨2⟩

def ofAddr (addr : Nat) : Value := ⟨addr.toUInt64 ||| 1⟩

/-- `none` for the five bit patterns that no value has. -/
def kind? (v : Value) : Option Kind :=
  match v.tag with
  | 0 => some .int
  | 1 => some .object
  | 2 => some .null
  | _ => none

def isInt (v : Value) : Bool := v.tag == 0

def isNull (v : Value) : Bool := v.raw == 2

def isObject (v : Value) : Bool := v.tag == 1

def isTruthy (v : Value) : Bool := !v.isNull

def toInt? (v : Value) : Option Int :=
  if v.isInt then some (v.raw.toInt64.toInt / 8) else none

def addr? (v : Value) : Option Nat :=
  if v.isObject then some (v.raw.toNat - 1) else none

instance : Inhabited Value := ⟨null⟩

end Value
end SlotVM
