import SlotVM.Machine.Fault
import SlotVM.Symbols
import SlotVM.Value

namespace SlotVM

inductive IntOp where
  | add
  | sub
  | mul
  | div
  | mod
  | lt
  | le
  | gt
  | ge
  | eq
deriving DecidableEq

namespace IntOp

def ofName? : String → Option IntOp
  | "add" => some .add
  | "sub" => some .sub
  | "mul" => some .mul
  | "div" => some .div
  | "mod" => some .mod
  | "lt" => some .lt
  | "le" => some .le
  | "gt" => some .gt
  | "ge" => some .ge
  | "eq" => some .eq
  | _ => none

/-- The integer one for true, null for false. -/
def flag (b : Bool) : Value := if b then .ofInt 1 else .null

/-- Results wrap to 61 bits. Division goes toward zero and a remainder has the dividend's sign. -/
def apply (op : IntOp) (a b : Int) : Except RuntimeError Value :=
  match op with
  | .add => .ok (.ofInt (a + b))
  | .sub => .ok (.ofInt (a - b))
  | .mul => .ok (.ofInt (a * b))
  | .div => if b = 0 then .error .divisionByZero else .ok (.ofInt (a.tdiv b))
  | .mod => if b = 0 then .error .divisionByZero else .ok (.ofInt (a.tmod b))
  | .lt => .ok (flag (a < b))
  | .le => .ok (flag (a ≤ b))
  | .gt => .ok (flag (a > b))
  | .ge => .ok (flag (a ≥ b))
  | .eq => .ok (flag (a = b))

end IntOp

inductive ArrayOp where
  | get
  | set
  | length
deriving DecidableEq

namespace ArrayOp

def ofName? : String → Option ArrayOp
  | "get" => some .get
  | "set" => some .set
  | "length" => some .length
  | _ => none

def arity : ArrayOp → Nat
  | .get => 2
  | .set => 3
  | .length => 1

end ArrayOp

def checkIndex (index : Int) (length : Nat) : Except RuntimeError Nat :=
  if 0 ≤ index ∧ index < length then .ok index.toNat
  else .error (.indexOutOfBounds index length)

structure Builtins where
  intOps : Array (Option IntOp)
  arrayOps : Array (Option ArrayOp)

/-- One pass over the names, each of which sets the entry of its symbol. -/
def Symbols.tabulate {α : Type} (symbols : Symbols) (ofName? : String → Option α) :
    Array (Option α) :=
  symbols.names.toList.zipIdx.foldl
    (fun table (name, place) => table.setIfInBounds place.toUInt32.toNat (ofName? name))
    (Array.replicate symbols.size none)

namespace Builtins

def ofSymbols (symbols : Symbols) : Builtins :=
  ⟨symbols.tabulate IntOp.ofName?, symbols.tabulate ArrayOp.ofName?⟩

def intOp? (builtins : Builtins) (symbol : Symbol) : Option IntOp :=
  builtins.intOps[symbol.id.toNat]?.join

def arrayOp? (builtins : Builtins) (symbol : Symbol) : Option ArrayOp :=
  builtins.arrayOps[symbol.id.toNat]?.join

end Builtins

end SlotVM
