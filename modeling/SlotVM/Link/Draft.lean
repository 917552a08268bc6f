import SlotVM.ClassTable
import SlotVM.Code.Instr
import SlotVM.Link.Error
import SlotVM.Program.Basic

namespace SlotVM

/-- What a definition is found by: a name, for labels and top-level functions, or the pool index of a
method or class. -/
inductive Key where
  | name (symbol : Symbol)
  | constant (index : UInt64)
deriving DecidableEq

inductive Entry where
  | method (offset : Nat) (nargs : UInt32)
  | label (offset : Nat)
  | classDef (index : Nat)
deriving DecidableEq

def Entry.kindName : Entry → String
  | .method _ _ => "method"
  | .label _ => "label"
  | .classDef _ => "class"

/-- An instruction with its offset settled, since an operand's place does not depend on its value, and
with what may stand further on still by name. -/
inductive Sketch where
  | ready (instr : Instr)
  | object (index : UInt64)
  | call (arity : UInt32) (name : Symbol)
  | getGlobal (name : Symbol)
  | setGlobal (name : Symbol)
  | branch (name : Symbol)
  | goto (name : Symbol)
deriving DecidableEq

namespace Sketch

def opcode : Sketch → Opcode
  | .ready instr => instr.opcode
  | .object _ => .object
  | .call _ _ => .call
  | .getGlobal _ => .getGlobal
  | .setGlobal _ => .setGlobal
  | .branch _ => .branch
  | .goto _ => .goto

end Sketch

structure Draft where
  offset : Nat
  body : Array Sketch
  entries : List (Key × Entry)
  symbols : Symbols
  formats : Array (UInt64 × String)
  classes : ClassTable
  globals : Array Symbol

namespace Draft

def empty : Draft := ⟨0, #[], [], .empty, #[], .empty, #[]⟩

def find? (d : Draft) (key : Key) : Option Entry := d.entries.lookup key

def subject (d : Draft) (p : Program) : Key → Subject
  | .name symbol => .name (d.symbols.nameOf symbol)
  | .constant index =>
    match p.constant? index with
    | some (.method m) => .method (p.string? m.name) index
    | _ => .constant index

def define (d : Draft) (p : Program) (key : Key) (entry : Entry) : Except LinkError Draft :=
  match d.find? key with
  | some _ => .error (.duplicateSymbol (d.subject p key))
  | none => .ok { d with entries := (key, entry) :: d.entries }

def resolve (d : Draft) (p : Program) (key : Key) : Except LinkError Entry :=
  match d.find? key with
  | some entry => .ok entry
  | none => .error (.unresolvedSymbol (d.subject p key))

end Draft

namespace Program

def constant (p : Program) (index : UInt64) (expected : String) : Except LinkError Constant :=
  match p.constant? index with
  | some c => .ok c
  | none => .error (.badConstant index expected "nothing")

def string (p : Program) (index : UInt64) : Except LinkError String := do
  match ← p.constant index "string" with
  | .str value => .ok value
  | other => .error (.badConstant index "string" other.kindName)

end Program

namespace Draft

def intern (d : Draft) (p : Program) (index : UInt64) : Except LinkError (Draft × Symbol) := do
  let (symbols, symbol) := d.symbols.intern (← p.string index)
  return ({ d with symbols := symbols }, symbol)

/-- The place of a format string, one for each pool index in use. -/
def format (d : Draft) (p : Program) (index : UInt64) : Except LinkError (Draft × UInt64) :=
  match d.formats.findIdx? (·.1 = index) with
  | some place => .ok (d, place.toUInt64)
  | none => do
    let value ← p.string index
    return ({ d with formats := d.formats.push (index, value) }, d.formats.size.toUInt64)

end Draft
end SlotVM
