import SlotVM.Symbols

namespace SlotVM

/-- What a slot holds: a place in the instance, or a method. -/
inductive Member (τ : Type) where
  | var (index : Nat)
  | code (target : τ)
deriving DecidableEq

abbrev SlotKind := Member Nat

structure Slot where
  name : Symbol
  kind : SlotKind
deriving DecidableEq

inductive SlotDecl where
  | var (name : Symbol)
  | method (name : Symbol) (offset : Nat)
deriving DecidableEq

def SlotDecl.isVar : SlotDecl → Bool
  | .var _ => true
  | .method _ _ => false

structure ClassLayout where
  nvars : Nat
  slots : List Slot
deriving DecidableEq

namespace ClassLayout

def number (next : Nat) : List SlotDecl → List Slot
  | [] => []
  | .var name :: decls => ⟨name, .var next⟩ :: number (next + 1) decls
  | .method name offset :: decls => ⟨name, .code offset⟩ :: number next decls

def ofDecls (decls : List SlotDecl) : ClassLayout :=
  ⟨decls.countP SlotDecl.isVar, number 0 decls⟩

def nslots (layout : ClassLayout) : Nat := layout.slots.length

def find? (layout : ClassLayout) (name : Symbol) : Option Slot :=
  layout.slots.find? (·.name = name)

end ClassLayout

structure ClassTable where
  classes : Array ClassLayout
deriving DecidableEq

namespace ClassTable

def empty : ClassTable := ⟨#[]⟩

def size (table : ClassTable) : Nat := table.classes.size

def push (table : ClassTable) (layout : ClassLayout) : ClassTable := ⟨table.classes.push layout⟩

def get? (table : ClassTable) (index : Nat) : Option ClassLayout := table.classes[index]?

/-- The instance variables of a class, none for an unknown one. -/
def nvars (table : ClassTable) (index : Nat) : Nat :=
  match table.get? index with
  | some layout => layout.nvars
  | none => 0

end ClassTable
end SlotVM
