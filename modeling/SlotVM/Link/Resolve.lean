import SlotVM.Link.Draft

namespace SlotVM.Draft

def function (d : Draft) (p : Program) (name : Symbol) (arity : UInt32) :
    Except LinkError UInt64 := do
  match ← d.resolve p (.name name) with
  | .method offset nargs =>
    if nargs = arity then return offset.toUInt64
    else .error (.callArity (d.subject p (.name name)) nargs arity)
  | other => .error (.symbolKind (d.subject p (.name name)) "function" other.kindName)

def label (d : Draft) (p : Program) (name : Symbol) : Except LinkError UInt64 := do
  match ← d.resolve p (.name name) with
  | .label offset => return offset.toUInt64
  | other => .error (.symbolKind (d.subject p (.name name)) "label" other.kindName)

def globalPlace (d : Draft) (name : Symbol) : Except LinkError UInt32 :=
  match d.globals.idxOf? name with
  | some place => .ok place.toUInt32
  | none => .error (.unresolvedSymbol (.global (d.symbols.nameOf name)))

def classPlace (d : Draft) (p : Program) (index : UInt64) : Except LinkError Nat := do
  match ← d.resolve p (.constant index) with
  | .classDef place => return place
  | other => .error (.symbolKind (d.subject p (.constant index)) "class" other.kindName)

end SlotVM.Draft
