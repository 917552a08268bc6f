import SlotVM.Link.Patch
import SlotVM.Link.Quicken

namespace SlotVM

structure Image where
  code : Code
  classes : ClassTable
  symbols : Symbols
  strings : Array String
  globals : Array Symbol
  entry : Nat

def Program.pool (p : Program) : List (UInt64 × Constant) :=
  p.values.toList.zipIdx.map fun (c, index) => (index.toUInt64, c)

/-- One piece of work of the linker. -/
inductive Task where
  | method (index : UInt64) (m : Method)
  | ins (scene : Scene) (ins : Ins)
  | classDef (index : UInt64) (slots : List UInt64)
  | global (index : UInt64)

namespace Task

def ofMethod (index : UInt64) (m : Method) : List Task :=
  .method index m :: m.code.map (.ins (Draft.scene index m))

def ofMethods : List (UInt64 × Constant) → List Task
  | [] => []
  | (index, .method m) :: pool => ofMethod index m ++ ofMethods pool
  | _ :: pool => ofMethods pool

def ofClasses : List (UInt64 × Constant) → List Task
  | [] => []
  | (index, .classDef slots) :: pool => .classDef index slots :: ofClasses pool
  | _ :: pool => ofClasses pool

def all (p : Program) : List Task :=
  ofMethods p.pool ++ ofClasses p.pool ++ p.slots.map .global

end Task

namespace Draft

def perform (d : Draft) (p : Program) : Task → Except LinkError Draft
  | .method index m => d.beginMethod p index m
  | .ins scene ins => d.quicken p scene ins
  | .classDef index slots => d.addClass p index slots
  | .global index => d.addGlobal p index

def performAll (d : Draft) (p : Program) : List Task → Except LinkError Draft
  | [] => .ok d
  | task :: tasks =>
    match d.perform p task with
    | .error e => .error e
    | .ok d => d.performAll p tasks

def entry (d : Draft) (p : Program) : Except LinkError Nat :=
  match d.find? (.constant p.entry) with
  | some (.method offset _) => .ok offset
  | _ => .error (.badEntry p.entry)

def image (d : Draft) (code : Code) (entry : Nat) : Image :=
  { code := code
    classes := d.classes
    symbols := d.symbols
    strings := d.formats.map (·.2)
    globals := d.globals
    entry := entry }

end Draft

/-- Methods in pool order, then classes, globals, open operands, and last the entry: the first problem in
that order is the one reported. -/
def link (p : Program) : Except LinkFault Image := do
  let d ← LinkFault.ofResult (Draft.empty.performAll p (Task.all p))
  let code ← d.resolvePatches p
  let entry ← LinkFault.ofResult (d.entry p)
  return d.image code entry

end SlotVM
