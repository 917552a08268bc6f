import SlotVM.Link.Resolve

namespace SlotVM

inductive Reference where
  | function (name : Symbol) (arity : UInt32)
  | label (name : Symbol)
  | global (name : Symbol)
  | classArity (index : UInt64)
  | classTag (index : UInt64)
deriving DecidableEq

structure Patch where
  position : Nat
  reference : Reference
deriving DecidableEq

/-- The code of a draft with zeros where an operand is still open, and the patches to come. -/
structure Scaffold where
  code : Code
  patches : Array Patch
deriving DecidableEq

namespace Scaffold

def empty : Scaffold := ⟨.empty, #[]⟩

def opcode (s : Scaffold) (op : Opcode) : Scaffold := { s with code := s.code.putByte op.toByte }

def open32 (s : Scaffold) (reference : Reference) : Scaffold :=
  let code := s.code.align 4
  ⟨code.put32 0, s.patches.push ⟨code.size, reference⟩⟩

def open64 (s : Scaffold) (reference : Reference) : Scaffold :=
  let code := s.code.align 8
  ⟨code.put64 0, s.patches.push ⟨code.size, reference⟩⟩

def write (s : Scaffold) : Sketch → Scaffold
  | .ready instr => { s with code := s.code.emit instr }
  | .object index => ((s.opcode .object).open32 (.classArity index)).open32 (.classTag index)
  | .call arity name =>
    let s := s.opcode .call
    { s with code := s.code.put32 arity }.open64 (.function name arity)
  | .getGlobal name => (s.opcode .getGlobal).open32 (.global name)
  | .setGlobal name => (s.opcode .setGlobal).open32 (.global name)
  | .branch name => (s.opcode .branch).open64 (.label name)
  | .goto name => (s.opcode .goto).open64 (.label name)

end Scaffold

namespace Draft

def scaffold (d : Draft) : Scaffold := d.body.toList.foldl Scaffold.write .empty

def patch (d : Draft) (p : Program) (code : Code) (patch : Patch) : Except LinkFault Code :=
  match patch.reference with
  | .function name arity => do
    let offset ← LinkFault.ofResult (d.function p name arity)
    LinkFault.ofPatched (code.patch64? patch.position offset)
  | .label name => do
    let offset ← LinkFault.ofResult (d.label p name)
    LinkFault.ofPatched (code.patch64? patch.position offset)
  | .global name => do
    let place ← LinkFault.ofResult (d.globalPlace name)
    LinkFault.ofPatched (code.patch32? patch.position place)
  | .classArity index => do
    let place ← LinkFault.ofResult (d.classPlace p index)
    LinkFault.ofPatched (code.patch32? patch.position (d.classes.nvars place).toUInt32)
  | .classTag index => do
    let place ← LinkFault.ofResult (d.classPlace p index)
    LinkFault.ofPatched (code.patch32? patch.position place.toUInt32)

/-- The code of a draft once every placeholder has been patched, in the order of the code. -/
def resolvePatches (d : Draft) (p : Program) : Except LinkFault Code :=
  d.scaffold.patches.toList.foldlM (d.patch p) d.scaffold.code

end Draft
end SlotVM
