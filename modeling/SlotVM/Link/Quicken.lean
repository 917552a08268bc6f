import SlotVM.Link.Draft

namespace SlotVM

structure Scene where
  index : UInt64
  frameSize : UInt32

namespace Draft

def add (d : Draft) (sketch : Sketch) : Draft :=
  { d with offset := sketch.opcode.endOffset d.offset, body := d.body.push sketch }

def addReady (d : Draft) (instr : Instr) : Draft := d.add (.ready instr)

def checkLocal (d : Draft) (p : Program) (scene : Scene) (index : UInt32) :
    Except LinkError Unit :=
  if index < scene.frameSize then .ok ()
  else .error (.badLocal (d.subject p (.constant scene.index)) index scene.frameSize)

def quicken (d : Draft) (p : Program) (scene : Scene) : Ins → Except LinkError Draft
  | .label name => do
    let (d, symbol) ← d.intern p name
    d.define p (.name symbol) (.label d.offset)
  | .lit idx => do
    match ← p.constant idx "literal" with
    | .int value => return d.addReady (.int value)
    | .null => return d.addReady .null
    | other => .error (.unsupportedLiteral idx other.kindName)
  | .printf format arity => do
    let (d, place) ← d.format p format
    return d.addReady (.printf arity place)
  | .array => return d.addReady .array
  | .object index => return d.add (.object index)
  | .slot name => do
    let (d, symbol) ← d.intern p name
    return d.addReady (.slot symbol.id.toUInt64)
  | .setSlot name => do
    let (d, symbol) ← d.intern p name
    return d.addReady (.setSlot symbol.id.toUInt64)
  | .callSlot name arity => do
    let (d, symbol) ← d.intern p name
    return d.addReady (.callSlot arity symbol.id.toUInt64)
  | .call name arity => do
    let (d, symbol) ← d.intern p name
    return d.add (.call arity symbol)
  | .setLocal idx => do
    d.checkLocal p scene idx
    return d.addReady (.setLocal idx)
  | .getLocal idx => do
    d.checkLocal p scene idx
    return d.addReady (.getLocal idx)
  | .setGlobal name => do
    let (d, symbol) ← d.intern p name
    return d.add (.setGlobal symbol)
  | .getGlobal name => do
    let (d, symbol) ← d.intern p name
    return d.add (.getGlobal symbol)
  | .branch name => do
    let (d, symbol) ← d.intern p name
    return d.add (.branch symbol)
  | .goto name => do
    let (d, symbol) ← d.intern p name
    return d.add (.goto symbol)
  | .ret => return d.addReady .ret
  | .drop => return d.addReady .drop

def saturatingAdd (a b : UInt32) : UInt32 := (min (a.toNat + b.toNat) 0xFFFFFFFF).toUInt32

def scene (index : UInt64) (m : Method) : Scene := ⟨index, saturatingAdd m.nargs m.nlocals⟩

def beginMethod (d : Draft) (p : Program) (index : UInt64) (m : Method) : Except LinkError Draft := do
  let d ← d.define p (.constant index) (.method d.offset m.nargs)
  return d.addReady (.frame m.nargs m.nlocals)

def declare (d : Draft) (p : Program) (index : UInt64) : Except LinkError (Draft × SlotDecl) := do
  match ← p.constant index "slot or method" with
  | .slot name =>
    let (d, symbol) ← d.intern p name
    return (d, .var symbol)
  | .method m =>
    let (d, symbol) ← d.intern p m.name
    match ← d.resolve p (.constant index) with
    | .method offset _ => return (d, .method symbol offset)
    | other =>
      .error (.symbolKind (d.subject p (.constant index)) "method" other.kindName)
  | other => .error (.badConstant index "slot or method" other.kindName)

def declareAll (d : Draft) (p : Program) :
    List UInt64 → Except LinkError (Draft × List SlotDecl)
  | [] => .ok (d, [])
  | index :: indices => do
    let (d, decl) ← d.declare p index
    let (d, decls) ← d.declareAll p indices
    return (d, decl :: decls)

def addClass (d : Draft) (p : Program) (index : UInt64) (slots : List UInt64) :
    Except LinkError Draft := do
  let (d, decls) ← d.declareAll p slots
  let place := d.classes.size
  { d with classes := d.classes.push (.ofDecls decls) }.define p (.constant index) (.classDef place)

def addGlobal (d : Draft) (p : Program) (index : UInt64) : Except LinkError Draft := do
  match ← p.constant index "method or slot" with
  | .method m =>
    let entry ← d.resolve p (.constant index)
    let (d, symbol) ← d.intern p m.name
    d.define p (.name symbol) entry
  | .slot name =>
    let (d, symbol) ← d.intern p name
    return { d with globals := d.globals.push symbol }
  | other => .error (.badGlobal index other.kindName)

end Draft
end SlotVM
