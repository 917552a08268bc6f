import SlotVM.Proofs.Link.Growth

namespace SlotVM

namespace Task

def line? : Task → Option Line
  | .method _ m => some (.frame m.nargs m.nlocals)
  | .ins _ step => some (.ins step)
  | _ => none

def class? : Task → Option (List UInt64)
  | .classDef _ slots => some slots
  | _ => none

def global? (p : Program) : Task → Option String
  | .global index => p.variableName? index
  | _ => none

def defines? (p : Program) : Task → Option (String ⊕ UInt64)
  | .method index _ => some (.inr index)
  | .ins _ step => (p.labelText? step).map .inl
  | .classDef index _ => some (.inr index)
  | .global index => (p.methodName? index).map .inl

end Task

namespace Draft

def Names (p : Program) (d : Draft) (symbol : Symbol) (index : UInt64) : Prop :=
  ∃ text, p.string? index = some text ∧ d.symbols.name? symbol = some text

def Denotes (d : Draft) : Key → String ⊕ UInt64 → Prop
  | .name symbol, .inl text => d.symbols.name? symbol = some text
  | .constant index, .inr index' => index = index'
  | _, _ => False

inductive Sketched (p : Program) (d : Draft) : Line → Sketch → Prop
  | frame (nargs nlocals : UInt32) :
      Sketched p d (.frame nargs nlocals) (.ready (.frame nargs nlocals))
  | int {idx : UInt64} {value : Int32} (literal : p.constant? idx = some (.int value)) :
      Sketched p d (.ins (.lit idx)) (.ready (.int value))
  | null {idx : UInt64} (literal : p.constant? idx = some .null) :
      Sketched p d (.ins (.lit idx)) (.ready .null)
  | printf {format place : UInt64} {text : String} (arity : UInt32)
      (string : p.string? format = some text)
      (stored : d.formats.toList[place.toNat]? = some (format, text)) :
      Sketched p d (.ins (.printf format arity)) (.ready (.printf arity place))
  | array : Sketched p d (.ins .array) (.ready .array)
  | object (index : UInt64) : Sketched p d (.ins (.object index)) (.object index)
  | slot {name : UInt64} {symbol : Symbol} (named : Names p d symbol name) :
      Sketched p d (.ins (.slot name)) (.ready (.slot symbol.id.toUInt64))
  | setSlot {name : UInt64} {symbol : Symbol} (named : Names p d symbol name) :
      Sketched p d (.ins (.setSlot name)) (.ready (.setSlot symbol.id.toUInt64))
  | callSlot {name : UInt64} {symbol : Symbol} (arity : UInt32) (named : Names p d symbol name) :
      Sketched p d (.ins (.callSlot name arity)) (.ready (.callSlot arity symbol.id.toUInt64))
  | call {name : UInt64} {symbol : Symbol} (arity : UInt32) (named : Names p d symbol name) :
      Sketched p d (.ins (.call name arity)) (.call arity symbol)
  | setLocal (idx : UInt32) : Sketched p d (.ins (.setLocal idx)) (.ready (.setLocal idx))
  | getLocal (idx : UInt32) : Sketched p d (.ins (.getLocal idx)) (.ready (.getLocal idx))
  | setGlobal {name : UInt64} {symbol : Symbol} (named : Names p d symbol name) :
      Sketched p d (.ins (.setGlobal name)) (.setGlobal symbol)
  | getGlobal {name : UInt64} {symbol : Symbol} (named : Names p d symbol name) :
      Sketched p d (.ins (.getGlobal name)) (.getGlobal symbol)
  | branch {name : UInt64} {symbol : Symbol} (named : Names p d symbol name) :
      Sketched p d (.ins (.branch name)) (.branch symbol)
  | goto {name : UInt64} {symbol : Symbol} (named : Names p d symbol name) :
      Sketched p d (.ins (.goto name)) (.goto symbol)
  | ret : Sketched p d (.ins .ret) (.ready .ret)
  | drop : Sketched p d (.ins .drop) (.ready .drop)

inductive Declares (p : Program) (d : Draft) : UInt64 → SlotDecl → Prop
  | var {index name : UInt64} {symbol : Symbol} (slot : p.constant? index = some (.slot name))
      (named : Names p d symbol name) : Declares p d index (.var symbol)
  | method {index : UInt64} {m : Method} {symbol : Symbol} {offset : Nat} {nargs : UInt32}
      (method : p.method? index = some m) (named : Names p d symbol m.name)
      (found : d.find? (.constant index) = some (.method offset nargs)) :
      Declares p d index (.method symbol offset)

def Laid (p : Program) (d : Draft) (slots : List UInt64) (layout : ClassLayout) : Prop :=
  ∃ decls, layout = .ofDecls decls ∧ List.Forall₂ (Declares p d) slots decls

/-- The definitions that a task makes when `offset` bytes and `classes` classes are laid out. -/
inductive Defines (p : Program) (d : Draft) (offset classes : Nat) : Task → Key → Entry → Prop
  | method (index : UInt64) (m : Method) :
      Defines p d offset classes (.method index m) (.constant index) (.method offset m.nargs)
  | label {name : UInt64} {symbol : Symbol} (scene : Scene) (named : Names p d symbol name) :
      Defines p d offset classes (.ins scene (.label name)) (.name symbol) (.label offset)
  | classDef (index : UInt64) (slots : List UInt64) :
      Defines p d offset classes (.classDef index slots) (.constant index) (.classDef classes)
  | function {index : UInt64} {m : Method} {symbol : Symbol} {entry : Entry}
      (method : p.method? index = some m) (named : Names p d symbol m.name)
      (found : d.find? (.constant index) = some entry) :
      Defines p d offset classes (.global index) (.name symbol) entry

section
variable {p : Program} {d d' : Draft}

theorem Names.grows {symbol : Symbol} {index : UInt64} (named : Names p d symbol index)
    (grown : Grows p d d') : Names p d' symbol index := by
  obtain ⟨text, string, named⟩ := named
  exact ⟨text, string, grown.name? named⟩

theorem Denotes.grows {key : Key} {sort : String ⊕ UInt64} (denotes : d.Denotes key sort)
    (grown : Grows p d d') : d'.Denotes key sort := by
  cases key <;> cases sort
  · exact grown.name? denotes
  · exact denotes
  · exact denotes
  · exact denotes

theorem Denotes.unique (sound : d.symbols.Sound p) {key key' : Key} {sort : String ⊕ UInt64}
    (first : d.Denotes key sort) (second : d.Denotes key' sort) : key = key' := by
  cases sort with
  | inl text =>
    cases key <;> cases key' <;> simp only [Denotes] at first second
    rw [sound.symbol_unique first second]
  | inr index =>
    cases key <;> cases key' <;> simp only [Denotes] at first second
    rw [first, second]

theorem Sketched.grows {line : Line} {sketch : Sketch} (sketched : Sketched p d line sketch)
    (grown : Grows p d d') : Sketched p d' line sketch := by
  cases sketched with
  | frame nargs nlocals => exact .frame nargs nlocals
  | int literal => exact .int literal
  | null literal => exact .null literal
  | printf arity string stored =>
    obtain ⟨rest, formats⟩ := grown.formats
    refine .printf arity string ?_
    rw [← formats, List.getElem?_append_left (List.getElem?_eq_some_iff.mp stored).1]
    exact stored
  | array => exact .array
  | object index => exact .object index
  | slot named => exact .slot (named.grows grown)
  | setSlot named => exact .setSlot (named.grows grown)
  | callSlot arity named => exact .callSlot arity (named.grows grown)
  | call arity named => exact .call arity (named.grows grown)
  | setLocal idx => exact .setLocal idx
  | getLocal idx => exact .getLocal idx
  | setGlobal named => exact .setGlobal (named.grows grown)
  | getGlobal named => exact .getGlobal (named.grows grown)
  | branch named => exact .branch (named.grows grown)
  | goto named => exact .goto (named.grows grown)
  | ret => exact .ret
  | drop => exact .drop

theorem Sketched.opcode {line : Line} {sketch : Sketch} (sketched : Sketched p d line sketch) :
    p.opcode? line = some sketch.opcode := by
  cases sketched with
  | int literal | null literal =>
    simp [Program.opcode?, Program.insOpcode?, literal, Sketch.opcode, Instr.opcode]
  | _ => rfl

theorem Declares.grows {index : UInt64} {decl : SlotDecl} (declares : Declares p d index decl)
    (grown : Grows p d d') : Declares p d' index decl := by
  cases declares with
  | var slot named => exact .var slot (named.grows grown)
  | method method named found => exact .method method (named.grows grown) (grown.find? found)

theorem Laid.grows {slots : List UInt64} {layout : ClassLayout} (laid : Laid p d slots layout)
    (grown : Grows p d d') : Laid p d' slots layout := by
  obtain ⟨decls, rfl, declared⟩ := laid
  exact ⟨decls, rfl, declared.imp fun _ _ declares => declares.grows grown⟩

theorem Defines.grows {offset classes : Nat} {task : Task} {key : Key} {entry : Entry}
    (defines : Defines p d offset classes task key entry) (grown : Grows p d d') :
    Defines p d' offset classes task key entry := by
  cases defines with
  | method index m => exact .method index m
  | label scene named => exact .label scene (named.grows grown)
  | classDef index slots => exact .classDef index slots
  | function method named found => exact .function method (named.grows grown) (grown.find? found)

end
end Draft
end SlotVM
