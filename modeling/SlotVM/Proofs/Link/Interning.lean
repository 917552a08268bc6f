import SlotVM.Machine.Step
import SlotVM.Proofs.Link.Tracking

namespace SlotVM

theorem rel_imp {α β : Type} {R S : α → β → Prop} (imp : ∀ a b, R a b → S a b) {x : Option α}
    {y : Option β} (related : Option.Rel R x y) : Option.Rel S x y := by
  cases related with
  | none => exact .none
  | some related => exact .some (imp _ _ related)

namespace Symbols

def Gave (symbols : Symbols) (name : String) (symbol : Symbol) : Prop :=
  ∃ place : Nat, symbols.names.toList[place]? = some name ∧ symbol = ⟨place.toUInt32⟩

theorem gave_intern (symbols : Symbols) (name : String) :
    (symbols.intern name).1.Gave name (symbols.intern name).2 := by
  cases found : symbols.lookup? name with
  | none =>
    rw [intern_of_none found]
    refine ⟨symbols.names.size, ?_, rfl⟩
    rw [toList_names_add]
    simp
  | some symbol =>
    rw [intern_of_some found]
    exact exists_of_lookup? found

theorem Gave.extend {symbols symbols' : Symbols} {name : String} {symbol : Symbol}
    (gave : symbols.Gave name symbol) (names : symbols.names.toList <+: symbols'.names.toList) :
    symbols'.Gave name symbol := by
  obtain ⟨place, here, same⟩ := gave
  obtain ⟨rest, names⟩ := names
  refine ⟨place, ?_, same⟩
  rw [← names, List.getElem?_append_left (List.getElem?_eq_some_iff.mp here).1]
  exact here

theorem Gave.name? {symbols : Symbols} (few : symbols.size < 2 ^ 32) {name : String}
    {symbol : Symbol} (gave : symbols.Gave name symbol) : symbols.name? symbol = some name := by
  obtain ⟨place, here, rfl⟩ := gave
  have inside : place < symbols.names.toList.length := (List.getElem?_eq_some_iff.mp here).1
  have size : symbols.names.toList.length = symbols.size := Array.length_toList
  rw [name?_eq_some, toNat_toUInt32 (by omega)]
  exact here

end Symbols

def Program.operandName? (p : Program) : Line → Option String
  | .ins (.slot name) | .ins (.setSlot name) | .ins (.callSlot name _) => p.string? name
  | _ => none

def Program.memberName? (p : Program) (index : UInt64) : Option String :=
  match p.constant? index with
  | some (.slot name) => p.string? name
  | some (.method m) => p.string? m.name
  | _ => none

def Instr.symbol? : Instr → Option Symbol
  | .slot name | .setSlot name | .callSlot _ name => some (.ofOperand name)
  | _ => none

def Sketch.symbol? : Sketch → Option Symbol
  | .ready instr => instr.symbol?
  | _ => none

def SlotDecl.name : SlotDecl → Symbol
  | .var name => name
  | .method name _ => name

@[simp] theorem Symbol.ofOperand_toUInt64 (symbol : Symbol) :
    Symbol.ofOperand symbol.id.toUInt64 = symbol := by
  simp [Symbol.ofOperand]

/-- Something laid out for a line is of the line's kind and carries the symbol of the line's name. -/
structure Spelled (p : Program) (named : String → Symbol → Prop) (line : Line) (op : Opcode)
    (symbol : Option Symbol) : Prop where
  opcode : p.opcode? line = some op
  symbol : Option.Rel named (p.operandName? line) symbol

structure Titled (p : Program) (named : String → Symbol → Prop) (index : UInt64) (decl : SlotDecl) :
    Prop where
  isVar : decl.isVar = p.isVariable index
  symbol : ∃ text, p.memberName? index = some text ∧ named text decl.name

def Titles (p : Program) (named : String → Symbol → Prop) (members : List UInt64)
    (layout : ClassLayout) : Prop :=
  ∃ decls, layout = .ofDecls decls ∧ List.Forall₂ (Titled p named) members decls

section
variable {p : Program} {named named' : String → Symbol → Prop}

theorem Spelled.imp (imp : ∀ name symbol, named name symbol → named' name symbol) {line : Line}
    {op : Opcode} {symbol : Option Symbol} (spelled : Spelled p named line op symbol) :
    Spelled p named' line op symbol :=
  ⟨spelled.opcode, rel_imp imp spelled.symbol⟩

theorem Titled.imp (imp : ∀ name symbol, named name symbol → named' name symbol) {index : UInt64}
    {decl : SlotDecl} (titled : Titled p named index decl) : Titled p named' index decl := by
  obtain ⟨text, name, here⟩ := titled.symbol
  exact ⟨titled.isVar, text, name, imp text decl.name here⟩

theorem Titles.imp (imp : ∀ name symbol, named name symbol → named' name symbol)
    {members : List UInt64} {layout : ClassLayout} (titles : Titles p named members layout) :
    Titles p named' members layout := by
  obtain ⟨decls, rfl, titled⟩ := titles
  exact ⟨decls, rfl, titled.imp fun _ _ titled => titled.imp imp⟩

end

namespace Draft

structure Spells (p : Program) (task : Task) (d d' : Draft) : Prop where
  grows : Grows p d d'
  body : ∃ added, d'.body.toList = d.body.toList ++ added ∧
    List.Forall₂ (fun line sketch => Spelled p d'.symbols.Gave line sketch.opcode sketch.symbol?)
      (task.line?.toList.filter p.emits) added
  classes : ∃ added, d'.classes.classes.toList = d.classes.classes.toList ++ added ∧
    List.Forall₂ (Titles p d'.symbols.Gave) task.class?.toList added
  globals : ∃ added, d'.globals.toList = d.globals.toList ++ added ∧
    List.Forall₂ d'.symbols.Gave (task.global? p).toList added

section
variable {p : Program} {d d₁ d' : Draft} {task : Task}

theorem Grows.gave (grown : Grows p d d') (name : String) (symbol : Symbol)
    (gave : d.symbols.Gave name symbol) : d'.symbols.Gave name symbol :=
  gave.extend grown.names

theorem intern_gave {index : UInt64} {symbol : Symbol} (interned : d.intern p index = .ok (d', symbol)) :
    Widens p d d' ∧ ∃ text, p.string? index = some text ∧ d'.symbols.Gave text symbol := by
  obtain ⟨text, string, interned⟩ := bind_eq_ok.mp interned
  have string := p.string_ok string
  cases interned
  exact ⟨⟨Grows.refl.intern string, rfl, rfl, rfl, rfl, rfl⟩, text, string,
    d.symbols.gave_intern text⟩

theorem format_widens {index place : UInt64} (formatted : d.format p index = .ok (d', place)) :
    Widens p d d' := by
  unfold Draft.format at formatted
  cases found : d.formats.findIdx? (·.1 = index) with
  | some known =>
    simp only [found, Except.ok.injEq, Prod.mk.injEq] at formatted
    obtain ⟨rfl, -⟩ := formatted
    exact .refl
  | none =>
    simp only [found] at formatted
    obtain ⟨text, string, formatted⟩ := bind_eq_ok.mp formatted
    cases formatted
    exact ⟨Grows.refl.format found (p.string_ok string), rfl, rfl, rfl, rfl, rfl⟩

theorem Widens.spells_add (wider : Widens p d d₁) {scene : Scene} {ins : Ins} {sketch : Sketch}
    (spelled : Spelled p d₁.symbols.Gave (.ins ins) sketch.opcode sketch.symbol?) :
    Spells p (.ins scene ins) d (d₁.add sketch) := by
  have grown : Grows p d₁ (d₁.add sketch) := Grows.refl.add sketch
  have emits : p.emits (.ins ins) = true := by simp [Program.emits, spelled.opcode]
  refine ⟨wider.grows.trans grown, ⟨[sketch], ?_, ?_⟩, ⟨[], ?_, .nil⟩, ⟨[], ?_, .nil⟩⟩
  · simp [Draft.add, wider.body]
  · simp [Task.line?, emits, spelled.imp grown.gave]
  · simp [Draft.add, wider.classes]
  · simp [Draft.add, wider.globals]

theorem Widens.spells_define (wider : Widens p d d₁) {key : Key} (fresh : d₁.find? key = none)
    (entry : Entry) (silent : task.line?.toList.filter p.emits = [])
    (plain : task.class? = none ∧ task.global? p = none) :
    Spells p task d { d₁ with entries := (key, entry) :: d₁.entries } := by
  refine ⟨wider.grows.trans (Grows.refl.define fresh entry), ⟨[], ?_, ?_⟩, ⟨[], ?_, ?_⟩, ⟨[], ?_, ?_⟩⟩
  · simp [wider.body]
  · simp [silent]
  · simp [wider.classes]
  · simp [plain.1]
  · simp [wider.globals]
  · simp [plain.2]

theorem quicken_spells {scene : Scene} {ins : Ins} (quickened : d.quicken p scene ins = .ok d') :
    Spells p (.ins scene ins) d d' := by
  cases ins with
  | label index =>
    -- interned all the same: the symbol is the key of the definition
    obtain ⟨⟨d₁, symbol⟩, interned, defined⟩ := bind_eq_ok.mp quickened
    obtain ⟨wider, -⟩ := intern_gave interned
    obtain ⟨fresh, rfl⟩ := define_ok defined
    exact wider.spells_define fresh _ rfl ⟨rfl, rfl⟩
  | lit idx =>
    obtain ⟨c, constant, quickened⟩ := bind_eq_ok.mp quickened
    have literal := p.constant_ok constant
    cases c with
    | int value =>
      cases quickened
      exact Widens.refl.spells_add ⟨by simp [Program.opcode?, Program.insOpcode?, literal]; rfl, .none⟩
    | null =>
      cases quickened
      exact Widens.refl.spells_add ⟨by simp [Program.opcode?, Program.insOpcode?, literal]; rfl, .none⟩
    | _ => cases quickened
  | printf format arity =>
    obtain ⟨⟨d₁, place⟩, formatted, quickened⟩ := bind_eq_ok.mp quickened
    cases quickened
    exact (format_widens formatted).spells_add ⟨rfl, .none⟩
  | array | object | ret | drop =>
    cases quickened
    exact Widens.refl.spells_add ⟨rfl, .none⟩
  | setLocal | getLocal =>
    obtain ⟨_, _, quickened⟩ := bind_eq_ok.mp quickened
    cases quickened
    exact Widens.refl.spells_add ⟨rfl, .none⟩
  | slot name | setSlot name | callSlot name arity =>
    obtain ⟨⟨d₁, symbol⟩, interned, quickened⟩ := bind_eq_ok.mp quickened
    obtain ⟨wider, text, string, gave⟩ := intern_gave interned
    cases quickened
    apply wider.spells_add
    constructor
    · rfl
    · simp only [Program.operandName?, string, Sketch.symbol?, Instr.symbol?,
        Symbol.ofOperand_toUInt64]
      exact .some gave
  | call | setGlobal | getGlobal | branch | goto =>
    obtain ⟨⟨d₁, symbol⟩, interned, quickened⟩ := bind_eq_ok.mp quickened
    obtain ⟨wider, -⟩ := intern_gave interned
    cases quickened
    exact wider.spells_add ⟨rfl, .none⟩

theorem beginMethod_spells {index : UInt64} {m : Method} (begun : d.beginMethod p index m = .ok d') :
    Spells p (.method index m) d d' := by
  obtain ⟨d₁, defined, begun⟩ := bind_eq_ok.mp begun
  obtain ⟨fresh, rfl⟩ := define_ok defined
  cases begun
  refine ⟨(Grows.refl.define fresh _).add _, ⟨[.ready (.frame m.nargs m.nlocals)], ?_, ?_⟩,
    ⟨[], ?_, .nil⟩, ⟨[], ?_, .nil⟩⟩
  · simp [addReady, Draft.add]
  · exact .cons ⟨rfl, .none⟩ .nil
  · simp [addReady, Draft.add]
  · simp [addReady, Draft.add]

theorem declare_titled {index : UInt64} {decl : SlotDecl}
    (declared : d.declare p index = .ok (d', decl)) : Widens p d d' ∧ Titled p d'.symbols.Gave index decl := by
  obtain ⟨c, constant, declared⟩ := bind_eq_ok.mp declared
  have constant := p.constant_ok constant
  cases c with
  | slot name =>
    obtain ⟨⟨d₁, symbol⟩, interned, declared⟩ := bind_eq_ok.mp declared
    obtain ⟨wider, text, string, gave⟩ := intern_gave interned
    cases declared
    refine ⟨wider, ?_, text, ?_, gave⟩
    · simp [SlotDecl.isVar, Program.isVariable, constant]
    · simp [Program.memberName?, constant, string]
  | method m =>
    obtain ⟨⟨d₁, symbol⟩, interned, declared⟩ := bind_eq_ok.mp declared
    obtain ⟨wider, text, string, gave⟩ := intern_gave interned
    obtain ⟨entry, -, declared⟩ := bind_eq_ok.mp declared
    cases entry with
    | method offset nargs =>
      cases declared
      refine ⟨wider, ?_, text, ?_, gave⟩
      · simp [SlotDecl.isVar, Program.isVariable, constant]
      · simp [Program.memberName?, constant, string]
    | _ => cases declared
  | _ => cases declared

theorem declareAll_titled {members : List UInt64} {decls : List SlotDecl}
    (declared : d.declareAll p members = .ok (d', decls)) :
    Widens p d d' ∧ List.Forall₂ (Titled p d'.symbols.Gave) members decls := by
  induction members generalizing d decls with
  | nil =>
    cases declared
    exact ⟨.refl, .nil⟩
  | cons index members ih =>
    obtain ⟨⟨d₁, decl⟩, first, declared⟩ := bind_eq_ok.mp declared
    obtain ⟨⟨d₂, rest⟩, others, declared⟩ := bind_eq_ok.mp declared
    obtain ⟨wider, titled⟩ := declare_titled first
    cases declared
    obtain ⟨wider', titled'⟩ := ih others
    exact ⟨wider.trans wider', .cons (titled.imp wider'.grows.gave) titled'⟩

theorem addClass_spells {index : UInt64} {members : List UInt64}
    (added : d.addClass p index members = .ok d') : Spells p (.classDef index members) d d' := by
  obtain ⟨⟨d₁, decls⟩, declared, added⟩ := bind_eq_ok.mp added
  obtain ⟨wider, titled⟩ := declareAll_titled declared
  obtain ⟨fresh, rfl⟩ := define_ok added
  have grown : Grows p d₁ _ := (Grows.addClass .refl (ClassLayout.ofDecls decls)).define fresh
    (.classDef d₁.classes.size)
  refine ⟨wider.grows.trans grown, ⟨[], ?_, .nil⟩, ⟨[.ofDecls decls], ?_, ?_⟩, ⟨[], ?_, .nil⟩⟩
  · simp [wider.body]
  · simp [ClassTable.push, wider.classes]
  · exact .cons (Titles.imp grown.gave ⟨decls, rfl, titled⟩) .nil
  · simp [wider.globals]

theorem addGlobal_spells {index : UInt64} (added : d.addGlobal p index = .ok d') :
    Spells p (.global index) d d' := by
  obtain ⟨c, constant, added⟩ := bind_eq_ok.mp added
  have constant := p.constant_ok constant
  cases c with
  | method m =>
    obtain ⟨entry, -, added⟩ := bind_eq_ok.mp added
    obtain ⟨⟨d₁, symbol⟩, interned, added⟩ := bind_eq_ok.mp added
    obtain ⟨wider, -⟩ := intern_gave interned
    obtain ⟨fresh, rfl⟩ := define_ok added
    have plain : p.variableName? index = none := by simp [Program.variableName?, constant]
    exact wider.spells_define fresh _ rfl ⟨rfl, plain⟩
  | slot name =>
    obtain ⟨⟨d₁, symbol⟩, interned, added⟩ := bind_eq_ok.mp added
    obtain ⟨wider, text, string, gave⟩ := intern_gave interned
    cases added
    have named : p.variableName? index = some text := by
      simp [Program.variableName?, constant, string]
    refine ⟨wider.grows.trans (Grows.refl.addGlobal symbol), ⟨[], ?_, .nil⟩, ⟨[], ?_, .nil⟩,
      ⟨[symbol], ?_, ?_⟩⟩
    · simp [wider.body]
    · simp [wider.classes]
    · simp [wider.globals]
    · simp [Task.global?, named, gave]
  | _ => cases added

theorem perform_spells (performed : d.perform p task = .ok d') : Spells p task d d' := by
  cases task with
  | method index m => exact beginMethod_spells performed
  | ins scene ins => exact quicken_spells performed
  | classDef index members => exact addClass_spells performed
  | global index => exact addGlobal_spells performed

structure Spelt (p : Program) (done : List Task) (d : Draft) : Prop where
  grows : Grows p empty d
  body : List.Forall₂ (fun line sketch => Spelled p d.symbols.Gave line sketch.opcode sketch.symbol?)
    ((done.filterMap Task.line?).filter p.emits) d.body.toList
  classes : List.Forall₂ (Titles p d.symbols.Gave) (done.filterMap Task.class?)
    d.classes.classes.toList
  globals : List.Forall₂ d.symbols.Gave (done.filterMap (Task.global? p)) d.globals.toList

theorem Spelt.step {done : List Task} (spelt : Spelt p done d) (spells : Spells p task d d') :
    Spelt p (done ++ [task]) d' := by
  have kept := spells.grows.gave
  obtain ⟨sketches, body, spelled⟩ := spells.body
  obtain ⟨layouts, classes, titled⟩ := spells.classes
  obtain ⟨symbols, globals, gave⟩ := spells.globals
  refine ⟨spelt.grows.trans spells.grows, ?_, ?_, ?_⟩
  · rw [filterMap_snoc, List.filter_append, body]
    exact List.rel_append (spelt.body.imp fun _ _ spelled => spelled.imp kept) spelled
  · rw [filterMap_snoc, classes]
    exact List.rel_append (spelt.classes.imp fun _ _ titled => titled.imp kept) titled
  · rw [filterMap_snoc, globals]
    exact List.rel_append (spelt.globals.imp kept) gave

theorem Spelt.performAll {done tasks : List Task} (spelt : Spelt p done d)
    (performed : d.performAll p tasks = .ok d') : Spelt p (done ++ tasks) d' := by
  induction tasks generalizing done d with
  | nil =>
    cases performed
    simpa using spelt
  | cons task tasks ih =>
    unfold Draft.performAll at performed
    cases first : d.perform p task with
    | error e => simp [first] at performed
    | ok d₁ =>
      rw [first] at performed
      simpa using ih (spelt.step (perform_spells first)) performed

end
end Draft
end SlotVM
