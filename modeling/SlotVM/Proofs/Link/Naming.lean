import SlotVM.Proofs.Link.Interning
import SlotVM.Proofs.Link.Listing

namespace SlotVM

namespace Symbols

def Names (symbols : Symbols) (text : String) (symbol : Symbol) : Prop :=
  symbols.name? symbol = some text

theorem Sound.lookup?_eq_some_iff {p : Program} {symbols : Symbols} (sound : symbols.Sound p)
    (few : symbols.size < 2 ^ 32) {name : String} {symbol : Symbol} :
    symbols.lookup? name = some symbol ↔ symbols.Names name symbol := by
  constructor
  · intro found
    exact Gave.name? few (exists_of_lookup? found)
  · intro named
    have listed : name ∈ symbols.names.toList := Array.mem_toList_iff.mpr (Array.mem_of_getElem? named)
    cases found : symbols.lookup? name with
    | none => exact absurd listed (lookup?_eq_none_iff.mp found)
    | some other =>
      rw [sound.symbol_unique (Gave.name? few (exists_of_lookup? found)) named]

theorem Sound.eq_iff {p : Program} {symbols : Symbols} (sound : symbols.Sound p) {a b : Symbol}
    {s t : String} (first : symbols.Names s a) (second : symbols.Names t b) : a = b ↔ s = t := by
  constructor
  · rintro rfl
    exact Option.some.inj (first.symm.trans second)
  · rintro rfl
    exact sound.symbol_unique first second

theorem nameOf_eq {symbols : Symbols} {symbol : Symbol} {name : String}
    (named : symbols.Names name symbol) : symbols.nameOf symbol = name :=
  congrArg (Option.getD · "<unknown>") named

end Symbols

theorem forall₂_findIdx? {α β : Type} {R : α → β → Prop} {as : List α} {bs : List β} {f : α → Bool}
    {g : β → Bool} (related : List.Forall₂ R as bs) (same : ∀ a b, R a b → f a = g b) :
    as.findIdx? f = bs.findIdx? g := by
  induction related with
  | nil => rfl
  | cons here _ ih => rw [List.findIdx?_cons, List.findIdx?_cons, same _ _ here, ih]

theorem ClassLayout.names_number (next : Nat) (decls : List SlotDecl) :
    List.Forall₂ (fun decl slot => slot.name = decl.name) decls (number next decls) := by
  induction decls generalizing next with
  | nil => exact .nil
  | cons decl decls ih =>
    cases decl with
    | var name => exact .cons rfl (ih (next + 1))
    | method name offset => exact .cons rfl (ih next)

theorem Titles.slots {p : Program} {named : String → Symbol → Prop} {members : List UInt64}
    {layout : ClassLayout} (titles : Titles p named members layout) :
    List.Forall₂ (fun index slot => ∃ text, p.memberName? index = some text ∧ named text slot.name)
      members layout.slots := by
  obtain ⟨decls, rfl, titled⟩ := titles
  apply forall₂_trans titled (ClassLayout.names_number 0 decls)
  intro index decl slot titled same
  rw [same]
  exact titled.symbol

theorem Titles.find?_eq {p : Program} {symbols : Symbols} (sound : symbols.Sound p)
    {members : List UInt64} {layout : ClassLayout} (titles : Titles p symbols.Names members layout)
    (symbol : Symbol) :
    layout.find? symbol = (symbols.name? symbol).bind fun text =>
      (members.findIdx? (p.memberName? · = some text)).bind (layout.slots[·]?) := by
  cases known : symbols.name? symbol with
  | none =>
    rw [ClassLayout.find?, Option.bind_none, List.find?_eq_none]
    intro slot member
    obtain ⟨index, -, text, -, named⟩ := mem_forall₂ titles.slots.flip member
    rw [decide_eq_true_eq]
    rintro rfl
    cases known.symm.trans named
  | some text =>
    rw [ClassLayout.find?, List.find?_eq_bind_findIdx?_getElem?, Option.bind_some]
    congr 1
    symm
    apply forall₂_findIdx? titles.slots
    rintro index slot ⟨text', member, named⟩
    rw [decide_eq_decide, member, Option.some.injEq, sound.eq_iff named known]

/-- The entries before the pass are set, those after it still empty. -/
theorem foldl_tabulate {α : Type} (ofName? : String → Option α) (names : List String)
    (done : List (Option α)) (few : done.length + names.length < 2 ^ 32) :
    (names.zipIdx done.length).foldl
        (fun table (name, place) => table.setIfInBounds place.toUInt32.toNat (ofName? name))
        (done ++ List.replicate names.length none).toArray =
      (done ++ names.map ofName?).toArray := by
  induction names generalizing done with
  | nil => rfl
  | cons name names ih =>
    rw [List.length_cons] at few
    have set : (done ++ List.replicate (names.length + 1) none).toArray.setIfInBounds
        done.length.toUInt32.toNat (ofName? name) =
        (done ++ [ofName? name] ++ List.replicate names.length none).toArray := by
      rw [toNat_toUInt32 (by omega)]
      simp [List.replicate_succ]
    have next := ih (done ++ [ofName? name]) (by rw [List.length_append, List.length_singleton]; omega)
    rw [List.length_append, List.length_singleton, ← set] at next
    rw [List.append_assoc done [ofName? name]] at next
    exact next

theorem Symbols.tabulate_eq {α : Type} {symbols : Symbols} (few : symbols.size < 2 ^ 32)
    (ofName? : String → Option α) : symbols.tabulate ofName? = symbols.names.map ofName? := by
  have length : symbols.names.toList.length = symbols.size := Array.length_toList
  have pass := foldl_tabulate ofName? symbols.names.toList [] (by simpa [length] using few)
  rw [length, List.nil_append, List.nil_append, List.toArray_replicate] at pass
  rw [Symbols.tabulate]
  apply pass.trans
  rw [← Array.toList_map]

theorem Symbols.getElem?_tabulate {α : Type} {symbols : Symbols} (few : symbols.size < 2 ^ 32)
    (ofName? : String → Option α) (symbol : Symbol) :
    (symbols.tabulate ofName?)[symbol.id.toNat]?.join = (symbols.name? symbol).bind ofName? := by
  rw [tabulate_eq few, Array.getElem?_map, name?]
  cases symbols.names[symbol.id.toNat]? <;> rfl

/-- What has no symbol is called by a name that no built-in has. -/
theorem Symbols.bind_name? {α : Type} (symbols : Symbols) {ofName? : String → Option α}
    (unknown : ofName? "<unknown>" = none) (symbol : Symbol) :
    (symbols.name? symbol).bind ofName? = ofName? (symbols.nameOf symbol) := by
  rw [nameOf]
  cases symbols.name? symbol with
  | none => exact unknown.symm
  | some name => rfl

theorem Draft.close_symbol? {p : Program} {d : Draft} {sketch : Sketch} {instr : Instr}
    (closed : d.close p sketch = .ok instr) : instr.symbol? = sketch.symbol? := by
  cases sketch with
  | ready =>
    cases closed
    rfl
  | _ =>
    obtain ⟨_, -, closed⟩ := bind_eq_ok.mp closed
    cases closed
    rfl

/-- Each name operand, slot and global of an image has a symbol that stands for its string. -/
structure Image.Spells (p : Program) (image : Image) : Prop where
  code : ∃ instrs, image.code.Reads 0 instrs image.code.size ∧
    List.Forall₂ (fun line instr => Spelled p image.symbols.Names line instr.opcode instr.symbol?)
      (p.lines.filter p.emits) instrs
  classes : List.Forall₂ (Titles p image.symbols.Names) p.classes image.classes.classes.toList
  globals : List.Forall₂ image.symbols.Names p.globalNames image.globals.toList

section
variable {p : Program} {image : Image}

theorem link_spells (linked : link p = .ok image) (few : image.symbols.size < 2 ^ 32) :
    image.Spells p ∧ image.symbols.Sound p := by
  obtain ⟨d, instrs, entry, performed, closed, entered, rfl⟩ := link_eq_ok_iff.mp linked
  have start : Draft.Spelt p [] .empty := ⟨.refl, .nil, .nil, .nil⟩
  have spelt := start.performAll performed
  rw [List.nil_append] at spelt
  have body := spelt.body
  have classes := spelt.classes
  have globals := spelt.globals
  rw [Task.lines_all] at body
  rw [Task.classes_all] at classes
  rw [Task.globals_all] at globals
  -- with so few names no place was cut to make a symbol of it
  have named : ∀ text symbol, d.symbols.Gave text symbol → d.symbols.Names text symbol := by
    intro text symbol gave
    exact gave.name? few
  refine ⟨⟨⟨instrs, Code.reads_foldl_emit [] instrs, ?_⟩, ?_, ?_⟩, ?_⟩
  · apply forall₂_trans body (mapM_ok closed)
    intro line sketch instr spelled closed
    rw [Draft.close_opcode closed, Draft.close_symbol? closed]
    exact spelled.imp named
  · exact classes.imp fun _ _ titles => titles.imp named
  · exact globals.imp named
  · exact ((Draft.empty_sound p).grows spelt.grows).symbols

/-- Resolving by symbol is resolving by name: symbols are equal when the strings are, a class has the slot
of the first member of that name, and the table of built-ins has what the name has. -/
theorem link_resolves_by_name (linked : link p = .ok image) (few : image.symbols.size < 2 ^ 32) :
    image.Spells p ∧ image.symbols.names.toList.Nodup ∧
    (∀ s t a b, image.symbols.Names s a → image.symbols.Names t b → (a = b ↔ s = t)) ∧
    (∀ s a, image.symbols.Names s a →
      image.symbols.nameOf a = s ∧ image.symbols.lookup? s = some a ∧
      (Builtins.ofSymbols image.symbols).intOp? a = IntOp.ofName? s ∧
      (Builtins.ofSymbols image.symbols).arrayOp? a = ArrayOp.ofName? s) ∧
    (∀ k members layout, p.classes[k]? = some members → image.classes.get? k = some layout →
      ∀ symbol, layout.find? symbol = (image.symbols.name? symbol).bind fun text =>
        (members.findIdx? (p.memberName? · = some text)).bind (layout.slots[·]?)) ∧
    (∀ symbol : Symbol, image.symbols.size ≤ symbol.id.toNat →
      (Builtins.ofSymbols image.symbols).intOp? symbol = none ∧
      (Builtins.ofSymbols image.symbols).arrayOp? symbol = none) ∧
    (∀ symbol, IntOp.ofName? (image.selector symbol).name =
        (Builtins.ofSymbols image.symbols).intOp? symbol ∧
      ArrayOp.ofName? (image.selector symbol).name =
        (Builtins.ofSymbols image.symbols).arrayOp? symbol) := by
  obtain ⟨spells, sound⟩ := link_spells linked few
  have intOp (symbol : Symbol) : (Builtins.ofSymbols image.symbols).intOp? symbol =
      (image.symbols.name? symbol).bind IntOp.ofName? := Symbols.getElem?_tabulate few _ symbol
  have arrayOp (symbol : Symbol) : (Builtins.ofSymbols image.symbols).arrayOp? symbol =
      (image.symbols.name? symbol).bind ArrayOp.ofName? := Symbols.getElem?_tabulate few _ symbol
  refine ⟨spells, sound.nodup, fun _ _ _ _ => sound.eq_iff, ?_, ?_, ?_, ?_⟩
  · intro s a named
    have known : image.symbols.name? a = some s := named
    refine ⟨Symbols.nameOf_eq named, (sound.lookup?_eq_some_iff few).mpr named, ?_, ?_⟩
    · rw [intOp, known, Option.bind_some]
    · rw [arrayOp, known, Option.bind_some]
  · intro k members layout source target symbol
    rw [ClassTable.get?, ← Array.getElem?_toList] at target
    rcases forall₂_getElem? spells.classes k with ⟨absent, -⟩ | ⟨_, _, here, there, titles⟩
    · cases absent.symm.trans source
    · cases here.symm.trans source
      cases there.symm.trans target
      exact titles.find?_eq sound symbol
  · intro symbol outside
    have unknown : image.symbols.name? symbol = none := Array.getElem?_eq_none outside
    rw [intOp, arrayOp, unknown]
    exact ⟨rfl, rfl⟩
  · -- the machine asks for a built-in by the name that messages show
    intro symbol
    rw [intOp, arrayOp]
    exact ⟨(image.symbols.bind_name? rfl symbol).symm, (image.symbols.bind_name? rfl symbol).symm⟩

end

theorem link_getter_resolves_by_name :
    ∃ image layout, link Program.getter = .ok image ∧ image.symbols.size < 2 ^ 32 ∧
      image.classes.get? 0 = some layout ∧ image.symbols.lookup? "get" = some ⟨1⟩ ∧
      layout.find? ⟨1⟩ = layout.slots[1]? ∧
      (Builtins.ofSymbols image.symbols).arrayOp? ⟨1⟩ = some .get := by
  have evaluated : (do
      let image ← (link Program.getter).toOption
      let layout ← image.classes.get? 0
      return (layout, image.symbols.size, image.symbols.name? ⟨1⟩)) =
        some (.ofDecls [.var ⟨0⟩, .method ⟨1⟩ 0], 4, some "get") := by
    rw [link_eq]
    decide +kernel
  obtain ⟨image, linked, evaluated⟩ := toOption_bind_eq_some.mp evaluated
  obtain ⟨layout, stored, evaluated⟩ := Option.bind_eq_some_iff.mp evaluated
  obtain ⟨-, size, named⟩ : _ ∧ image.symbols.size = 4 ∧ image.symbols.name? ⟨1⟩ = some "get" := by
    simpa using evaluated
  have few : image.symbols.size < 2 ^ 32 := by omega
  obtain ⟨-, -, -, names, find, -⟩ := link_resolves_by_name linked few
  obtain ⟨-, lookup, -, arrayOp⟩ := names "get" ⟨1⟩ named
  have found := find 0 [6, 8] layout (by decide) stored ⟨1⟩
  rw [named] at found
  exact ⟨image, layout, linked, few, stored, lookup, found, arrayOp⟩

end SlotVM
