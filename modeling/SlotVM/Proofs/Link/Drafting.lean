import SlotVM.Proofs.Link.Sketching

namespace SlotVM

theorem Program.constant_ok {p : Program} {index : UInt64} {expected : String} {c : Constant}
    (found : p.constant index expected = .ok c) : p.constant? index = some c := by
  unfold constant at found
  cases at_index : p.constant? index with
  | none => simp [at_index] at found
  | some other => simpa [at_index] using found

theorem Program.string_ok {p : Program} {index : UInt64} {text : String}
    (found : p.string index = .ok text) : p.string? index = some text := by
  obtain ⟨c, constant, found⟩ := bind_eq_ok.mp found
  rw [string?_eq_some_iff, constant_ok constant]
  cases c with
  | str value => simpa using found
  | _ => cases found

namespace Draft

structure Widens (p : Program) (d d' : Draft) : Prop where
  grows : Grows p d d'
  offset : d'.offset = d.offset
  body : d'.body = d.body
  entries : d'.entries = d.entries
  classes : d'.classes = d.classes
  globals : d'.globals = d.globals

/-- All that a task does to a draft. -/
structure Step (p : Program) (task : Task) (d d' : Draft) : Prop where
  grows : Grows p d d'
  offset : d'.offset = p.endOffset d.offset task.line?.toList
  body : ∃ added, d'.body.toList = d.body.toList ++ added ∧
    List.Forall₂ (Sketched p d') (task.line?.toList.filter p.emits) added
  entries : ∀ key entry, d'.find? key = some entry →
    d.find? key = some entry ∨ Defines p d' d.offset d.classes.size task key entry
  defined : ∀ sort, task.defines? p = some sort →
    ∃ key, d'.Denotes key sort ∧ d.find? key = none ∧ (d'.find? key).isSome
  classes : ∃ added, d'.classes.classes.toList = d.classes.classes.toList ++ added ∧
    List.Forall₂ (Laid p d') task.class?.toList added
  globals : ∃ added, d'.globals.toList = d.globals.toList ++ added ∧
    List.Forall₂ (fun text symbol => d'.symbols.name? symbol = some text)
      (task.global? p).toList added

section
variable {p : Program} {d d₁ d' : Draft} {task : Task}

theorem Widens.refl : Widens p d d := ⟨.refl, rfl, rfl, rfl, rfl, rfl⟩

theorem Widens.trans (first : Widens p d d₁) (second : Widens p d₁ d') : Widens p d d' :=
  ⟨first.grows.trans second.grows, second.offset.trans first.offset, second.body.trans first.body,
    second.entries.trans first.entries, second.classes.trans first.classes,
    second.globals.trans first.globals⟩

theorem Widens.find? (wider : Widens p d d₁) (key : Key) : d₁.find? key = d.find? key := by
  rw [Draft.find?, Draft.find?, wider.entries]

theorem find?_define {key other : Key} {entry found : Entry}
    (known : ((other, entry) :: d.entries).lookup key = some found) :
    d.find? key = some found ∨ key = other ∧ found = entry := by
  by_cases same : key = other
  · rw [same, List.lookup_cons_self, Option.some.injEq] at known
    exact .inr ⟨same, known.symm⟩
  · have differs : (key == other) = false := beq_eq_false_iff_ne.mpr same
    rw [List.lookup_cons, differs] at known
    exact .inl known

theorem define_ok {key : Key} {entry : Entry} (defined : d.define p key entry = .ok d') :
    d.find? key = none ∧ d' = { d with entries := (key, entry) :: d.entries } := by
  unfold define at defined
  cases found : d.find? key with
  | some other => simp [found] at defined
  | none =>
    simp only [found, Except.ok.injEq] at defined
    exact ⟨rfl, defined.symm⟩

theorem resolve_ok {key : Key} {entry : Entry} (resolved : d.resolve p key = .ok entry) :
    d.find? key = some entry := by
  unfold resolve at resolved
  cases found : d.find? key with
  | some other => simpa [found] using resolved
  | none => simp [found] at resolved

theorem intern_ok (sound : d.Sound p) (small : p.values.size < 2 ^ 32) {index : UInt64}
    {symbol : Symbol} (interned : d.intern p index = .ok (d', symbol)) :
    Widens p d d' ∧ Names p d' symbol index := by
  obtain ⟨text, string, interned⟩ := bind_eq_ok.mp interned
  have string := p.string_ok string
  cases interned
  refine ⟨⟨Grows.refl.intern string, rfl, rfl, rfl, rfl, rfl⟩, text, string, ?_⟩
  exact sound.symbols.name?_intern small text

theorem format_ok (sound : d.Sound p) (small : p.values.size < 2 ^ 32) {index place : UInt64}
    (formatted : d.format p index = .ok (d', place)) :
    Widens p d d' ∧ ∃ text, p.string? index = some text ∧
      d'.formats.toList[place.toNat]? = some (index, text) := by
  have size := sound.formats_size_le
  unfold Draft.format at formatted
  cases found : d.formats.findIdx? (·.1 = index) with
  | some known =>
    simp only [found, Except.ok.injEq, Prod.mk.injEq] at formatted
    obtain ⟨rfl, rfl⟩ := formatted
    obtain ⟨inside, same, -⟩ := Array.findIdx?_eq_some_iff_getElem.mp found
    simp only [decide_eq_true_eq] at same
    have stored : d.formats.toList[known.toUInt64.toNat]? = some d.formats[known] := by
      rw [toNat_toUInt64 (by omega)]
      simp [inside]
    have member : d.formats[known] ∈ d.formats.toList := by simp
    have string := sound.formats _ member
    rw [same] at string
    refine ⟨.refl, d.formats[known].2, string, stored.trans ?_⟩
    rw [← same]
  | none =>
    simp only [found] at formatted
    obtain ⟨text, string, formatted⟩ := bind_eq_ok.mp formatted
    have string := p.string_ok string
    cases formatted
    refine ⟨⟨Grows.refl.format found string, rfl, rfl, rfl, rfl, rfl⟩, text, string, ?_⟩
    rw [toNat_toUInt64 (by omega)]
    simp

theorem Widens.add (wider : Widens p d d₁) {scene : Scene} {ins : Ins} {sketch : Sketch}
    (sketched : Sketched p d₁ (.ins ins) sketch) : Step p (.ins scene ins) d (d₁.add sketch) := by
  have grown : Grows p d₁ (d₁.add sketch) := Grows.refl.add sketch
  have opcode := sketched.opcode
  refine ⟨wider.grows.trans grown, ?_, ⟨[sketch], ?_, ?_⟩, ?_, ?_, ⟨[], ?_, .nil⟩, ⟨[], ?_, .nil⟩⟩
  · simp [Task.line?, Program.endOffset, Program.lineEnd, opcode, Draft.add, wider.offset]
  · simp [Draft.add, wider.body]
  · simp [Task.line?, Program.emits, opcode, sketched.grows grown]
  · intro key entry found
    exact .inl ((wider.find? key).symm.trans found)
  · -- only a label defines a name, and a label has no sketch
    intro sort defines
    cases ins <;> first | cases defines | cases sketched
  · simp [Draft.add, wider.classes]
  · simp [Draft.add, wider.globals]

theorem Widens.define (wider : Widens p d d₁) {key : Key} {entry : Entry} {sort : String ⊕ UInt64}
    (fresh : d₁.find? key = none) (silent : task.line?.toList.filter p.emits = [])
    (sorted : task.defines? p = some sort) (denotes : d₁.Denotes key sort)
    (defines : Defines p d₁ d.offset d.classes.size task key entry)
    (plain : task.class? = none ∧ task.global? p = none) :
    Step p task d { d₁ with entries := (key, entry) :: d₁.entries } := by
  have grown : Grows p d₁ { d₁ with entries := (key, entry) :: d₁.entries } :=
    Grows.refl.define fresh entry
  refine ⟨wider.grows.trans grown, ?_, ⟨[], ?_, ?_⟩, ?_, ?_, ⟨[], ?_, ?_⟩, ⟨[], ?_, ?_⟩⟩
  · simp only [wider.offset]
    cases laid : task.line? with
    | none => rfl
    | some line =>
      have roomless : p.opcode? line = none := by
        simpa [laid, Program.emits] using silent
      simp [Program.endOffset, Program.lineEnd, roomless]
  · simp [wider.body]
  · simp [silent]
  · intro other found known
    rcases find?_define known with known | ⟨rfl, rfl⟩
    · exact .inl ((wider.find? other).symm.trans known)
    · exact .inr (defines.grows grown)
  · intro other defined
    obtain rfl : sort = other := Option.some.inj (sorted.symm.trans defined)
    refine ⟨key, denotes.grows grown, (wider.find? key).symm.trans fresh, ?_⟩
    simp [Draft.find?]
  · simp [wider.classes]
  · simp [plain.1]
  · simp [wider.globals]
  · simp [plain.2]

theorem intern_step (sound : d.Sound p) (small : p.values.size < 2 ^ 32) {scene : Scene} {ins : Ins}
    {name : UInt64} {make : Symbol → Sketch}
    (sketched : ∀ {d₁ symbol}, Names p d₁ symbol name → Sketched p d₁ (.ins ins) (make symbol))
    (quickened : (do let (d, symbol) ← d.intern p name; return d.add (make symbol)) = .ok d') :
    Step p (.ins scene ins) d d' := by
  obtain ⟨⟨d₁, symbol⟩, interned, quickened⟩ := bind_eq_ok.mp quickened
  obtain ⟨wider, named⟩ := intern_ok sound small interned
  cases quickened
  exact wider.add (sketched named)

theorem quicken_step (sound : d.Sound p) (small : p.values.size < 2 ^ 32) {scene : Scene} {ins : Ins}
    (quickened : d.quicken p scene ins = .ok d') : Step p (.ins scene ins) d d' := by
  cases ins with
  | label index =>
    obtain ⟨⟨d₁, symbol⟩, interned, defined⟩ := bind_eq_ok.mp quickened
    obtain ⟨wider, named⟩ := intern_ok sound small interned
    obtain ⟨fresh, rfl⟩ := define_ok defined
    obtain ⟨text, string, name⟩ := id named
    have defines : Defines p d₁ d.offset d.classes.size (.ins scene (.label index)) (.name symbol)
        (.label d₁.offset) := by
      rw [wider.offset]
      exact .label scene named
    have silent : p.emits (.ins (.label index)) = false := rfl
    have sorted : Task.defines? p (.ins scene (.label index)) = some (.inl text) := by
      simp [Task.defines?, Program.labelText?, string]
    exact wider.define fresh (by simp [Task.line?, silent]) sorted name defines ⟨rfl, rfl⟩
  | lit idx =>
    obtain ⟨c, constant, quickened⟩ := bind_eq_ok.mp quickened
    have literal := p.constant_ok constant
    cases c with
    | int value =>
      cases quickened
      exact Widens.refl.add (.int literal)
    | null =>
      cases quickened
      exact Widens.refl.add (.null literal)
    | _ => cases quickened
  | printf format arity =>
    obtain ⟨⟨d₁, place⟩, formatted, quickened⟩ := bind_eq_ok.mp quickened
    obtain ⟨wider, text, string, stored⟩ := format_ok sound small formatted
    cases quickened
    exact wider.add (.printf arity string stored)
  | array =>
    cases quickened
    exact Widens.refl.add .array
  | object index =>
    cases quickened
    exact Widens.refl.add (.object index)
  | slot name => exact intern_step sound small (fun named => .slot named) quickened
  | setSlot name => exact intern_step sound small (fun named => .setSlot named) quickened
  | callSlot name arity => exact intern_step sound small (fun named => .callSlot arity named) quickened
  | call name arity => exact intern_step sound small (fun named => .call arity named) quickened
  | setGlobal name => exact intern_step sound small (fun named => .setGlobal named) quickened
  | getGlobal name => exact intern_step sound small (fun named => .getGlobal named) quickened
  | branch name => exact intern_step sound small (fun named => .branch named) quickened
  | goto name => exact intern_step sound small (fun named => .goto named) quickened
  | setLocal idx =>
    obtain ⟨_, _, quickened⟩ := bind_eq_ok.mp quickened
    cases quickened
    exact Widens.refl.add (.setLocal idx)
  | getLocal idx =>
    obtain ⟨_, _, quickened⟩ := bind_eq_ok.mp quickened
    cases quickened
    exact Widens.refl.add (.getLocal idx)
  | ret =>
    cases quickened
    exact Widens.refl.add .ret
  | drop =>
    cases quickened
    exact Widens.refl.add .drop

theorem beginMethod_step {index : UInt64} {m : Method} (begun : d.beginMethod p index m = .ok d') :
    Step p (.method index m) d d' := by
  obtain ⟨d₁, defined, begun⟩ := bind_eq_ok.mp begun
  obtain ⟨fresh, rfl⟩ := define_ok defined
  cases begun
  refine ⟨(Grows.refl.define fresh _).add _, rfl, ⟨[.ready (.frame m.nargs m.nlocals)], ?_, ?_⟩, ?_, ?_,
    ⟨[], ?_, .nil⟩, ⟨[], ?_, .nil⟩⟩
  · simp [addReady, Draft.add]
  · exact .cons (.frame _ _) .nil
  · intro key entry found
    rcases find?_define found with found | ⟨rfl, rfl⟩
    · exact .inl found
    · exact .inr (.method index m)
  · intro sort defines
    cases defines
    exact ⟨.constant index, rfl, fresh, by simp [addReady, Draft.add, Draft.find?]⟩
  · simp [addReady, Draft.add]
  · simp [addReady, Draft.add]

theorem declare_ok (sound : d.Sound p) (small : p.values.size < 2 ^ 32) {index : UInt64}
    {decl : SlotDecl} (declared : d.declare p index = .ok (d', decl)) :
    Widens p d d' ∧ Declares p d' index decl := by
  obtain ⟨c, constant, declared⟩ := bind_eq_ok.mp declared
  have constant := p.constant_ok constant
  cases c with
  | slot name =>
    obtain ⟨⟨d₁, symbol⟩, interned, declared⟩ := bind_eq_ok.mp declared
    obtain ⟨wider, named⟩ := intern_ok sound small interned
    cases declared
    exact ⟨wider, .var constant named⟩
  | method m =>
    obtain ⟨⟨d₁, symbol⟩, interned, declared⟩ := bind_eq_ok.mp declared
    obtain ⟨wider, named⟩ := intern_ok sound small interned
    obtain ⟨entry, resolved, declared⟩ := bind_eq_ok.mp declared
    have found := resolve_ok resolved
    cases entry with
    | method offset nargs =>
      cases declared
      exact ⟨wider, .method (Program.method?_eq_some_iff.mpr constant) named found⟩
    | _ => cases declared
  | _ => cases declared

theorem declareAll_ok (sound : d.Sound p) (small : p.values.size < 2 ^ 32) {slots : List UInt64}
    {decls : List SlotDecl} (declared : d.declareAll p slots = .ok (d', decls)) :
    Widens p d d' ∧ List.Forall₂ (Declares p d') slots decls := by
  induction slots generalizing d decls with
  | nil =>
    cases declared
    exact ⟨.refl, .nil⟩
  | cons index slots ih =>
    obtain ⟨⟨d₁, decl⟩, first, declared⟩ := bind_eq_ok.mp declared
    obtain ⟨⟨d₂, rest⟩, others, declared⟩ := bind_eq_ok.mp declared
    obtain ⟨wider, declares⟩ := declare_ok sound small first
    cases declared
    obtain ⟨wider', declared'⟩ := ih (sound.grows wider.grows) others
    exact ⟨wider.trans wider', .cons (declares.grows wider'.grows) declared'⟩

theorem addClass_step (sound : d.Sound p) (small : p.values.size < 2 ^ 32) {index : UInt64}
    {slots : List UInt64} (added : d.addClass p index slots = .ok d') :
    Step p (.classDef index slots) d d' := by
  obtain ⟨⟨d₁, decls⟩, declared, added⟩ := bind_eq_ok.mp added
  obtain ⟨wider, declared⟩ := declareAll_ok sound small declared
  obtain ⟨fresh, rfl⟩ := define_ok added
  have fresh' : d.find? (.constant index) = none := (wider.find? _).symm.trans fresh
  have grown := (Grows.addClass .refl (ClassLayout.ofDecls decls)).define fresh
    (.classDef d₁.classes.size) (p := p)
  refine ⟨wider.grows.trans grown, wider.offset, ⟨[], ?_, .nil⟩, ?_, ?_,
    ⟨[.ofDecls decls], ?_, ?_⟩, ⟨[], ?_, .nil⟩⟩
  · simp [wider.body]
  · intro key entry found
    rcases find?_define found with found | ⟨rfl, rfl⟩
    · exact .inl ((wider.find? key).symm.trans found)
    · rw [wider.classes]
      exact .inr (.classDef index slots)
  · intro sort defines
    cases defines
    exact ⟨.constant index, rfl, fresh', by simp [Draft.find?]⟩
  · simp [ClassTable.push, wider.classes]
  · exact .cons ⟨decls, rfl, declared.imp fun _ _ declares => declares.grows grown⟩ .nil
  · simp [wider.globals]

theorem addGlobal_step (sound : d.Sound p) (small : p.values.size < 2 ^ 32) {index : UInt64}
    (added : d.addGlobal p index = .ok d') : Step p (.global index) d d' := by
  obtain ⟨c, constant, added⟩ := bind_eq_ok.mp added
  have constant := p.constant_ok constant
  cases c with
  | method m =>
    have method := Program.method?_eq_some_iff.mpr constant
    obtain ⟨entry, resolved, added⟩ := bind_eq_ok.mp added
    obtain ⟨⟨d₁, symbol⟩, interned, added⟩ := bind_eq_ok.mp added
    obtain ⟨wider, named⟩ := intern_ok sound small interned
    obtain ⟨fresh, rfl⟩ := define_ok added
    have found := (wider.find? _).trans (resolve_ok resolved)
    obtain ⟨text, string, name⟩ := id named
    have sorted : Task.defines? p (.global index) = some (.inl text) := by
      simp [Task.defines?, Program.methodName?, method, string]
    have plain : p.variableName? index = none := by simp [Program.variableName?, constant]
    exact wider.define fresh rfl sorted name (.function method named found) ⟨rfl, plain⟩
  | slot name =>
    obtain ⟨⟨d₁, symbol⟩, interned, added⟩ := bind_eq_ok.mp added
    obtain ⟨wider, text, string, named⟩ := intern_ok sound small interned
    cases added
    have variable_name : p.variableName? index = some text := by
      simp [Program.variableName?, constant, string]
    refine ⟨wider.grows.trans (Grows.refl.addGlobal symbol), wider.offset, ⟨[], ?_, .nil⟩, ?_, ?_,
      ⟨[], ?_, .nil⟩, ⟨[symbol], ?_, ?_⟩⟩
    · simp [wider.body]
    · exact fun key entry found => .inl ((wider.find? key).symm.trans found)
    · intro sort defines
      simp [Task.defines?, Program.methodName?, Program.method?, constant] at defines
    · simp [wider.classes]
    · simp [wider.globals]
    · simp [Task.global?, variable_name, named]
  | _ => cases added

theorem perform_step (sound : d.Sound p) (small : p.values.size < 2 ^ 32)
    (performed : d.perform p task = .ok d') : Step p task d d' := by
  cases task with
  | method index m => exact beginMethod_step performed
  | ins scene ins => exact quicken_step sound small performed
  | classDef index slots => exact addClass_step sound small performed
  | global index => exact addGlobal_step sound small performed

end
end Draft
end SlotVM
