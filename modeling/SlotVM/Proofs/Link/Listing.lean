import SlotVM.Machine.Step
import SlotVM.Proofs.Link.Patches
import SlotVM.Proofs.Link.Resolution
import SlotVM.Proofs.Pointwise

namespace SlotVM

inductive Quickens (p : Program) (image : Image) : Line → Instr → Prop
  | frame (nargs nlocals : UInt32) : Quickens p image (.frame nargs nlocals) (.frame nargs nlocals)
  | int {idx : UInt64} {value : Int32} (literal : p.constant? idx = some (.int value)) :
      Quickens p image (.ins (.lit idx)) (.int value)
  | null {idx : UInt64} (literal : p.constant? idx = some .null) :
      Quickens p image (.ins (.lit idx)) .null
  | printf {format place : UInt64} {text : String} (arity : UInt32)
      (string : p.string? format = some text) (stored : image.strings[place.toNat]? = some text) :
      Quickens p image (.ins (.printf format arity)) (.printf arity place)
  | array : Quickens p image (.ins .array) .array
  | object {index : UInt64} {slots : List UInt64} {nvars rank : UInt32}
      (stored : p.constant? index = some (.classDef slots))
      (counted : nvars.toNat = slots.countP p.isVariable) (ranked : rank.toNat = p.classRank index) :
      Quickens p image (.ins (.object index)) (.object nvars rank)
  | slot {name : UInt64} {text : String} {symbol : Symbol} (string : p.string? name = some text)
      (named : image.symbols.name? symbol = some text) :
      Quickens p image (.ins (.slot name)) (.slot symbol.id.toUInt64)
  | setSlot {name : UInt64} {text : String} {symbol : Symbol} (string : p.string? name = some text)
      (named : image.symbols.name? symbol = some text) :
      Quickens p image (.ins (.setSlot name)) (.setSlot symbol.id.toUInt64)
  | callSlot {name : UInt64} {text : String} {symbol : Symbol} (arity : UInt32)
      (string : p.string? name = some text) (named : image.symbols.name? symbol = some text) :
      Quickens p image (.ins (.callSlot name arity)) (.callSlot arity symbol.id.toUInt64)
  | call {name index : UInt64} {text : String} {m : Method} {target : UInt64}
      (string : p.string? name = some text) (function : p.function? text = some index)
      (method : p.method? index = some m) (reached : target.toNat = p.start index) :
      Quickens p image (.ins (.call name m.nargs)) (.call m.nargs target)
  | setLocal (idx : UInt32) : Quickens p image (.ins (.setLocal idx)) (.setLocal idx)
  | getLocal (idx : UInt32) : Quickens p image (.ins (.getLocal idx)) (.getLocal idx)
  | setGlobal {name : UInt64} {text : String} {idx : UInt32} (string : p.string? name = some text)
      (place : p.globalPlace? text = some idx.toNat) :
      Quickens p image (.ins (.setGlobal name)) (.setGlobal idx)
  | getGlobal {name : UInt64} {text : String} {idx : UInt32} (string : p.string? name = some text)
      (place : p.globalPlace? text = some idx.toNat) :
      Quickens p image (.ins (.getGlobal name)) (.getGlobal idx)
  | branch {name target : UInt64} {text : String} {pos : Position}
      (string : p.string? name = some text) (label : p.label? text = some pos)
      (reached : target.toNat = p.place pos) :
      Quickens p image (.ins (.branch name)) (.branch target)
  | goto {name target : UInt64} {text : String} {pos : Position}
      (string : p.string? name = some text) (label : p.label? text = some pos)
      (reached : target.toNat = p.place pos) :
      Quickens p image (.ins (.goto name)) (.goto target)
  | ret : Quickens p image (.ins .ret) .ret
  | drop : Quickens p image (.ins .drop) .drop

/-- The sizes that code has room for. -/
structure Program.Small (p : Program) : Prop where
  pool : p.values.size < 2 ^ 32
  globals : p.slots.length < 2 ^ 32
  members : ∀ slots ∈ p.classes, slots.length < 2 ^ 32

theorem Quickens.opcode {p : Program} {image : Image} {line : Line} {instr : Instr}
    (quickens : Quickens p image line instr) : p.opcode? line = some instr.opcode := by
  cases quickens with
  | int literal | null literal =>
    simp [Program.opcode?, Program.insOpcode?, literal, Instr.opcode]
  | _ => rfl

namespace Program

theorem le_lineEnd (p : Program) (offset : Nat) (line : Line) : offset ≤ p.lineEnd offset line := by
  have field {start pos width : Nat} (le : start ≤ pos) (wide : 0 < width) :
      start ≤ alignUp pos width + width := by
    have aligned := le_alignUp pos wide
    omega
  have first : offset ≤ offset + 1 := Nat.le_succ offset
  unfold lineEnd
  cases p.opcode? line with
  | none => exact Nat.le_refl offset
  | some op =>
    cases op with
    | null | array | ret | drop => exact first
    | int | getLocal | setLocal | getGlobal | setGlobal => exact field first (by decide)
    | slot | setSlot | branch | goto => exact field first (by decide)
    | object | frame => exact field (field first (by decide)) (by decide)
    | printf | callSlot | call => exact field (field first (by decide)) (by decide)

theorem le_endOffset (p : Program) (offset : Nat) (lines : List Line) :
    offset ≤ p.endOffset offset lines := by
  induction lines generalizing offset with
  | nil => exact Nat.le_refl offset
  | cons line lines ih => exact Nat.le_trans (p.le_lineEnd offset line) (ih _)

theorem start_le {p : Program} {index : UInt64} {m : Method} (found : p.method? index = some m) :
    p.start index ≤ p.endOffset 0 p.lines := by
  obtain ⟨before, after, split, start⟩ := start_split found
  rw [split, start, endOffset_append]
  exact p.le_endOffset _ _

theorem place_le {p : Program} {pos : Position} {ins : Ins} (here : p.ins? pos = some ins) :
    p.place pos ≤ p.endOffset 0 p.lines := by
  obtain ⟨before, after, split, place⟩ := place_split here
  rw [split, place, endOffset_append]
  exact p.le_endOffset _ _

theorem endOffset_of_quickens {p : Program} {image : Image} {lines : List Line} {instrs : List Instr}
    (quickens : List.Forall₂ (Quickens p image) (lines.filter p.emits) instrs) (offset : Nat) :
    Code.endOffset offset instrs = p.endOffset offset lines := by
  induction lines generalizing offset instrs with
  | nil =>
    cases quickens
    rfl
  | cons line lines ih =>
    cases opcode : p.opcode? line with
    | none =>
      have silent : p.emits line = false := by simp [emits, opcode]
      rw [List.filter_cons_of_neg (by simp [silent])] at quickens
      simpa [endOffset, lineEnd, opcode] using ih quickens offset
    | some op =>
      have emits : p.emits line = true := by simp [emits, opcode]
      rw [List.filter_cons_of_pos emits] at quickens
      cases quickens with
      | cons first rest =>
        have same : op = _ := Option.some.inj (opcode.symm.trans first.opcode)
        simpa [endOffset, Code.endOffset, lineEnd, opcode, same] using ih rest _

end Program

theorem mapM_ok {ε α β : Type} {f : α → Except ε β} {l : List α} {results : List β}
    (mapped : l.mapM f = .ok results) : List.Forall₂ (fun a b => f a = .ok b) l results := by
  induction l generalizing results with
  | nil =>
    cases mapped
    exact .nil
  | cons a l ih =>
    rw [List.mapM_cons] at mapped
    obtain ⟨b, first, mapped⟩ := bind_eq_ok.mp mapped
    obtain ⟨rest, others, mapped⟩ := bind_eq_ok.mp mapped
    cases mapped
    exact .cons first (ih others)

namespace Draft

variable {p : Program} {d : Draft}

theorem endOffset_of_closed {body : List Sketch} {instrs : List Instr}
    (closed : List.Forall₂ (fun sketch instr => d.close p sketch = .ok instr) body instrs)
    (offset : Nat) : Code.endOffset offset instrs = endOffset offset body := by
  induction closed generalizing offset with
  | nil => rfl
  | cons first _ ih => simpa [Code.endOffset, endOffset, close_opcode first] using ih _

theorem label_ok {name : Symbol} {target : UInt64} (found : d.label p name = .ok target) :
    ∃ offset, d.find? (.name name) = some (.label offset) ∧ target = offset.toUInt64 := by
  obtain ⟨entry, resolved, found⟩ := bind_eq_ok.mp found
  cases entry with
  | label offset =>
    cases found
    exact ⟨offset, resolve_ok resolved, rfl⟩
  | _ => cases found

theorem function_ok {name : Symbol} {arity : UInt32} {target : UInt64}
    (found : d.function p name arity = .ok target) :
    ∃ offset, d.find? (.name name) = some (.method offset arity) ∧ target = offset.toUInt64 := by
  obtain ⟨entry, resolved, found⟩ := bind_eq_ok.mp found
  cases entry with
  | method offset nargs =>
    by_cases same : nargs = arity
    · simp only [same, if_true] at found
      cases found
      exact ⟨offset, same ▸ resolve_ok resolved, rfl⟩
    · simp [same] at found
  | _ => cases found

theorem globalPlace_ok {name : Symbol} {place : UInt32} (found : d.globalPlace name = .ok place) :
    ∃ n, d.globals.idxOf? name = some n ∧ place = n.toUInt32 := by
  unfold globalPlace at found
  cases at_place : d.globals.idxOf? name with
  | none => simp [at_place] at found
  | some n =>
    simp only [at_place, Except.ok.injEq] at found
    exact ⟨n, rfl, found.symm⟩

theorem classPlace_ok {index : UInt64} {place : Nat} (found : d.classPlace p index = .ok place) :
    d.find? (.constant index) = some (.classDef place) := by
  obtain ⟨entry, resolved, found⟩ := bind_eq_ok.mp found
  cases entry with
  | classDef other =>
    cases found
    exact resolve_ok resolved
  | _ => cases found

theorem Tracks.close_object (tracks : Tracks p (Task.all p) d) (small : p.Small) {index : UInt64}
    {place : Nat} (found : d.find? (.constant index) = some (.classDef place)) :
    ∃ slots, p.constant? index = some (.classDef slots) ∧
      (d.classes.nvars place).toUInt32.toNat = slots.countP p.isVariable ∧
      place.toUInt32.toNat = p.classRank index := by
  obtain ⟨rfl, slots, stored⟩ := tracks.class_entry small.pool found
  obtain ⟨layout, here, laid⟩ := tracks.class_laid stored
  have ranked := Program.classes_classRank stored
  have few := small.members slots (List.mem_of_getElem? ranked)
  have counted := slots.countP_le_length (p := p.isVariable)
  have inside := (List.getElem?_eq_some_iff.mp ranked).1
  have classes : p.classes.length ≤ p.values.toList.length := List.length_filterMap_le _ _
  have length : p.values.toList.length = p.values.size := Array.length_toList
  have bound := small.pool
  refine ⟨slots, stored, ?_, toNat_toUInt32 (by omega)⟩
  have nvars : d.classes.nvars (p.classRank index) = layout.nvars := by rw [ClassTable.nvars, here]
  rw [nvars, laid.nvars, toNat_toUInt32 (by omega)]

theorem Tracks.close_label (tracks : Tracks p (Task.all p) d) (small : p.values.size < 2 ^ 32)
    (room : p.endOffset 0 p.lines < 2 ^ 64) {symbol : Symbol} {text : String} {target : UInt64}
    (named : d.symbols.name? symbol = some text) (closed : d.label p symbol = .ok target) :
    ∃ pos, p.label? text = some pos ∧ target.toNat = p.place pos := by
  obtain ⟨offset, found, rfl⟩ := label_ok closed
  rcases tracks.name_entry small named found with ⟨pos, label, same⟩ | ⟨_, _, _, _, same⟩
  · cases same
    have labelled := (tracks.label?_eq_some_iff small).mp label
    obtain ⟨ins, here, -⟩ := Option.bind_eq_some_iff.mp labelled
    have inside := Program.place_le here
    exact ⟨pos, label, toNat_toUInt64 (by omega)⟩
  · cases same

theorem Tracks.close_global (tracks : Tracks p (Task.all p) d) (small : p.Small) {symbol : Symbol}
    {text : String} {place : UInt32} (named : d.symbols.name? symbol = some text)
    (closed : d.globalPlace symbol = .ok place) : p.globalPlace? text = some place.toNat := by
  obtain ⟨n, found, rfl⟩ := globalPlace_ok closed
  rw [tracks.global_place named] at found
  obtain ⟨inside, -⟩ := List.idxOf?_eq_some_iff.mp found
  have few : p.globalNames.length ≤ p.slots.length := List.length_filterMap_le _ _
  have bound := small.globals
  rw [found, toNat_toUInt32 (by omega)]

theorem Tracks.close (tracks : Tracks p (Task.all p) d) (small : p.Small)
    (room : p.endOffset 0 p.lines < 2 ^ 64) {line : Line} {sketch : Sketch} {instr : Instr}
    (sketched : Sketched p d line sketch) (closed : d.close p sketch = .ok instr)
    (code : Code) (entry : Nat) : Quickens p (d.image code entry) line instr := by
  cases sketched with
  | frame nargs nlocals =>
    cases closed
    exact .frame nargs nlocals
  | int literal =>
    cases closed
    exact .int literal
  | null literal =>
    cases closed
    exact .null literal
  | printf arity string stored =>
    cases closed
    rw [Array.getElem?_toList] at stored
    exact .printf arity string (by simp [Draft.image, stored])
  | array =>
    cases closed
    exact .array
  | object index =>
    obtain ⟨place, found, closed⟩ := bind_eq_ok.mp closed
    obtain ⟨slots, stored, counted, ranked⟩ := tracks.close_object small (classPlace_ok found)
    cases closed
    exact .object stored counted ranked
  | slot named =>
    obtain ⟨text, string, named⟩ := named
    cases closed
    exact .slot string named
  | setSlot named =>
    obtain ⟨text, string, named⟩ := named
    cases closed
    exact .setSlot string named
  | callSlot arity named =>
    obtain ⟨text, string, named⟩ := named
    cases closed
    exact .callSlot arity string named
  | call arity named =>
    obtain ⟨text, string, named⟩ := named
    obtain ⟨target, resolved, closed⟩ := bind_eq_ok.mp closed
    obtain ⟨offset, found, rfl⟩ := function_ok resolved
    cases closed
    rcases tracks.name_entry small.pool named found with
      ⟨_, _, same⟩ | ⟨index, m, function, method, same⟩
    · cases same
    · cases same
      have inside := Program.start_le method
      exact .call string function method (toNat_toUInt64 (by omega))
  | setLocal idx =>
    cases closed
    exact .setLocal idx
  | getLocal idx =>
    cases closed
    exact .getLocal idx
  | setGlobal named =>
    obtain ⟨text, string, named⟩ := named
    obtain ⟨place, found, closed⟩ := bind_eq_ok.mp closed
    cases closed
    exact .setGlobal string (tracks.close_global small named found)
  | getGlobal named =>
    obtain ⟨text, string, named⟩ := named
    obtain ⟨place, found, closed⟩ := bind_eq_ok.mp closed
    cases closed
    exact .getGlobal string (tracks.close_global small named found)
  | branch named =>
    obtain ⟨text, string, named⟩ := named
    obtain ⟨target, found, closed⟩ := bind_eq_ok.mp closed
    obtain ⟨pos, label, reached⟩ := tracks.close_label small.pool room named found
    cases closed
    exact .branch string label reached
  | goto named =>
    obtain ⟨text, string, named⟩ := named
    obtain ⟨target, found, closed⟩ := bind_eq_ok.mp closed
    obtain ⟨pos, label, reached⟩ := tracks.close_label small.pool room named found
    cases closed
    exact .goto string label reached
  | ret =>
    cases closed
    exact .ret
  | drop =>
    cases closed
    exact .drop

end Draft

inductive Declared (p : Program) (image : Image) : UInt64 → SlotDecl → Prop
  | var {index name : UInt64} {text : String} {symbol : Symbol}
      (slot : p.constant? index = some (.slot name)) (string : p.string? name = some text)
      (named : image.symbols.name? symbol = some text) : Declared p image index (.var symbol)
  | method {index : UInt64} {m : Method} {text : String} {symbol : Symbol}
      (method : p.method? index = some m) (string : p.string? m.name = some text)
      (named : image.symbols.name? symbol = some text) :
      Declared p image index (.method symbol (p.start index))

structure Linked (p : Program) (image : Image) : Prop where
  code : ∃ instrs, image.code = instrs.foldl Code.emit .empty ∧
    List.Forall₂ (Quickens p image) (p.lines.filter p.emits) instrs
  room : image.code.size = p.endOffset 0 p.lines
  label_iff : ∀ {text pos}, p.label? text = some pos ↔ p.labelName? pos = some text
  function_iff : ∀ {text index}, p.function? text = some index ↔
    index ∈ p.slots ∧ p.methodName? index = some text
  symbols : image.symbols.Sound p
  entry : ∃ m, p.method? p.entry = some m ∧ image.entry = p.start p.entry
  globals : List.Forall₂ (fun text symbol => image.symbols.name? symbol = some text)
    p.globalNames image.globals.toList
  classes : List.Forall₂ (fun slots layout => ∃ decls, layout = ClassLayout.ofDecls decls ∧
    List.Forall₂ (Declared p image) slots decls) p.classes image.classes.classes.toList

section
variable {p : Program} {image : Image}

theorem Draft.entry_ok {d : Draft} {entry : Nat} (entered : d.entry p = .ok entry) :
    ∃ nargs, d.find? (.constant p.entry) = some (.method entry nargs) := by
  unfold Draft.entry at entered
  cases found : d.find? (.constant p.entry) with
  | none => simp [found] at entered
  | some other =>
    cases other with
    | method offset nargs =>
      simp only [found, Except.ok.injEq] at entered
      exact ⟨nargs, by rw [entered]⟩
    | _ => simp [found] at entered

theorem Draft.Tracks.declared {d : Draft} (tracks : Draft.Tracks p (Task.all p) d)
    (small : p.values.size < 2 ^ 32) {index : UInt64} {decl : SlotDecl}
    (declares : Draft.Declares p d index decl) (code : Code) (entry : Nat) :
    Declared p (d.image code entry) index decl := by
  cases declares with
  | var slot named =>
    obtain ⟨text, string, named⟩ := named
    exact .var slot string named
  | method method named found =>
    obtain ⟨text, string, named⟩ := named
    have same := tracks.method_entry small method found
    cases same
    exact .method method string named

theorem link_linked (linked : link p = .ok image) (small : p.Small) (room : image.code.size < 2 ^ 64) :
    Linked p image := by
  obtain ⟨d, instrs, entry, performed, closed, entered, rfl⟩ := link_eq_ok_iff.mp linked
  have tracks := (Draft.empty_tracks p).performAll small.pool performed
  have body := tracks.body
  have globals := tracks.globals
  have classes := tracks.classes
  rw [List.nil_append] at tracks body globals classes
  rw [Task.lines_all] at body
  rw [Task.globals_all] at globals
  rw [Task.classes_all] at classes
  have closed := mapM_ok closed
  have size : (instrs.foldl Code.emit .empty).size = p.endOffset 0 p.lines := by
    have laid := tracks.offset
    rw [tracks.sound.laid, Task.lines_all] at laid
    rw [← laid, ← Draft.endOffset_of_closed closed]
    exact Code.size_foldl_emit .empty instrs
  have room : p.endOffset 0 p.lines < 2 ^ 64 := size ▸ room
  refine ⟨⟨instrs, rfl, ?_⟩, size, tracks.label?_eq_some_iff small.pool, tracks.function?_eq_some_iff,
    tracks.sound.symbols, ?_, ?_, ?_⟩
  · exact forall₂_trans body closed fun sketched closed =>
      tracks.close small room sketched closed _ entry
  · obtain ⟨nargs, found⟩ := Draft.entry_ok entered
    rcases tracks.constant_entry small.pool found with ⟨m, method, same⟩ | ⟨_, _, same⟩
    · cases same
      exact ⟨m, method, rfl⟩
    · cases same
  · exact globals
  · refine classes.imp fun slots layout laid => ?_
    obtain ⟨decls, rfl, declared⟩ := laid
    exact ⟨decls, rfl, declared.imp fun _ _ declares => tracks.declared small.pool declares _ entry⟩

def Image.Emits (image : Image) (offset : Nat) (instr : Instr) : Prop :=
  ∃ before after, image.code = (before ++ instr :: after).foldl Code.emit .empty ∧
    Code.endOffset 0 before = offset

theorem Linked.emits_line (linked : Linked p image) {before after : List Line} {line : Line}
    (split : p.lines = before ++ line :: after) (emits : p.emits line = true) :
    ∃ instr, image.Emits (p.endOffset 0 before) instr ∧ Quickens p image line instr := by
  obtain ⟨instrs, code, quickens⟩ := linked.code
  rw [split, List.filter_append, List.filter_cons_of_pos emits] at quickens
  have first := List.forall₂_take (before.filter p.emits).length quickens
  have rest := List.forall₂_drop (before.filter p.emits).length quickens
  rw [List.take_left] at first
  rw [List.drop_left] at rest
  have parts := List.take_append_drop (before.filter p.emits).length instrs
  generalize instrs.take (before.filter p.emits).length = earlier at first parts
  generalize instrs.drop (before.filter p.emits).length = later at rest parts
  cases rest with
  | @cons _ instr _ later here _ =>
    exact ⟨instr, ⟨earlier, later, by rw [code, parts], Program.endOffset_of_quickens first 0⟩, here⟩

theorem Image.Emits.decode {offset : Nat} {line : Line} {instr : Instr}
    (emits : image.Emits offset instr) (quickens : Quickens p image line instr) :
    image.code.decode offset = .ok (instr, p.lineEnd offset line) := by
  obtain ⟨before, after, code, rfl⟩ := emits
  have read := Code.decode_foldl_emit before after instr
  have stop : Code.endOffset 0 (before ++ [instr]) =
      p.lineEnd (Code.endOffset 0 before) line := by
    simp [Code.endOffset, Program.lineEnd, quickens.opcode]
  rwa [← code, stop] at read

theorem Linked.emits_start (linked : Linked p image) {index : UInt64} {m : Method}
    (found : p.method? index = some m) :
    image.Emits (p.start index) (.frame m.nargs m.nlocals) := by
  obtain ⟨before, after, split, start⟩ := Program.start_split found
  obtain ⟨instr, emitted, quickens⟩ := linked.emits_line split rfl
  cases quickens
  rwa [start]

theorem Linked.emits_place (linked : Linked p image) {pos : Position} {ins : Ins}
    (here : p.ins? pos = some ins) (emits : p.emits (.ins ins) = true) :
    ∃ instr, image.Emits (p.place pos) instr ∧ Quickens p image (.ins ins) instr := by
  obtain ⟨before, after, split, place⟩ := Program.place_split here
  rw [place]
  exact linked.emits_line split emits

theorem Linked.decode_start (linked : Linked p image) {index : UInt64} {m : Method}
    (found : p.method? index = some m) :
    image.code.decode (p.start index) = .ok (.frame m.nargs m.nlocals, p.place ⟨index, 0⟩) := by
  have read := (linked.emits_start found).decode (.frame (p := p) m.nargs m.nlocals)
  rw [read, Program.place, found]
  rfl

theorem Linked.decode_place (linked : Linked p image) {pos : Position} {ins : Ins}
    (here : p.ins? pos = some ins) (emits : p.emits (.ins ins) = true) :
    ∃ instr, image.code.decode (p.place pos) = .ok (instr, p.place pos.next) ∧
      Quickens p image (.ins ins) instr := by
  obtain ⟨instr, emitted, quickens⟩ := linked.emits_place here emits
  exact ⟨instr, Program.place_next here ▸ emitted.decode quickens, quickens⟩

/-- The code of a linked program reads back as the program: from offset 0 to the end of the code, one
instruction for each line that is no label, with its operands resolved by the program's own names; and
each method and each instruction stands at its own offset, which a label shares with what follows it. -/
theorem link_reads_back (linked : link p = .ok image) (small : p.Small)
    (room : image.code.size < 2 ^ 64) :
    (∃ instrs, image.code.Reads 0 instrs image.code.size ∧
      List.Forall₂ (Quickens p image) (p.lines.filter p.emits) instrs) ∧
    (∀ index m, p.method? index = some m →
      image.code.decode (p.start index) = .ok (.frame m.nargs m.nlocals, p.place ⟨index, 0⟩)) ∧
    (∀ pos ins, p.ins? pos = some ins →
      (∃ name, ins = .label name) ∧ p.place pos.next = p.place pos ∨
      ∃ instr, image.code.decode (p.place pos) = .ok (instr, p.place pos.next) ∧
        Quickens p image (.ins ins) instr) ∧
    (∀ text pos, p.label? text = some pos ↔ p.labelName? pos = some text) ∧
    (∀ text index, p.function? text = some index ↔
      index ∈ p.slots ∧ p.methodName? index = some text) ∧
    List.Forall₂ (fun text symbol => image.symbols.name? symbol = some text)
      p.globalNames image.globals.toList := by
  have meets := link_linked linked small room
  refine ⟨?_, fun _ _ found => meets.decode_start found, ?_, fun _ _ => meets.label_iff,
    fun _ _ => meets.function_iff, meets.globals⟩
  · obtain ⟨instrs, code, quickens⟩ := meets.code
    refine ⟨instrs, ?_, quickens⟩
    rw [code]
    exact Code.reads_foldl_emit [] instrs
  · intro pos ins here
    cases emits : p.emits (.ins ins) with
    | false =>
      have none : p.opcode? (.ins ins) = none := by simpa [Program.emits] using emits
      refine .inl ⟨?_, by rw [Program.place_next here, Program.lineEnd, none]⟩
      cases ins with
      | label name => exact ⟨name, rfl⟩
      | lit idx =>
        simp only [Program.opcode?, Program.insOpcode?] at none
        split at none <;> cases none
      | _ => cases none
    | true => exact .inr (meets.decode_place here emits)

/-- A class with a variable and a method, called by name before its value is stored and printed. -/
def Program.getter : Program where
  values := #[.str "main", .str "done", .str "x", .str "~\n", .int 7, .null, .slot 2, .classDef [6, 8],
    .method ⟨10, 1, 0, [.getLocal 0, .slot 2, .ret]⟩,
    .method ⟨0, 0, 1, [.lit 5, .lit 4, .object 7, .setLocal 0, .call 10 1, .setGlobal 2, .printf 3 1,
      .goto 1, .drop, .label 1, .ret]⟩, .str "get"]
  slots := [6, 8, 9]
  entry := 9

theorem Program.getter_small : getter.Small := ⟨by decide, by decide, by decide⟩

theorem Program.link_getter :
    ∃ image, link getter = .ok image ∧ image.code.size = 130 ∧ image.entry = 33 := by
  have evaluated : (do
      let image ← (link getter).toOption
      return (image.code.size, image.entry)) = some (130, 33) := by
    rw [link_eq]
    decide +kernel
  obtain ⟨image, linked, evaluated⟩ := toOption_bind_eq_some.mp evaluated
  exact ⟨image, linked, Prod.mk.inj (Option.some.inj evaluated)⟩

theorem link_getter_reads_back :
    ∃ image, link Program.getter = .ok image ∧ Program.getter.Small ∧ image.code.size < 2 ^ 64 ∧
      (∃ instrs, image.code.Reads 0 instrs image.code.size ∧
        List.Forall₂ (Quickens Program.getter image)
          (Program.getter.lines.filter Program.getter.emits) instrs) ∧
      image.code.decode 0 = .ok (.frame 1 0, 12) ∧ Program.getter.labelName? ⟨9, 9⟩ = some "done" ∧
      Program.getter.label? "done" = some ⟨9, 9⟩ := by
  obtain ⟨image, linked, size, -⟩ := Program.link_getter
  have room : image.code.size < 2 ^ 64 := by rw [size]; decide
  obtain ⟨reads, starts, -, labels, -⟩ := link_reads_back linked Program.getter_small room
  have labelled : Program.getter.labelName? ⟨9, 9⟩ = some "done" := by decide
  exact ⟨image, linked, Program.getter_small, room, reads, starts 8 _ rfl, labelled,
    (labels "done" ⟨9, 9⟩).mpr labelled⟩

end
end SlotVM
