import SlotVM.Code.Instr
import SlotVM.Link.Image
import Mathlib.Algebra.Ring.Nat
import Mathlib.Data.List.Basic

namespace SlotVM

theorem toNat_toUInt32 {n : Nat} (small : n < 2 ^ 32) : n.toUInt32.toNat = n :=
  UInt32.toNat_ofNat_of_lt' small

theorem toNat_toUInt64 {n : Nat} (small : n < 2 ^ 64) : n.toUInt64.toNat = n :=
  UInt64.toNat_ofNat_of_lt' small

inductive Line where
  | frame (nargs nlocals : UInt32)
  | ins (ins : Ins)
deriving DecidableEq

def Method.lines (m : Method) : List Line := .frame m.nargs m.nlocals :: m.code.map .ins

namespace Constant

def lines : Constant → List Line
  | .method m => m.lines
  | _ => []

def classSlots? : Constant → Option (List UInt64)
  | .classDef slots => some slots
  | _ => none

end Constant

/-- A place in a program: the pool index of a method and an instruction of its body. -/
structure Position where
  method : UInt64
  line : Nat
deriving DecidableEq

def Position.next (pos : Position) : Position := ⟨pos.method, pos.line + 1⟩

namespace Program

def method? (p : Program) (index : UInt64) : Option Method :=
  match p.constant? index with
  | some (.method m) => some m
  | _ => none

def methodName? (p : Program) (index : UInt64) : Option String :=
  (p.method? index).bind (p.string? ·.name)

def variableName? (p : Program) (index : UInt64) : Option String :=
  match p.constant? index with
  | some (.slot name) => p.string? name
  | _ => none

def ins? (p : Program) (pos : Position) : Option Ins :=
  (p.method? pos.method).bind (·.code[pos.line]?)

def labelText? (p : Program) : Ins → Option String
  | .label name => p.string? name
  | _ => none

def labelName? (p : Program) (pos : Position) : Option String := (p.ins? pos).bind p.labelText?

def methodLabels (p : Program) (index : UInt64) (m : Method) : List (String × Position) :=
  m.code.zipIdx.filterMap fun (ins, line) => (p.labelText? ins).map (·, ⟨index, line⟩)

def constantLabels (p : Program) : UInt64 × Constant → List (String × Position)
  | (index, .method m) => p.methodLabels index m
  | _ => []

def labels (p : Program) : List (String × Position) := p.pool.flatMap p.constantLabels

def label? (p : Program) (name : String) : Option Position := p.labels.lookup name

def function? (p : Program) (name : String) : Option UInt64 :=
  p.slots.find? (p.methodName? · = some name)

def globalNames (p : Program) : List String := p.slots.filterMap p.variableName?

def globalPlace? (p : Program) (name : String) : Option Nat := p.globalNames.idxOf? name

def classes (p : Program) : List (List UInt64) := p.values.toList.filterMap Constant.classSlots?

/-- How many classes stand before a pool index. -/
def classRank (p : Program) (index : UInt64) : Nat :=
  ((p.values.toList.take index.toNat).filterMap Constant.classSlots?).length

def isVariable (p : Program) (index : UInt64) : Bool :=
  match p.constant? index with
  | some (.slot _) => true
  | _ => false

def lines (p : Program) : List Line := p.values.toList.flatMap Constant.lines

/-- The opcode that an instruction becomes. A label takes no room. -/
def insOpcode? (p : Program) : Ins → Option Opcode
  | .label _ => none
  | .lit idx =>
    match p.constant? idx with
    | some (.int _) => some .int
    | _ => some .null
  | .printf _ _ => some .printf
  | .array => some .array
  | .object _ => some .object
  | .slot _ => some .slot
  | .setSlot _ => some .setSlot
  | .callSlot _ _ => some .callSlot
  | .call _ _ => some .call
  | .setLocal _ => some .setLocal
  | .getLocal _ => some .getLocal
  | .setGlobal _ => some .setGlobal
  | .getGlobal _ => some .getGlobal
  | .branch _ => some .branch
  | .goto _ => some .goto
  | .ret => some .ret
  | .drop => some .drop

def opcode? (p : Program) : Line → Option Opcode
  | .frame _ _ => some .frame
  | .ins ins => p.insOpcode? ins

def emits (p : Program) (line : Line) : Bool := (p.opcode? line).isSome

def lineEnd (p : Program) (offset : Nat) (line : Line) : Nat :=
  match p.opcode? line with
  | none => offset
  | some op => op.endOffset offset

def endOffset (p : Program) (offset : Nat) (lines : List Line) : Nat :=
  lines.foldl p.lineEnd offset

def linesBefore (p : Program) (index : UInt64) : List Line :=
  (p.values.toList.take index.toNat).flatMap Constant.lines

def start (p : Program) (index : UInt64) : Nat := p.endOffset 0 (p.linesBefore index)

def place (p : Program) (pos : Position) : Nat :=
  match p.method? pos.method with
  | none => 0
  | some m => p.endOffset (p.start pos.method) (m.lines.take (pos.line + 1))

theorem endOffset_append (p : Program) (offset : Nat) (before after : List Line) :
    p.endOffset offset (before ++ after) = p.endOffset (p.endOffset offset before) after :=
  List.foldl_append

theorem method?_eq_some_iff {p : Program} {index : UInt64} {m : Method} :
    p.method? index = some m ↔ p.constant? index = some (.method m) := by
  unfold method?
  cases p.constant? index with
  | none => simp
  | some c => cases c <;> simp

theorem ins?_eq_some_iff {p : Program} {pos : Position} {ins : Ins} :
    p.ins? pos = some ins ↔
      ∃ m, p.method? pos.method = some m ∧ m.code[pos.line]? = some ins := by
  simp [ins?, Option.bind_eq_some_iff]

theorem mem_pool_iff {p : Program} (small : p.values.size < 2 ^ 32) {index : UInt64} {c : Constant} :
    (index, c) ∈ p.pool ↔ p.constant? index = some c := by
  rw [pool, List.mem_map, constant?]
  constructor
  · rintro ⟨⟨c', place⟩, member, same⟩
    rw [List.mem_zipIdx_iff_getElem?, Array.getElem?_toList] at member
    have inside := (Array.getElem?_eq_some_iff.mp member).1
    cases same
    rw [toNat_toUInt64 (by omega)]
    exact member
  · intro stored
    refine ⟨(c, index.toNat), ?_, by simp⟩
    rw [List.mem_zipIdx_iff_getElem?]
    simpa using stored

theorem mem_labels_iff {p : Program} (small : p.values.size < 2 ^ 32) {text : String}
    {pos : Position} : (text, pos) ∈ p.labels ↔ p.labelName? pos = some text := by
  simp only [labels, List.mem_flatMap, Prod.exists, labelName?, ins?, Option.bind_eq_some_iff]
  constructor
  · rintro ⟨index, c, member, labelled⟩
    cases c with
    | method m =>
      simp only [constantLabels, methodLabels, List.mem_filterMap, Prod.exists, Option.map_eq_some_iff,
        Prod.mk.injEq, List.mem_zipIdx_iff_getElem?] at labelled
      obtain ⟨ins, line, at_line, _, string, rfl, rfl⟩ := labelled
      exact ⟨ins, ⟨m, method?_eq_some_iff.mpr ((mem_pool_iff small).mp member), at_line⟩, string⟩
    | _ => simp [constantLabels] at labelled
  · rintro ⟨ins, ⟨m, found, at_line⟩, string⟩
    refine ⟨pos.method, .method m, (mem_pool_iff small).mpr (method?_eq_some_iff.mp found), ?_⟩
    simp only [constantLabels, methodLabels, List.mem_filterMap, Prod.exists, Option.map_eq_some_iff,
      Prod.mk.injEq, List.mem_zipIdx_iff_getElem?]
    exact ⟨ins, pos.line, at_line, text, string, rfl, rfl⟩

theorem values_split {p : Program} {index : UInt64} {c : Constant} (stored : p.constant? index = some c) :
    p.values.toList = p.values.toList.take index.toNat ++ c :: p.values.toList.drop (index.toNat + 1) := by
  rw [constant?, Array.getElem?_eq_some_iff] at stored
  obtain ⟨inside, rfl⟩ := stored
  have inside' : index.toNat < p.values.toList.length := by simpa using inside
  rw [← Array.getElem_toList inside, ← List.drop_eq_getElem_cons inside', List.take_append_drop]

theorem lines_split {p : Program} {index : UInt64} {m : Method} (found : p.method? index = some m) :
    ∃ after, p.lines = p.linesBefore index ++ m.lines ++ after := by
  have parts := values_split (method?_eq_some_iff.mp found)
  refine ⟨(p.values.toList.drop (index.toNat + 1)).flatMap Constant.lines, ?_⟩
  unfold lines linesBefore
  conv_lhs => rw [parts]
  simp [Constant.lines]

theorem classes_classRank {p : Program} {index : UInt64} {slots : List UInt64}
    (stored : p.constant? index = some (.classDef slots)) :
    p.classes[p.classRank index]? = some slots := by
  have parts := congrArg (List.filterMap Constant.classSlots?) (values_split stored)
  rw [List.filterMap_append] at parts
  rw [classes, classRank, parts]
  simp [Constant.classSlots?]

theorem place_eq {p : Program} {pos : Position} {m : Method} (found : p.method? pos.method = some m) :
    p.place pos = p.endOffset 0 (p.linesBefore pos.method ++ m.lines.take (pos.line + 1)) := by
  rw [place, found, endOffset_append]
  rfl

theorem place_next {p : Program} {pos : Position} {ins : Ins} (here : p.ins? pos = some ins) :
    p.place pos.next = p.lineEnd (p.place pos) (.ins ins) := by
  obtain ⟨m, found, at_line⟩ := ins?_eq_some_iff.mp here
  have line : m.lines[pos.line + 1]? = some (.ins ins) := by
    simp [Method.lines, at_line]
  have last : m.lines.take (pos.line + 1 + 1) = m.lines.take (pos.line + 1) ++ [.ins ins] := by
    rw [List.take_add_one, line]
    rfl
  have found' : p.method? pos.next.method = some m := found
  rw [place_eq found, place_eq found', Position.next]
  simp only [last, endOffset_append]
  rfl

theorem start_split {p : Program} {index : UInt64} {m : Method} (found : p.method? index = some m) :
    ∃ before after, p.lines = before ++ .frame m.nargs m.nlocals :: after ∧
      p.start index = p.endOffset 0 before := by
  obtain ⟨after, split⟩ := lines_split found
  exact ⟨p.linesBefore index, m.code.map .ins ++ after, by simp [split, Method.lines], rfl⟩

theorem place_split {p : Program} {pos : Position} {ins : Ins} (here : p.ins? pos = some ins) :
    ∃ before after, p.lines = before ++ .ins ins :: after ∧ p.place pos = p.endOffset 0 before := by
  obtain ⟨m, found, at_line⟩ := ins?_eq_some_iff.mp here
  obtain ⟨after, split⟩ := lines_split found
  have line : m.lines[pos.line + 1]? = some (.ins ins) := by
    simp [Method.lines, at_line]
  obtain ⟨inside, line⟩ := List.getElem?_eq_some_iff.mp line
  have parts := List.take_append_drop (pos.line + 1) m.lines
  rw [List.drop_eq_getElem_cons inside, line] at parts
  refine ⟨_, m.lines.drop (pos.line + 1 + 1) ++ after, ?_, place_eq found⟩
  rw [split]
  conv_lhs => rw [← parts]
  simp

end Program
end SlotVM
