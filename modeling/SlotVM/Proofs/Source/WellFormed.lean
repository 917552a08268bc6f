import SlotVM.Proofs.Link.Positions
import Mathlib.Data.Option.Basic
import Mathlib.Tactic.MkIffOfInductiveProp

namespace SlotVM

namespace Constant

def method? : Constant → Option Method
  | .method m => some m
  | _ => none

def isLiteral : Constant → Bool
  | .int _ => true
  | .null => true
  | _ => false

end Constant

def Method.frameSize (m : Method) : Nat := min (m.nargs.toNat + m.nlocals.toNat) (2 ^ 32 - 1)

namespace Program

def methods (p : Program) : List Method := p.values.toList.filterMap Constant.method?

def labelNames (p : Program) : List String := p.labels.map (·.1)

def functionNames (p : Program) : List String := p.slots.filterMap p.methodName?

/-- A slot or a method whose name is a string. -/
def IsMember (p : Program) (index : UInt64) : Prop :=
  (p.variableName? index).isSome ∨ (p.methodName? index).isSome

/-- The operands of an instruction are of the right kind, in a body with so many locals. -/
def Fits (p : Program) (frameSize : Nat) : Ins → Prop
  | .label name | .slot name | .setSlot name | .callSlot name _ | .call name _ | .setGlobal name
  | .getGlobal name | .branch name | .goto name => (p.string? name).isSome
  | .printf format _ => (p.string? format).isSome
  | .lit idx => ∃ c ∈ p.constant? idx, c.isLiteral
  | .setLocal idx | .getLocal idx => idx.toNat < frameSize
  | .array | .object _ | .ret | .drop => True

def Resolves (p : Program) : Ins → Prop
  | .call name arity => ∃ text ∈ p.string? name, ∃ index ∈ p.slots,
      p.methodName? index = some text ∧ ∃ m ∈ p.method? index, m.nargs = arity
  | .branch name | .goto name => ∃ text ∈ p.string? name, text ∈ p.labelNames
  | .setGlobal name | .getGlobal name => ∃ text ∈ p.string? name, text ∈ p.globalNames
  | .object index => ∃ c ∈ p.constant? index, c.classSlots?.isSome
  | _ => True

@[mk_iff]
structure WellFormed (p : Program) : Prop where
  operands : ∀ m ∈ p.methods, ∀ ins ∈ m.code, p.Fits m.frameSize ins
  members : ∀ slots ∈ p.classes, ∀ index ∈ slots, p.IsMember index
  globals : ∀ index ∈ p.slots, p.IsMember index
  distinct : (p.labelNames ++ p.functionNames).Nodup
  references : ∀ m ∈ p.methods, ∀ ins ∈ m.code, p.Resolves ins
  entry : (p.method? p.entry).isSome

instance (p : Program) : DecidablePred p.IsMember := fun _ => inferInstanceAs (Decidable (_ ∨ _))

instance (p : Program) (frameSize : Nat) : DecidablePred (p.Fits frameSize)
  | .label _ | .slot _ | .setSlot _ | .callSlot _ _ | .call _ _ | .setGlobal _ | .getGlobal _
  | .branch _ | .goto _ | .printf _ _ => inferInstanceAs (Decidable (_ = true))
  | .lit idx => inferInstanceAs (Decidable (∃ c ∈ p.constant? idx, c.isLiteral))
  | .setLocal _ | .getLocal _ => inferInstanceAs (Decidable (_ < _))
  | .array | .object _ | .ret | .drop => inferInstanceAs (Decidable True)

instance (p : Program) : DecidablePred p.Resolves
  | .call name arity => inferInstanceAs (Decidable (∃ text ∈ p.string? name, ∃ index ∈ p.slots,
      p.methodName? index = some text ∧ ∃ m ∈ p.method? index, m.nargs = arity))
  | .branch name | .goto name =>
    inferInstanceAs (Decidable (∃ text ∈ p.string? name, text ∈ p.labelNames))
  | .setGlobal name | .getGlobal name =>
    inferInstanceAs (Decidable (∃ text ∈ p.string? name, text ∈ p.globalNames))
  | .object index => inferInstanceAs (Decidable (∃ c ∈ p.constant? index, c.classSlots?.isSome))
  | .label _ | .lit _ | .printf _ _ | .array | .slot _ | .setSlot _ | .callSlot _ _ | .setLocal _
  | .getLocal _ | .ret | .drop => inferInstanceAs (Decidable True)

-- goes through the list, where a search may also choose to go through all indices
instance (p : Program) (slots : List UInt64) : Decidable (∀ index ∈ slots, p.IsMember index) :=
  List.decidableBAll _ _

instance : DecidablePred WellFormed := fun p => decidable_of_iff' _ (wellFormed_iff p)

section
variable {p : Program}

theorem mem_filterMap_values (small : p.values.size < 2 ^ 32) {α : Type} {f : Constant → Option α}
    {a : α} : a ∈ p.values.toList.filterMap f ↔ ∃ index c, p.constant? index = some c ∧ f c = some a := by
  rw [← map_pool, List.filterMap_map, List.mem_filterMap]
  constructor
  · rintro ⟨⟨index, c⟩, member, found⟩
    exact ⟨index, c, (mem_pool_iff small).mp member, found⟩
  · rintro ⟨index, c, stored, found⟩
    exact ⟨(index, c), (mem_pool_iff small).mpr stored, found⟩

theorem mem_methods_iff (small : p.values.size < 2 ^ 32) {m : Method} :
    m ∈ p.methods ↔ ∃ index, p.method? index = some m := by
  rw [methods, mem_filterMap_values small]
  constructor
  · rintro ⟨index, c, stored, found⟩
    cases c with
    | method m' =>
      cases found
      exact ⟨index, method?_eq_some_iff.mpr stored⟩
    | _ => cases found
  · rintro ⟨index, found⟩
    exact ⟨index, .method m, method?_eq_some_iff.mp found, rfl⟩

theorem mem_classes_iff (small : p.values.size < 2 ^ 32) {slots : List UInt64} :
    slots ∈ p.classes ↔ ∃ index, p.constant? index = some (.classDef slots) := by
  rw [classes, mem_filterMap_values small]
  constructor
  · rintro ⟨index, c, stored, found⟩
    cases c with
    | classDef slots' =>
      cases found
      exact ⟨index, stored⟩
    | _ => cases found
  · rintro ⟨index, stored⟩
    exact ⟨index, .classDef slots, stored, rfl⟩

theorem mem_labelNames_iff (small : p.values.size < 2 ^ 32) {text : String} :
    text ∈ p.labelNames ↔ ∃ pos, p.labelName? pos = some text := by
  simp [labelNames, mem_labels_iff small]

theorem methodName?_eq_some_iff {index : UInt64} {text : String} :
    p.methodName? index = some text ↔
      ∃ m, p.method? index = some m ∧ p.string? m.name = some text :=
  Option.bind_eq_some_iff

theorem variableName?_eq_some_iff {index : UInt64} {text : String} :
    p.variableName? index = some text ↔
      ∃ name, p.constant? index = some (.slot name) ∧ p.string? name = some text := by
  unfold variableName?
  cases p.constant? index with
  | none => simp
  | some c => cases c <;> simp

theorem isMember_of_variable {index name : UInt64} {text : String}
    (stored : p.constant? index = some (.slot name)) (string : p.string? name = some text) :
    p.IsMember index := by
  refine .inl ?_
  rw [variableName?_eq_some_iff.mpr ⟨name, stored, string⟩]
  rfl

theorem isMember_of_method {index : UInt64} {m : Method} {text : String}
    (stored : p.constant? index = some (.method m)) (string : p.string? m.name = some text) :
    p.IsMember index := by
  refine .inr ?_
  rw [methodName?_eq_some_iff.mpr ⟨m, method?_eq_some_iff.mpr stored, string⟩]
  rfl

theorem IsMember.cases {index : UInt64} (member : p.IsMember index) :
    (∃ name text, p.constant? index = some (.slot name) ∧ p.string? name = some text) ∨
      ∃ m text, p.constant? index = some (.method m) ∧ p.string? m.name = some text := by
  rcases member with named | named
  · obtain ⟨text, named⟩ := Option.isSome_iff_exists.mp named
    obtain ⟨name, stored, string⟩ := variableName?_eq_some_iff.mp named
    exact .inl ⟨name, text, stored, string⟩
  · obtain ⟨text, named⟩ := Option.isSome_iff_exists.mp named
    obtain ⟨m, found, string⟩ := methodName?_eq_some_iff.mp named
    exact .inr ⟨m, text, method?_eq_some_iff.mp found, string⟩

theorem mem_lines_iff {line : Line} : line ∈ p.lines ↔ ∃ m ∈ p.methods, line ∈ m.lines := by
  rw [lines, List.mem_flatMap]
  constructor
  · rintro ⟨c, member, inside⟩
    cases c with
    | method m => exact ⟨m, List.mem_filterMap.mpr ⟨_, member, rfl⟩, inside⟩
    | _ => cases inside
  · rintro ⟨m, member, inside⟩
    obtain ⟨c, member, found⟩ := List.mem_filterMap.mp member
    cases c with
    | method _ =>
      cases found
      exact ⟨_, member, inside⟩
    | _ => cases found

theorem resolves_of_silent {ins : Ins} (silent : p.emits (.ins ins) = false) : p.Resolves ins := by
  cases ins with
  | object | call | setGlobal | getGlobal | branch | goto => cases silent
  | _ => trivial

end
end Program
end SlotVM
