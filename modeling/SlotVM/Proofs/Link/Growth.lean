import SlotVM.Proofs.Except
import SlotVM.Proofs.Source.Layout
import Mathlib.Data.List.Nodup
import Mathlib.Data.List.Perm.Subperm

namespace SlotVM

namespace Symbols

/-- No name is interned twice, and every name is a string of the pool. -/
structure Sound (p : Program) (symbols : Symbols) : Prop where
  nodup : symbols.names.toList.Nodup
  pooled : ∀ name ∈ symbols.names.toList, Constant.str name ∈ p.values.toList

theorem empty_sound (p : Program) : Sound p empty := ⟨by simp [empty], by simp [empty]⟩

theorem Sound.size_le {p : Program} {symbols : Symbols} (sound : symbols.Sound p) :
    symbols.size ≤ p.values.size := by
  have nodup : (symbols.names.toList.map Constant.str).Nodup :=
    sound.nodup.map fun _ _ same => Constant.str.inj same
  have subset : symbols.names.toList.map Constant.str ⊆ p.values.toList := by
    intro c member
    obtain ⟨name, interned, rfl⟩ := List.mem_map.mp member
    exact sound.pooled name interned
  have le := (nodup.subperm subset).length_le
  simpa [size] using le

theorem name?_eq_some {symbols : Symbols} {symbol : Symbol} {name : String} :
    symbols.name? symbol = some name ↔ symbols.names.toList[symbol.id.toNat]? = some name := by
  simp [name?]

theorem Sound.symbol_unique {p : Program} {symbols : Symbols} (sound : symbols.Sound p)
    {a b : Symbol} {name : String} (first : symbols.name? a = some name)
    (second : symbols.name? b = some name) : a = b := by
  rw [name?_eq_some] at first second
  obtain ⟨inside, first⟩ := List.getElem?_eq_some_iff.mp first
  obtain ⟨inside', second⟩ := List.getElem?_eq_some_iff.mp second
  have same := (sound.nodup.getElem_inj_iff).mp (first.trans second.symm)
  cases a
  cases b
  rw [Symbol.mk.injEq]
  exact UInt32.toNat_inj.mp same

theorem names_intern (symbols : Symbols) (name : String) :
    symbols.names.toList <+: (symbols.intern name).1.names.toList := by
  cases found : symbols.lookup? name with
  | some symbol => simp [intern_of_some found]
  | none =>
    rw [intern_of_none found, toList_names_add]
    exact List.prefix_append _ _

theorem Sound.intern {p : Program} {symbols : Symbols} (sound : symbols.Sound p) {name : String}
    (pooled : Constant.str name ∈ p.values.toList) : (symbols.intern name).1.Sound p := by
  cases found : symbols.lookup? name with
  | some symbol =>
    rw [intern_of_some found]
    exact sound
  | none =>
    have fresh := lookup?_eq_none_iff.mp found
    rw [intern_of_none found]
    constructor
    · rw [toList_names_add]
      exact sound.nodup.append (List.nodup_singleton name) (by simpa using fresh)
    · intro other member
      rw [toList_names_add, List.mem_append, List.mem_singleton] at member
      rcases member with member | rfl
      · exact sound.pooled other member
      · exact pooled

theorem Sound.name?_intern {p : Program} {symbols : Symbols} (sound : symbols.Sound p)
    (small : p.values.size < 2 ^ 32) (name : String) :
    (symbols.intern name).1.name? (symbols.intern name).2 = some name := by
  have size := sound.size_le
  unfold Symbols.size at size
  cases found : symbols.lookup? name with
  | some symbol =>
    obtain ⟨place, here, rfl⟩ := exists_of_lookup? found
    have inside := (List.getElem?_eq_some_iff.mp here).1
    rw [Array.length_toList] at inside
    rw [intern_of_some found, name?_eq_some, toNat_toUInt32 (by omega)]
    exact here
  | none =>
    rw [intern_of_none found, name?_eq_some, toList_names_add, Symbols.size,
      toNat_toUInt32 (by omega)]
    simp

end Symbols

theorem Program.mem_of_string? {p : Program} {index : UInt64} {text : String}
    (string : p.string? index = some text) : Constant.str text ∈ p.values.toList := by
  rw [string?_eq_some_iff, constant?] at string
  simpa using Array.mem_of_getElem? string

theorem Program.lt_of_string? {p : Program} {index : UInt64} {text : String}
    (string : p.string? index = some text) : index.toNat < p.values.size := by
  rw [string?_eq_some_iff, constant?, Array.getElem?_eq_some_iff] at string
  exact string.1

namespace Draft

/-- The ways in which a draft grows. -/
inductive Grows (p : Program) (d : Draft) : Draft → Prop
  | refl : Grows p d d
  | intern {d' : Draft} {index : UInt64} {text : String} (grown : Grows p d d')
      (string : p.string? index = some text) :
      Grows p d { d' with symbols := (d'.symbols.intern text).1 }
  | format {d' : Draft} {index : UInt64} {text : String} (grown : Grows p d d')
      (fresh : d'.formats.findIdx? (·.1 = index) = none) (string : p.string? index = some text) :
      Grows p d { d' with formats := d'.formats.push (index, text) }
  | define {d' : Draft} {key : Key} (grown : Grows p d d') (fresh : d'.find? key = none)
      (entry : Entry) : Grows p d { d' with entries := (key, entry) :: d'.entries }
  | add {d' : Draft} (grown : Grows p d d') (sketch : Sketch) : Grows p d (d'.add sketch)
  | addClass {d' : Draft} (grown : Grows p d d') (layout : ClassLayout) :
      Grows p d { d' with classes := d'.classes.push layout }
  | addGlobal {d' : Draft} (grown : Grows p d d') (symbol : Symbol) :
      Grows p d { d' with globals := d'.globals.push symbol }

section
variable {p : Program} {d d' : Draft}

theorem Grows.trans {d'' : Draft} (first : Grows p d d') (second : Grows p d' d'') :
    Grows p d d'' := by
  induction second with
  | refl => exact first
  | intern _ string ih => exact ih.intern string
  | format _ fresh string ih => exact ih.format fresh string
  | define _ fresh entry ih => exact ih.define fresh entry
  | add _ sketch ih => exact ih.add sketch
  | addClass _ layout ih => exact ih.addClass layout
  | addGlobal _ symbol ih => exact ih.addGlobal symbol

theorem Grows.names (grown : Grows p d d') :
    d.symbols.names.toList <+: d'.symbols.names.toList := by
  induction grown with
  | refl => exact List.prefix_rfl
  | intern _ _ ih => exact ih.trans (Symbols.names_intern _ _)
  | format _ _ _ ih | define _ _ _ ih | add _ _ ih | addClass _ _ ih | addGlobal _ _ ih => exact ih

theorem Grows.name? (grown : Grows p d d') {symbol : Symbol} {text : String}
    (named : d.symbols.name? symbol = some text) : d'.symbols.name? symbol = some text := by
  rw [Symbols.name?_eq_some] at named ⊢
  obtain ⟨rest, names⟩ := grown.names
  rw [← names, List.getElem?_append_left (List.getElem?_eq_some_iff.mp named).1]
  exact named

theorem Grows.formats (grown : Grows p d d') : d.formats.toList <+: d'.formats.toList := by
  induction grown with
  | refl => exact List.prefix_rfl
  | format _ _ _ ih => exact ih.trans (by simp)
  | intern _ _ ih | define _ _ _ ih | add _ _ ih | addClass _ _ ih | addGlobal _ _ ih => exact ih

theorem Grows.find? (grown : Grows p d d') {key : Key} {entry : Entry}
    (found : d.find? key = some entry) : d'.find? key = some entry := by
  induction grown with
  | refl => exact found
  | @define _ other _ fresh _ ih =>
    -- no key is defined twice
    have differs : (key == other) = false := by
      rw [beq_eq_false_iff_ne]
      rintro rfl
      rw [fresh] at ih
      cases ih
    simpa [Draft.find?, List.lookup_cons, differs] using ih
  | intern _ _ ih | format _ _ _ ih | add _ _ ih | addClass _ _ ih | addGlobal _ _ ih => exact ih

theorem Grows.body (grown : Grows p d d') : d.body.toList <+: d'.body.toList := by
  induction grown with
  | refl => exact List.prefix_rfl
  | add _ _ ih => exact ih.trans (by simp [Draft.add])
  | intern _ _ ih | format _ _ _ ih | define _ _ _ ih | addClass _ _ ih | addGlobal _ _ ih => exact ih

theorem Grows.classes (grown : Grows p d d') :
    d.classes.classes.toList <+: d'.classes.classes.toList := by
  induction grown with
  | refl => exact List.prefix_rfl
  | addClass _ _ ih => exact ih.trans (by simp [ClassTable.push])
  | intern _ _ ih | format _ _ _ ih | define _ _ _ ih | add _ _ ih | addGlobal _ _ ih => exact ih

def endOffset (offset : Nat) (body : List Sketch) : Nat :=
  body.foldl (fun pos sketch => sketch.opcode.endOffset pos) offset

structure Sound (p : Program) (d : Draft) : Prop where
  symbols : d.symbols.Sound p
  formats : ∀ format ∈ d.formats.toList, p.string? format.1 = some format.2
  formats_nodup : (d.formats.toList.map (·.1)).Nodup
  laid : d.offset = endOffset 0 d.body.toList

theorem empty_sound (p : Program) : Sound p empty :=
  ⟨Symbols.empty_sound p, by simp [empty], by simp [empty], rfl⟩

theorem Sound.grows (sound : d.Sound p) (grown : Grows p d d') : d'.Sound p := by
  induction grown with
  | refl => exact sound
  | intern _ string ih => exact { ih with symbols := ih.symbols.intern (p.mem_of_string? string) }
  | @format d' index text _ fresh string ih =>
    refine { ih with formats := ?_, formats_nodup := ?_ }
    · intro format member
      rw [Array.toList_push, List.mem_append, List.mem_singleton] at member
      rcases member with member | rfl
      · exact ih.formats format member
      · exact string
    · have absent : index ∉ d'.formats.toList.map (·.1) := by
        intro member
        obtain ⟨format, known, same⟩ := List.mem_map.mp member
        have differs := Array.findIdx?_eq_none_iff.mp fresh format (by simpa using known)
        simp [same] at differs
      rw [Array.toList_push, List.map_append]
      exact ih.formats_nodup.append (List.nodup_singleton index) (by simpa using absent)
  | add _ sketch ih => exact { ih with laid := by simp [Draft.add, endOffset, ih.laid] }
  | define _ _ _ ih | addClass _ _ ih | addGlobal _ _ ih => exact { ih with }

theorem Sound.formats_size_le (sound : d.Sound p) : d.formats.size ≤ p.values.size := by
  have nodup : (d.formats.toList.map (·.1.toNat)).Nodup := by
    have injective := sound.formats_nodup.map fun _ _ same => UInt64.toNat_inj.mp same
    rwa [List.map_map] at injective
  have subset : d.formats.toList.map (·.1.toNat) ⊆ List.range p.values.size := by
    intro place member
    obtain ⟨format, known, rfl⟩ := List.mem_map.mp member
    exact List.mem_range.mpr (p.lt_of_string? (sound.formats format known))
  have le := (nodup.subperm subset).length_le
  simpa using le

end

end Draft
end SlotVM
