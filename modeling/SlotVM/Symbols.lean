namespace SlotVM

structure Symbol where
  id : UInt32
deriving DecidableEq

/-- The names interned so far, each at the place that is its symbol, with an index that leads back from
a name to its symbol. -/
structure Symbols where
  names : Array String
  index : List (String × Symbol)
  inverse : ∀ name, index.lookup name = (names.toList.idxOf? name).map (⟨·.toUInt32⟩)
deriving DecidableEq

namespace Symbols

def empty : Symbols := ⟨#[], [], fun _ => rfl⟩

def size (symbols : Symbols) : Nat := symbols.names.size

def lookup? (symbols : Symbols) (name : String) : Option Symbol := symbols.index.lookup name

theorem lookup?_eq_none_iff {symbols : Symbols} {name : String} :
    symbols.lookup? name = none ↔ name ∉ symbols.names.toList := by
  rw [lookup?, symbols.inverse, Option.map_eq_none_iff, List.idxOf?_eq_none_iff]

theorem exists_of_lookup? {symbols : Symbols} {name : String} {symbol : Symbol}
    (found : symbols.lookup? name = some symbol) :
    ∃ place : Nat, symbols.names.toList[place]? = some name ∧ symbol = ⟨place.toUInt32⟩ := by
  rw [lookup?, symbols.inverse] at found
  obtain ⟨place, at_place, rfl⟩ := Option.map_eq_some_iff.mp found
  obtain ⟨inside, same, -⟩ := List.idxOf?_eq_some_iff.mp at_place
  exact ⟨place, List.getElem?_eq_some_iff.mpr ⟨inside, same⟩, rfl⟩

def add (symbols : Symbols) (name : String) (fresh : symbols.lookup? name = none) : Symbols where
  names := symbols.names.push name
  index := (name, ⟨symbols.size.toUInt32⟩) :: symbols.index
  inverse other := by
    rw [Array.toList_push, List.lookup_cons, List.idxOf?, List.findIdx?_append]
    by_cases same : other = name
    · subst same
      have absent := List.idxOf?_eq_none_iff.mpr (lookup?_eq_none_iff.mp fresh)
      rw [List.idxOf?] at absent
      simp [absent, size]
    · have differs : (other == name) = false := by simpa using same
      have apart : (name == other) = false := by simpa using Ne.symm same
      simp [differs, apart, symbols.inverse, List.idxOf?]

def intern (symbols : Symbols) (name : String) : Symbols × Symbol :=
  match found : symbols.lookup? name with
  | some symbol => (symbols, symbol)
  | none => (symbols.add name found, ⟨symbols.size.toUInt32⟩)

section
variable {symbols : Symbols} {name : String}

theorem intern_of_some {symbol : Symbol} (found : symbols.lookup? name = some symbol) :
    symbols.intern name = (symbols, symbol) := by
  unfold intern
  split <;> simp_all

theorem intern_of_none (fresh : symbols.lookup? name = none) :
    symbols.intern name = (symbols.add name fresh, ⟨symbols.size.toUInt32⟩) := by
  unfold intern
  split <;> simp_all

theorem toList_names_add (fresh : symbols.lookup? name = none) :
    (symbols.add name fresh).names.toList = symbols.names.toList ++ [name] :=
  Array.toList_push

end

def name? (symbols : Symbols) (symbol : Symbol) : Option String :=
  symbols.names[symbol.id.toNat]?

def nameOf (symbols : Symbols) (symbol : Symbol) : String :=
  (symbols.name? symbol).getD "<unknown>"

end Symbols
end SlotVM
