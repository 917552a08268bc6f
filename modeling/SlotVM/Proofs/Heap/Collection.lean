import SlotVM.Proofs.Frames.Walk
import SlotVM.Proofs.Heap.Scanning

namespace SlotVM

def Roots.Holds (roots : Roots) (v : Value) : Prop :=
  v ∈ roots.stack ∨ (∃ place, roots.frames.Slot place ∧ roots.frames.words[place]? = some v) ∨
    v ∈ roots.globals

/-- The roots after a collection: every value is relocated, frame headers stay. -/
structure Roots.Relocated (f : Nat → Nat) (roots roots' : Roots) : Prop where
  stack : roots'.stack = roots.stack.map (Value.relocate f)
  globals : roots'.globals = roots.globals.map (Value.relocate f)
  fp : roots'.frames.fp = roots.frames.fp
  size : roots'.frames.size = roots.frames.size
  slots : ∀ i, roots.frames.Slot i →
    roots'.frames.words[i]? = roots.frames.words[i]?.map (Value.relocate f)
  headers : ∀ i, ¬ roots.frames.Slot i → roots'.frames.words[i]? = roots.frames.words[i]?

section
variable {f : Nat → Nat} {roots roots' : Roots}

theorem Roots.Relocated.wellFormed (moved : roots.Relocated f roots')
    (frames : roots.frames.WellFormed) :
    roots'.frames.WellFormed ∧ ∀ place, roots'.frames.Slot place ↔ roots.frames.Slot place :=
  frames.congr moved.fp moved.size moved.headers

theorem Roots.Relocated.holds_iff (moved : roots.Relocated f roots')
    (frames : roots.frames.WellFormed) (w : Value) :
    roots'.Holds w ↔ ∃ v, roots.Holds v ∧ v.relocate f = w := by
  have slots := (moved.wellFormed frames).2
  unfold Roots.Holds
  rw [moved.stack, moved.globals, Array.mem_map, Array.mem_map]
  constructor
  · rintro (⟨v, here, rfl⟩ | ⟨place, slot, word⟩ | ⟨v, here, rfl⟩)
    · exact ⟨v, .inl here, rfl⟩
    · have slot := (slots place).mp slot
      rw [moved.slots place slot, Option.map_eq_some_iff] at word
      obtain ⟨v, word, rfl⟩ := word
      exact ⟨v, .inr (.inl ⟨place, slot, word⟩), rfl⟩
    · exact ⟨v, .inr (.inr here), rfl⟩
  · rintro ⟨v, here | ⟨place, slot, word⟩ | here, rfl⟩
    · exact .inl ⟨v, here, rfl⟩
    · refine .inr (.inl ⟨place, (slots place).mpr slot, ?_⟩)
      rw [moved.slots place slot, word, Option.map_some]
    · exact .inr (.inr ⟨v, here, rfl⟩)

end

namespace Heap

/-- `f` maps the graph of `root` in `h` one to one onto the graph of `root'` in `h'`: objects keep
header, length and place of every field, and a field that refers to `a` refers to `f a` then. -/
structure Carries (f : Nat → Nat) (h h' : Heap) (classes : ClassTable) (root root' : Value → Prop) :
    Prop where
  injective : ∀ a b, h.Reachable classes root a → h.Reachable classes root b → f a = f b → a = b
  encloses : ∀ a, h.Reachable classes root a → h'.Encloses classes (f a)
  header : ∀ a, h.Reachable classes root a → h'.wordAt (f a) 0 = h.wordAt a 0
  length : ∀ a, h.Reachable classes root a → h.wordAt a 0 = arrayTag →
    h'.wordAt (f a) 1 = h.wordAt a 1
  fields : ∀ a, h.Reachable classes root a →
    h'.fieldsAt classes (f a) = (h.fieldsAt classes a).map (Value.relocate f)
  reachable : ∀ b, h'.Reachable classes root' b ↔ ∃ a, h.Reachable classes root a ∧ f a = b

section
variable {old h : Heap} {classes : ClassTable} {root root' : Value → Prop} {moved : List Nat}

theorem Copying.reachable_mem (wf : old.WellFormed)
    (state : old.Copying classes root moved (h.top / 8) h)
    (roots : ∀ v, root v → ∀ a, v.addr? = some a → a ∈ moved) {a : Nat}
    (reach : old.Reachable classes root a) : a ∈ moved := by
  induction reach with
  | root here ref => exact roots _ here _ ref
  | @field a b v _ here ref ih =>
    obtain ⟨n, first, word, rfl⟩ := (old.mem_fieldsAt_iff classes a v).mp here
    have bounds := state.newAddr_bounds wf ih
    exact state.closed a ih n word first (by omega) b ref

theorem Copying.final (wf : old.WellFormed)
    (state : old.Copying classes root moved (h.top / 8) h) {a n : Nat} (here : a ∈ moved)
    (word : n < old.wordsAt classes a) :
    h.wordAt (old.newAddr classes moved a) n = old.finalWord classes moved a n := by
  have bounds := state.newAddr_bounds wf here
  rw [state.copied a here n word, if_pos (by omega)]

theorem Copying.final_header (wf : old.WellFormed)
    (state : old.Copying classes root moved (h.top / 8) h) {a : Nat} (here : a ∈ moved) :
    h.wordAt (old.newAddr classes moved a) 0 = old.wordAt a 0 := by
  have two := old.two_le_words classes a
  rw [state.final wf here (by omega), finalWord, if_pos (old.firstField_pos classes a)]

theorem Copying.final_length (wf : old.WellFormed)
    (state : old.Copying classes root moved (h.top / 8) h) {a : Nat} (here : a ∈ moved)
    (array : old.wordAt a 0 = arrayTag) :
    h.wordAt (old.newAddr classes moved a) 1 = old.wordAt a 1 := by
  have two := old.two_le_words classes a
  have first := firstField_of_array classes array
  rw [state.final wf here (by omega), finalWord, if_pos (by omega)]

theorem Copying.final_extent (wf : old.WellFormed)
    (state : old.Copying classes root moved (h.top / 8) h) {a : Nat} (here : a ∈ moved) :
    h.extentAt classes (old.newAddr classes moved a) = old.extentAt classes a :=
  extentAt_congr classes (state.final_header wf here) (state.final_length wf here)

theorem Copying.final_fields (wf : old.WellFormed)
    (state : old.Copying classes root moved (h.top / 8) h) {a : Nat} (here : a ∈ moved) :
    h.fieldsAt classes (old.newAddr classes moved a) =
      (old.fieldsAt classes a).map (Value.relocate (old.newAddr classes moved)) := by
  have first := old.firstField_le classes a
  have two := old.two_le_words classes a
  unfold wordsAt at two
  unfold fieldsAt
  rw [state.final_extent wf here, List.map_map]
  apply List.map_congr_left
  intro n hn
  rw [List.mem_range'_1] at hn
  have word : n < old.wordsAt classes a := by
    unfold wordsAt
    omega
  rw [state.final wf here word, finalWord, if_neg (by omega)]
  rfl

theorem Copying.wellFormed (wf : old.WellFormed) (live : old.Traceable classes root)
    {scanned : Nat} (state : old.Copying classes root moved scanned h) : h.WellFormed := by
  have room := (state.laid live).total_le wf
  have top := state.top
  have limit := wf.top_le_limit
  unfold Heap.limit at limit
  have aligned := wf.semispace_aligned
  refine ⟨?_, ?_, ?_, ?_, ?_, ?_, ?_⟩
  · rw [state.semispace]
    exact aligned
  · rw [state.capacity, state.semispace]
    exact wf.capacity
  · rw [state.semispace]
    exact wf.addressable
  · rw [state.base, state.semispace]
    rcases wf.otherBase_cases with ⟨_, other⟩ | ⟨_, other⟩
    · exact .inr other
    · exact .inl other
  · rw [state.base]
    omega
  · rw [Heap.limit, state.base, state.semispace]
    omega
  · rcases wf.otherBase_cases with ⟨_, other⟩ | ⟨_, other⟩ <;> omega

theorem Copying.encloses (wf : old.WellFormed)
    (state : old.Copying classes root moved (h.top / 8) h) {a : Nat} (here : a ∈ moved) :
    h.Encloses classes (old.newAddr classes moved a) := by
  have bounds := state.newAddr_bounds wf here
  unfold Encloses sizeAt wordsAt
  rw [state.final_extent wf here, state.base]
  exact ⟨bounds.1, bounds.2.1⟩

theorem Copying.addr?_newAddr (wf : old.WellFormed) (live : old.Traceable classes root)
    {scanned : Nat} (state : old.Copying classes root moved scanned h) {a : Nat}
    (here : a ∈ moved) :
    (Value.ofAddr (old.newAddr classes moved a)).addr? = some (old.newAddr classes moved a) := by
  have bounds := state.newAddr_bounds wf here
  have two := old.two_le_words classes a
  have fits := state.wellFormed wf live
  have limit := fits.top_le_limit
  have addressable := fits.addressable
  have base := fits.base
  unfold Heap.limit at limit
  exact Value.addr?_ofAddr _ bounds.2.2 (by omega)

theorem Copying.addr?_relocate (wf : old.WellFormed) (live : old.Traceable classes root)
    {scanned : Nat} (state : old.Copying classes root moved scanned h) {v : Value}
    (covered : ∀ a, v.addr? = some a → a ∈ moved) :
    (v.relocate (old.newAddr classes moved)).addr? = v.addr?.map (old.newAddr classes moved) := by
  cases ref : v.addr? with
  | none => rw [Value.relocate_of_none ref, ref, Option.map_none]
  | some a =>
    rw [Value.relocate_of_addr? ref, state.addr?_newAddr wf live (covered a ref), Option.map_some]

theorem Copying.supports_relocate (wf : old.WellFormed) (live : old.Traceable classes root)
    (state : old.Copying classes root moved (h.top / 8) h) {v : Value}
    (sound : old.Supports classes v) (covered : ∀ a, v.addr? = some a → a ∈ moved) :
    h.Supports classes (v.relocate (old.newAddr classes moved)) := by
  rcases sound with int | null | ⟨a, ref, _⟩
  · rw [Value.relocate_of_none (Value.addr?_of_isInt int)]
    exact .inl int
  · rw [null, Value.relocate_of_none Value.addr?_null]
    exact .inr (.inl rfl)
  · refine .inr (.inr ⟨old.newAddr classes moved a, ?_, state.encloses wf (covered a ref)⟩)
    rw [state.addr?_relocate wf live covered, ref, Option.map_some]

theorem Copying.reachable_iff (wf : old.WellFormed) (live : old.Traceable classes root)
    (state : old.Copying classes root moved (h.top / 8) h)
    (roots : ∀ v, root v → ∀ a, v.addr? = some a → a ∈ moved)
    (relocated : ∀ w, root' w ↔ ∃ v, root v ∧ v.relocate (old.newAddr classes moved) = w)
    (b : Nat) :
    h.Reachable classes root' b ↔
      ∃ a, old.Reachable classes root a ∧ old.newAddr classes moved a = b := by
  have covered : ∀ a, old.Reachable classes root a → ∀ v ∈ old.fieldsAt classes a,
      ∀ c, v.addr? = some c → c ∈ moved :=
    fun a reach v here c ref => state.reachable_mem wf roots (.field reach here ref)
  constructor
  · intro reach
    induction reach with
    | root here ref =>
      obtain ⟨v, held, rfl⟩ := (relocated _).mp here
      rw [state.addr?_relocate wf live (roots v held), Option.map_eq_some_iff] at ref
      obtain ⟨a, ref, rfl⟩ := ref
      exact ⟨a, .root held ref, rfl⟩
    | field _ here ref ih =>
      obtain ⟨a, reach, rfl⟩ := ih
      rw [state.final_fields wf (state.reachable_mem wf roots reach), List.mem_map] at here
      obtain ⟨v, held, rfl⟩ := here
      rw [state.addr?_relocate wf live (covered a reach v held), Option.map_eq_some_iff] at ref
      obtain ⟨c, ref, rfl⟩ := ref
      exact ⟨c, .field reach held ref, rfl⟩
  · rintro ⟨a, reach, rfl⟩
    induction reach with
    | @root v a here ref =>
      refine .root ((relocated _).mpr ⟨v, here, rfl⟩) ?_
      rw [state.addr?_relocate wf live (roots v here), ref, Option.map_some]
    | @field a c v reach here ref ih =>
      refine .field (v := v.relocate (old.newAddr classes moved)) ih ?_ ?_
      · rw [state.final_fields wf (state.reachable_mem wf roots reach)]
        exact List.mem_map_of_mem here
      · rw [state.addr?_relocate wf live (covered a reach v here), ref, Option.map_some]

theorem Copying.carries (wf : old.WellFormed) (live : old.Traceable classes root)
    (state : old.Copying classes root moved (h.top / 8) h)
    (roots : ∀ v, root v → ∀ a, v.addr? = some a → a ∈ moved)
    (relocated : ∀ w, root' w ↔ ∃ v, root v ∧ v.relocate (old.newAddr classes moved) = w) :
    Carries (old.newAddr classes moved) old h classes root root' where
  injective := by
    intro a b ha hb same
    have first : 0 < old.wordsAt classes a := Nat.lt_of_lt_of_le (by decide) (two_le_words _ _ _)
    have second : 0 < old.wordsAt classes b := Nat.lt_of_lt_of_le (by decide) (two_le_words _ _ _)
    exact (newAddr_word_unique (state.reachable_mem wf roots ha) (state.reachable_mem wf roots hb)
      first second (by rw [same])).1
  encloses := fun a reach => state.encloses wf (state.reachable_mem wf roots reach)
  header := fun a reach => state.final_header wf (state.reachable_mem wf roots reach)
  length := fun a reach => state.final_length wf (state.reachable_mem wf roots reach)
  fields := fun a reach => state.final_fields wf (state.reachable_mem wf roots reach)
  reachable := state.reachable_iff wf live roots relocated

theorem Copying.traceable (wf : old.WellFormed) (live : old.Traceable classes root)
    (state : old.Copying classes root moved (h.top / 8) h)
    (roots : ∀ v, root v → ∀ a, v.addr? = some a → a ∈ moved)
    (relocated : ∀ w, root' w ↔ ∃ v, root v ∧ v.relocate (old.newAddr classes moved) = w) :
    h.Traceable classes root' where
  roots := by
    intro w here
    obtain ⟨v, held, rfl⟩ := (relocated w).mp here
    exact state.supports_relocate wf live (live.roots v held) (roots v held)
  fields := by
    intro b copy w here
    obtain ⟨a, reach, rfl⟩ := (state.reachable_iff wf live roots relocated b).mp copy
    rw [state.final_fields wf (state.reachable_mem wf roots reach), List.mem_map] at here
    obtain ⟨v, held, rfl⟩ := here
    exact state.supports_relocate wf live (live.fields a reach v held)
      fun c ref => state.reachable_mem wf roots (.field reach held ref)
  apart := by
    intro b c hb hc distinct
    obtain ⟨a, ha, rfl⟩ := (state.reachable_iff wf live roots relocated b).mp hb
    obtain ⟨d, hd, rfl⟩ := (state.reachable_iff wf live roots relocated c).mp hc
    have ha := state.reachable_mem wf roots ha
    have hd := state.reachable_mem wf roots hd
    have apart := Packing.start_apart (old.wordsAt classes) ha hd
      fun same => distinct (by rw [same])
    unfold sizeAt
    rw [wordsAt, wordsAt, state.final_extent wf ha, state.final_extent wf hd]
    unfold newAddr
    unfold wordsAt at apart ⊢
    omega
  unmoved := by
    intro b copy
    obtain ⟨a, reach, rfl⟩ := (state.reachable_iff wf live roots relocated b).mp copy
    rw [state.final_header wf (state.reachable_mem wf roots reach)]
    exact live.unmoved a reach

end

def rootValues (roots : Roots) (places : List Nat) : List Value :=
  roots.stack.toList ++ places.map roots.frames.wordAt ++ roots.globals.toList

section
variable {h : Heap} {classes : ClassTable} {roots : Roots} {places : List Nat}

theorem mem_rootValues_iff (wf : roots.frames.WellFormed)
    (walk : roots.frames.rootPlaces? = some places) (v : Value) :
    v ∈ rootValues roots places ↔ roots.Holds v := by
  obtain ⟨places', walk', _, slots, inside⟩ := wf.rootPlaces?
  rw [walk] at walk'
  cases walk'
  simp only [rootValues, List.mem_append, List.mem_map, Array.mem_toList_iff, Roots.Holds,
    or_assoc]
  have middle : (∃ place, place ∈ places ∧ roots.frames.wordAt place = v) ↔
      ∃ place, roots.frames.Slot place ∧ roots.frames.words[place]? = some v := by
    constructor
    · rintro ⟨place, here, rfl⟩
      exact ⟨place, (slots place).mp here, Frames.getElem?_eq_wordAt (inside place here)⟩
    · rintro ⟨place, slot, word⟩
      exact ⟨place, (slots place).mpr slot, by simp [Frames.wordAt, word]⟩
  rw [middle]

theorem forward_scan {root : Value → Prop} (heap : h.WellFormed) (live : h.Traceable classes root)
    (xs ys zs : List Value) (held : ∀ v ∈ xs ++ ys ++ zs, root v) :
    ∃ h₁ h₂ h₃ h₄,
      forwardAll classes h.flip [] xs = .ok (xs.map (Value.relocate
        (h.newAddr classes (h.survivors classes (xs ++ ys ++ zs)))), h₁) ∧
      forwardAll classes h₁ [] ys = .ok (ys.map (Value.relocate
        (h.newAddr classes (h.survivors classes (xs ++ ys ++ zs)))), h₂) ∧
      forwardAll classes h₂ [] zs = .ok (zs.map (Value.relocate
        (h.newAddr classes (h.survivors classes (xs ++ ys ++ zs)))), h₃) ∧
      scan classes (h₃.memory.capacity + 1) h₃.base h₃ = .ok h₄ ∧
      h.Copying classes root (h.survivors classes (xs ++ ys ++ zs)) (h₄.top / 8) h₄ := by
  have reach : ∀ v ∈ xs ++ ys ++ zs, ∀ a, v.addr? = some a → h.Reachable classes root a :=
    fun v here a ref => .root (held v here) ref
  simp only [List.mem_append] at reach
  obtain ⟨h₁, run₁, state₁⟩ := Copying.start.forwardAll heap live [] xs
    fun v here => reach v (.inl (.inl here))
  obtain ⟨h₂, run₂, state₂⟩ := state₁.forwardAll heap live [] ys
    fun v here => reach v (.inl (.inr here))
  obtain ⟨h₃, run₃, state₃⟩ := state₂.forwardAll heap live [] zs
    fun v here => reach v (.inr here)
  have all : zs.foldl enlist (ys.foldl enlist (xs.foldl enlist [])) =
      (xs ++ ys ++ zs).foldl enlist [] := by
    rw [List.foldl_append, List.foldl_append]
  have base := state₃.base
  have capacity := state₃.capacity
  have bottom : h.otherBase = h.scanAt classes ((xs ++ ys ++ zs).foldl enlist []) 0 := by
    simp [scanAt]
  have grown₃ := h.prefix_sweep classes (h.memory.capacity + 1) 0
    ((xs ++ ys ++ zs).foldl enlist [])
  rw [← all] at grown₃
  have grown₂ := (prefix_foldl_enlist zs _).trans grown₃
  have grown₁ := (prefix_foldl_enlist ys _).trans grown₂
  -- each run of forwarding gives the references that hold at the end
  rw [map_relocate_of_grown h classes grown₁] at run₁
  rw [map_relocate_of_grown h classes grown₂] at run₂
  rw [map_relocate_of_grown h classes grown₃] at run₃
  rw [all] at run₁ run₂ run₃ state₃
  rw [bottom] at state₃ base
  obtain ⟨h₄, run₄, state₄⟩ := state₃.scan heap live (h.memory.capacity + 1) (Nat.zero_le _)
    (by omega)
  rw [← base, ← capacity] at run₄
  exact ⟨h₁, h₂, h₃, h₄, run₁, run₂, run₃, run₄, state₄⟩

theorem collect_copying (heap : h.WellFormed) (frames : roots.frames.WellFormed)
    (live : h.Traceable classes roots.Holds) (walk : roots.frames.rootPlaces? = some places) :
    ∃ h', h.collect classes roots =
        .ok (⟨roots.stack.map (Value.relocate
              (h.newAddr classes (h.survivors classes (rootValues roots places)))),
            { roots.frames with
              words := Frames.setPlaces roots.frames.words places (places.map fun place =>
                (roots.frames.wordAt place).relocate
                  (h.newAddr classes (h.survivors classes (rootValues roots places)))) },
            roots.globals.map (Value.relocate
              (h.newAddr classes (h.survivors classes (rootValues roots places))))⟩,
          h') ∧
      h.Copying classes roots.Holds (h.survivors classes (rootValues roots places))
        (h'.top / 8) h' := by
  obtain ⟨places', walk', _, _, inside⟩ := frames.rootPlaces?
  rw [walk] at walk'
  cases walk'
  obtain ⟨h₁, h₂, h₃, h₄, run₁, run₂, run₃, run₄, state⟩ := forward_scan heap live
    roots.stack.toList (places.map roots.frames.wordAt) roots.globals.toList
    fun v => (mem_rootValues_iff frames walk v).mp
  refine ⟨{ h₄ with cycles := h₄.cycles + 1 }, ?_, state.withCycles _⟩
  simp only [collect, bind, Except.bind, run₁, Frames.roots?_eq walk inside, run₂,
    Frames.withRoots?, walk, Option.bind, pure, Except.pure, run₃, run₄]
  simp [rootValues, ← Array.toList_map, Function.comp_def]

theorem relocated_setPlaces (frames : roots.frames.WellFormed)
    (walk : roots.frames.rootPlaces? = some places) (f : Nat → Nat) :
    roots.Relocated f ⟨roots.stack.map (Value.relocate f),
      { roots.frames with
        words := Frames.setPlaces roots.frames.words places
          (places.map fun place => (roots.frames.wordAt place).relocate f) },
      roots.globals.map (Value.relocate f)⟩ := by
  obtain ⟨places', walk', nodup, slots, inside⟩ := frames.rootPlaces?
  rw [walk] at walk'
  cases walk'
  refine ⟨rfl, rfl, rfl, ?_, ?_, ?_⟩
  · simp [Frames.size]
  · intro i slot
    have here := (slots i).mpr slot
    rw [Frames.setPlaces_map nodup inside _ here, Frames.getElem?_eq_wordAt (inside i here),
      Option.map_some]
  · intro i header
    exact Frames.setPlaces_other fun here => header ((slots i).mp here)

/-- A collection of sound roots ends without a crash. The graph that the roots lead to stands in the
other semispace then, every root follows its object, and the collected heap is sound again: no root or
field refers to the semispace that was left, and no object carries a record of having been moved. -/
theorem collect_preserves_graph (h : Heap) (classes : ClassTable) (roots : Roots)
    (heap : h.WellFormed) (frames : roots.frames.WellFormed)
    (live : h.Traceable classes roots.Holds) :
    ∃ (roots' : Roots) (h' : Heap) (f : Nat → Nat),
      h.collect classes roots = .ok (roots', h') ∧ h'.WellFormed ∧ h'.base = h.otherBase ∧
      roots.Relocated f roots' ∧ roots'.frames.WellFormed ∧
      Carries f h h' classes roots.Holds roots'.Holds ∧ h'.Traceable classes roots'.Holds := by
  obtain ⟨places, walk, _, _, _⟩ := frames.rootPlaces?
  obtain ⟨h', run, state⟩ := collect_copying heap frames live walk
  have covered : ∀ v, roots.Holds v → ∀ a, v.addr? = some a →
      a ∈ h.survivors classes (rootValues roots places) := fun v here a ref =>
    (h.prefix_sweep classes _ 0 _).subset
      (mem_foldl_enlist [] ((mem_rootValues_iff frames walk v).mpr here) ref)
  have moved := relocated_setPlaces frames walk
    (h.newAddr classes (h.survivors classes (rootValues roots places)))
  have relocated := moved.holds_iff frames
  exact ⟨_, h', _, run, state.wellFormed heap live, state.base, moved, (moved.wellFormed frames).1,
    state.carries heap live covered relocated, state.traceable heap live covered relocated⟩

end

def knot : Heap := ⟨⟨16, #[0, 2, 1, 33, 1, 1, 40]⟩, 64, 0, 56, 0, 0⟩

def knotClasses : ClassTable := ⟨#[⟨1, []⟩]⟩

def knotRoots : Roots := ⟨#[⟨33⟩], ⟨#[⟨0⟩, ⟨0⟩, ⟨1⟩], 0⟩, #[.null]⟩

theorem knot_frames : knotRoots.frames.WellFormed := .inr (.root (by decide) (by decide))

theorem knot_holds {v : Value} (held : knotRoots.Holds v) :
    v = ⟨33⟩ ∨ v = ⟨1⟩ ∨ v = .null := by
  rcases held with here | ⟨place, slot, word⟩ | here
  · exact .inl (by simpa [knotRoots] using here)
  · right
    left
    cases slot.2 with
    | here low high =>
      have place_eq : place = 2 := by
        simp only [knotRoots, Frames.size] at low high
        simp at high
        omega
      subst place_eq
      simpa [knotRoots] using word.symm
    | deeper above _ _ => exact absurd above (by decide)
  · exact .inr (.inr (by simpa [knotRoots] using here))

theorem knot_field {a : Nat} (at_object : a = 0 ∨ a = 32) {v : Value}
    (here : v ∈ knot.fieldsAt knotClasses a) : v = ⟨1⟩ ∨ v = ⟨33⟩ ∨ v = ⟨40⟩ := by
  rcases at_object with rfl | rfl
  · have fields : knot.fieldsAt knotClasses 0 = [⟨1⟩, ⟨33⟩] := by decide
    simp only [fields, List.mem_cons, List.not_mem_nil, or_false] at here
    rcases here with rfl | rfl <;> simp
  · have fields : knot.fieldsAt knotClasses 32 = [⟨1⟩, ⟨40⟩] := by decide
    simp only [fields, List.mem_cons, List.not_mem_nil, or_false] at here
    rcases here with rfl | rfl <;> simp

theorem knot_reachable {a : Nat} (reach : knot.Reachable knotClasses knotRoots.Holds a) :
    a = 0 ∨ a = 32 := by
  induction reach with
  | root here ref =>
    rcases knot_holds here with rfl | rfl | rfl
    · exact .inr (Option.some.inj (ref.symm.trans (by decide)))
    · exact .inl (Option.some.inj (ref.symm.trans (by decide)))
    · simp at ref
  | field _ here ref ih =>
    rcases knot_field ih here with rfl | rfl | rfl
    · exact .inl (Option.some.inj (ref.symm.trans (by decide)))
    · exact .inr (Option.some.inj (ref.symm.trans (by decide)))
    · exact absurd ref (by simp [show Value.addr? ⟨40⟩ = none by decide])

theorem knot_supports {v : Value} (known : v = ⟨1⟩ ∨ v = ⟨33⟩ ∨ v = ⟨40⟩ ∨ v = .null) :
    knot.Supports knotClasses v := by
  rcases known with rfl | rfl | rfl | rfl
  · exact .inr (.inr ⟨0, by decide, by decide, by decide⟩)
  · exact .inr (.inr ⟨32, by decide, by decide, by decide⟩)
  · exact .inl (by decide)
  · exact .inr (.inl rfl)

theorem knot_traceable : knot.Traceable knotClasses knotRoots.Holds where
  roots := by
    intro v held
    rcases knot_holds held with rfl | rfl | rfl <;> exact knot_supports (by simp)
  fields := by
    intro a reach v here
    rcases knot_field (knot_reachable reach) here with rfl | rfl | rfl <;>
      exact knot_supports (by simp)
  apart := by
    intro a b ha hb distinct
    rcases knot_reachable ha with rfl | rfl <;> rcases knot_reachable hb with rfl | rfl
    · exact absurd rfl distinct
    · exact .inl (by decide)
    · exact .inr (by decide)
    · exact absurd rfl distinct
  unmoved := by
    intro a reach
    rcases knot_reachable reach with rfl | rfl <;> decide

theorem knot_wellFormed : knot.WellFormed :=
  ⟨by decide, by decide, by decide, .inl rfl, by decide, by decide, by decide⟩

theorem collect_knot :
    (knot.WellFormed ∧ knotRoots.frames.WellFormed ∧
      knot.Traceable knotClasses knotRoots.Holds) ∧
    ∃ (roots' : Roots) (h' : Heap) (f : Nat → Nat),
      knot.collect knotClasses knotRoots = .ok (roots', h') ∧ h'.WellFormed ∧
      h'.base = knot.otherBase ∧ knotRoots.Relocated f roots' ∧ roots'.frames.WellFormed ∧
      Carries f knot h' knotClasses knotRoots.Holds roots'.Holds ∧
      h'.Traceable knotClasses roots'.Holds :=
  ⟨⟨knot_wellFormed, knot_frames, knot_traceable⟩,
    collect_preserves_graph knot knotClasses knotRoots knot_wellFormed knot_frames knot_traceable⟩

end Heap
end SlotVM
