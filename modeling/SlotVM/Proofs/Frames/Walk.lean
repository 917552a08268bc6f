import SlotVM.Frames

namespace SlotVM.Frames

/-- The frame at `fp` ends at `stop`, and saved frame pointers lead from it down to the bottom. -/
inductive Chain (words : Array Value) : Nat → Nat → Prop where
  | root {stop : Nat} (header : 2 ≤ stop) (inside : stop ≤ words.size) : Chain words 0 stop
  | link {fp stop : Nat} {saved : Value} (above : 0 < fp) (header : fp + 2 ≤ stop)
      (inside : stop ≤ words.size) (word : words[fp]? = some saved)
      (below : Chain words saved.raw.toNat fp) : Chain words fp stop

inductive IsSlot (words : Array Value) : Nat → Nat → Nat → Prop where
  | here {fp stop place : Nat} (low : fp + 2 ≤ place) (high : place < stop) :
      IsSlot words fp stop place
  | deeper {fp stop place : Nat} {saved : Value} (above : 0 < fp) (word : words[fp]? = some saved)
      (slot : IsSlot words saved.raw.toNat fp place) : IsSlot words fp stop place

def WellFormed (frames : Frames) : Prop :=
  frames.words = #[] ∨ Chain frames.words frames.fp frames.size

def Slot (frames : Frames) (place : Nat) : Prop :=
  frames.words ≠ #[] ∧ IsSlot frames.words frames.fp frames.size place

theorem Chain.slot_lt {words : Array Value} {fp stop place : Nat} (chain : Chain words fp stop)
    (slot : IsSlot words fp stop place) : place < stop := by
  induction chain with
  | root header inside =>
    cases slot with
    | here low high => exact high
    | deeper above word slot => omega
  | link above header inside word below ih =>
    cases slot with
    | here low high => exact high
    | deeper above' word' slot =>
      rw [word] at word'
      cases word'
      have := ih slot
      omega

theorem Chain.inside {words : Array Value} {fp stop : Nat} (chain : Chain words fp stop) :
    stop ≤ words.size := by
  cases chain with
  | root header inside => exact inside
  | link above header inside word below => exact inside

structure Visits (words : Array Value) (fp stop : Nat) (places : List Nat) : Prop where
  slots : ∀ place, place ∈ places ↔ IsSlot words fp stop place
  nodup : places.Nodup

theorem Chain.rootsBelow? {words : Array Value} {fp stop : Nat} (chain : Chain words fp stop)
    {fuel : Nat} (enough : stop ≤ fuel) :
    ∃ places, Frames.rootsBelow? words fuel fp stop = some places ∧
      Visits words fp stop places := by
  induction chain generalizing fuel with
  | @root stop header inside =>
    obtain ⟨fuel, rfl⟩ : ∃ n, fuel = n + 1 := ⟨fuel - 1, by omega⟩
    refine ⟨List.range' 2 (stop - 2), ?_, ?_, List.nodup_range'⟩
    · simp [Frames.rootsBelow?, header, inside]
    · intro place
      rw [List.mem_range'_1]
      constructor
      · rintro ⟨low, high⟩
        exact .here (by omega) (by omega)
      · intro slot
        cases slot with
        | here low high => omega
        | deeper above word slot => omega
  | @link fp stop saved above header inside word below ih =>
    obtain ⟨fuel, rfl⟩ : ∃ n, fuel = n + 1 := ⟨fuel - 1, by omega⟩
    obtain ⟨places, walk, visits⟩ := @ih fuel (by omega)
    refine ⟨List.range' (fp + 2) (stop - (fp + 2)) ++ places, ?_, ?_, ?_⟩
    · have bottom : fp ≠ 0 := by omega
      simp [Frames.rootsBelow?, header, inside, bottom, word, walk]
    · intro place
      rw [List.mem_append, List.mem_range'_1, visits.slots]
      constructor
      · rintro (⟨low, high⟩ | slot)
        · exact .here low (by omega)
        · exact .deeper above word slot
      · intro slot
        cases slot with
        | here low high => exact .inl ⟨low, by omega⟩
        | deeper above' word' slot =>
          rw [word] at word'
          cases word'
          exact .inr slot
    · refine List.nodup_append.mpr ⟨List.nodup_range', visits.nodup, ?_⟩
      -- the places of the frames below lie under this frame's header
      intro a ha b hb same
      subst same
      have low := (List.mem_range'_1.mp ha).1
      have high := below.slot_lt ((visits.slots a).mp hb)
      omega

theorem WellFormed.rootPlaces? {frames : Frames} (wf : frames.WellFormed) :
    ∃ places, frames.rootPlaces? = some places ∧ places.Nodup ∧
      (∀ place, place ∈ places ↔ frames.Slot place) ∧ ∀ place ∈ places, place < frames.size := by
  by_cases empty : frames.words = #[]
  · refine ⟨[], by simp [Frames.rootPlaces?, empty], .nil, ?_, by simp⟩
    intro place
    simp [Slot, empty]
  · have chain := wf.resolve_left empty
    obtain ⟨places, walk, visits⟩ := chain.rootsBelow? (Nat.le_refl _)
    refine ⟨places, ?_, visits.nodup, ?_, ?_⟩
    · simpa [Frames.rootPlaces?, empty] using walk
    · intro place
      rw [visits.slots]
      simp [Slot, empty]
    · intro place here
      exact chain.slot_lt ((visits.slots place).mp here)

def wordAt (frames : Frames) (place : Nat) : Value := frames.words[place]?.getD .null

theorem getElem?_eq_wordAt {frames : Frames} {place : Nat} (inside : place < frames.size) :
    frames.words[place]? = some (frames.wordAt place) := by
  unfold Frames.size at inside
  simp [wordAt, inside]

theorem roots?_eq {frames : Frames} {places : List Nat} (walk : frames.rootPlaces? = some places)
    (inside : ∀ place ∈ places, place < frames.size) :
    frames.roots? = some (places.map frames.wordAt) := by
  have read : places.mapM (frames.words[·]?) = some (places.map frames.wordAt) := by
    clear walk
    induction places with
    | nil => rfl
    | cons place places ih =>
      rw [List.mapM_cons, getElem?_eq_wordAt (inside place List.mem_cons_self),
        ih fun p here => inside p (List.mem_cons_of_mem _ here)]
      rfl
  simp [roots?, walk, read]

@[simp] theorem size_setPlaces (words : Array Value) (places : List Nat) (values : List Value) :
    (setPlaces words places values).size = words.size := by
  induction places generalizing words values with
  | nil => cases values <;> simp [setPlaces]
  | cons place places ih =>
    cases values with
    | nil => simp [setPlaces]
    | cons value values => rw [setPlaces, ih, Array.size_setIfInBounds]

theorem setPlaces_other {words : Array Value} {places : List Nat} {values : List Value} {i : Nat}
    (other : i ∉ places) : (setPlaces words places values)[i]? = words[i]? := by
  induction places generalizing words values with
  | nil => cases values <;> simp [setPlaces]
  | cons place places ih =>
    cases values with
    | nil => simp [setPlaces]
    | cons value values =>
      have apart : place ≠ i := fun same => other (by simp [same])
      rw [setPlaces, ih fun here => other (List.mem_cons_of_mem _ here),
        Array.getElem?_setIfInBounds_ne apart]

theorem setPlaces_map {words : Array Value} {places : List Nat} (nodup : places.Nodup)
    (inside : ∀ place ∈ places, place < words.size) (g : Nat → Value) {i : Nat} (here : i ∈ places) :
    (setPlaces words places (places.map g))[i]? = some (g i) := by
  induction places generalizing words with
  | nil => simp at here
  | cons place places ih =>
    obtain ⟨fresh, nodup⟩ := List.nodup_cons.mp nodup
    have first := inside place List.mem_cons_self
    simp only [List.map_cons, setPlaces]
    by_cases same : i = place
    · subst same
      rw [setPlaces_other fresh]
      simp [first]
    · refine ih nodup (fun p hp => ?_) ((List.mem_cons.mp here).resolve_left same)
      simpa using inside p (List.mem_cons_of_mem _ hp)

theorem Chain.congr {words words' : Array Value} {fp stop : Nat} (chain : Chain words fp stop)
    (size : words'.size = words.size)
    (headers : ∀ i < stop, ¬ IsSlot words fp stop i → words'[i]? = words[i]?) :
    Chain words' fp stop ∧ ∀ place, IsSlot words' fp stop place ↔ IsSlot words fp stop place := by
  induction chain with
  | root header inside =>
    refine ⟨.root header (size ▸ inside), fun place => ?_⟩
    constructor <;> intro slot <;> cases slot with
    | here low high => exact .here low high
    | deeper above word slot => omega
  | @link fp stop saved above header inside word below ih =>
    have unvisited : ¬ IsSlot words fp stop fp := by
      intro slot
      cases slot with
      | here low high => omega
      | deeper _ word' slot =>
        rw [word] at word'
        cases word'
        have := below.slot_lt slot
        omega
    have word' : words'[fp]? = some saved := by rw [headers fp (by omega) unvisited, word]
    obtain ⟨below', slots⟩ := ih fun i low unvisited => headers i (by omega) fun slot => by
      cases slot with
      | here low high => omega
      | deeper _ other slot =>
        rw [word] at other
        cases other
        exact unvisited slot
    refine ⟨.link above header (size ▸ inside) word' below', fun place => ?_⟩
    constructor
    · intro slot
      cases slot with
      | here low high => exact .here low high
      | deeper _ other slot =>
        rw [word'] at other
        cases other
        exact .deeper above word ((slots place).mp slot)
    · intro slot
      cases slot with
      | here low high => exact .here low high
      | deeper _ other slot =>
        rw [word] at other
        cases other
        exact .deeper above word' ((slots place).mpr slot)

theorem WellFormed.congr {frames frames' : Frames} (wf : frames.WellFormed)
    (fp : frames'.fp = frames.fp) (size : frames'.size = frames.size)
    (headers : ∀ i, ¬ frames.Slot i → frames'.words[i]? = frames.words[i]?) :
    frames'.WellFormed ∧ ∀ place, frames'.Slot place ↔ frames.Slot place := by
  unfold Frames.size at size
  by_cases empty : frames.words = #[]
  · have empty' : frames'.words = #[] := by
      rw [← Array.size_eq_zero_iff, size, empty]
      rfl
    exact ⟨.inl empty', fun place => by simp [Slot, empty, empty']⟩
  · have empty' : frames'.words ≠ #[] := by
      rw [ne_eq, ← Array.size_eq_zero_iff, size, Array.size_eq_zero_iff]
      exact empty
    obtain ⟨chain, slots⟩ := (wf.resolve_left empty).congr size fun i _ unvisited =>
      headers i fun slot => unvisited slot.2
    refine ⟨.inr ?_, fun place => ?_⟩
    · rw [fp, Frames.size, size]
      exact chain
    · unfold Slot
      rw [fp, Frames.size, size]
      simp only [ne_eq, empty, empty', not_false_eq_true, true_and]
      exact slots place

end SlotVM.Frames
