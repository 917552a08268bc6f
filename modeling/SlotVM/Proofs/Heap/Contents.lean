import SlotVM.Proofs.Heap.Objects
import Mathlib.Logic.Function.Basic

namespace SlotVM.Heap

inductive Entry where
  | array (items : List Value)
  | object (index : Nat) (parent : Value) (slots : List Value)

namespace Entry

def words : Entry → List UInt64
  | array items => arrayTag :: items.length.toUInt64 :: items.map Value.raw
  | object index parent slots => (1 + index.toUInt64) :: parent.raw :: slots.map Value.raw

def setItem (place : Nat) (v : Value) : Entry → Entry
  | array items => array (items.set place v)
  | entry => entry

def setSlot (place : Nat) (v : Value) : Entry → Entry
  | object index parent slots => object index parent (slots.set place v)
  | entry => entry

def setParent (v : Value) : Entry → Entry
  | object index _ slots => object index v slots
  | entry => entry

def Fits : Entry → Prop
  | array items => items.length < 2 ^ 64
  | object index _ _ => index + 2 < 2 ^ 64

end Entry

abbrev Contents := Value → Option Entry

inductive Op where
  | array (len : Nat) (init : Value)
  | object (index nvars : Nat)
  | setItem (ref : Value) (place : Nat) (v : Value)
  | setSlot (ref : Value) (place : Nat) (v : Value)
  | setParent (ref v : Value)

namespace Op

/-- Stores go to places of objects made before, items to arrays, slots and parents to instances. A word
counts the bytes of an instance, and its header has no room for the two largest indices of a class. -/
def Allowed (contents : Contents) : Op → Prop
  | array _ _ => True
  | object index nvars => index + 2 < 2 ^ 64 ∧ blockSize nvars < 2 ^ 64
  | setItem ref place _ => ∃ items, contents ref = some (.array items) ∧ place < items.length
  | setSlot ref place _ =>
    ∃ index parent slots, contents ref = some (.object index parent slots) ∧ place < slots.length
  | setParent ref _ => ∃ index parent slots, contents ref = some (.object index parent slots)

def size? : Op → Option Nat
  | array len _ => some (blockSize len)
  | object _ nvars => some (blockSize nvars)
  | _ => none

def perform (h : Heap) : Op → Except Crash (Option Value × Heap)
  | array len init => .ok (made (h.allocArray? len init))
  | object index nvars => (h.allocObject? index nvars).map made
  | setItem ref place v => (h.arraySet ref place v).map (Prod.mk none)
  | setSlot ref place v => (h.setSlot ref place v).map (Prod.mk none)
  | setParent ref v => (h.setParent ref v).map (Prod.mk none)
where
  made : Option (Value × Heap) → Option Value × Heap
    | some (ref, h') => (some ref, h')
    | none => (none, h)

def record (contents : Contents) (new : Option Value) : Op → Contents
  | array len init => made (.array (.replicate len init))
  | object index nvars => made (.object index .null (.replicate nvars .null))
  | setItem ref place v => stored ref (.setItem place v)
  | setSlot ref place v => stored ref (.setSlot place v)
  | setParent ref v => stored ref (.setParent v)
where
  made (entry : Entry) : Contents :=
    match new with
    | some ref => Function.update contents ref (some entry)
    | none => contents
  stored (ref : Value) (store : Entry → Entry) : Contents :=
    Function.update contents ref ((contents ref).map store)

end Op

/-- What an operation returns: a reference that no object had if it is to make an object and there is
room for it, and nothing otherwise. Without room the heap stays as it is. -/
def Op.Answers (op : Op) (h : Heap) (contents : Contents) (new : Option Value) (h' : Heap) : Prop :=
  match op.size? with
  | none => new = none
  | some size =>
    if h.used + size ≤ h.semispace then ∃ ref, new = some ref ∧ contents ref = none
    else new = none ∧ h' = h

/-- The object behind a reference is the entry: all that can be read of it is what the entry says. -/
def Reads (h : Heap) (ref : Value) : Entry → Prop
  | .array items =>
    h.inCurrentSpace ref = true ∧ h.shape? ref = .ok (some (.array items.length)) ∧
      h.arrayLen ref = .ok items.length ∧
      ∀ place v, items[place]? = some v → h.arrayGet ref place = .ok v
  | .object index parent slots =>
    h.inCurrentSpace ref = true ∧ h.shape? ref = .ok (some (.object index)) ∧
      h.classOf ref = .ok index ∧ h.parent ref = .ok parent ∧
      ∀ place v, slots[place]? = some v → h.slot ref place = .ok v

structure HoldsAt (h : Heap) (a : Nat) (entry : Entry) : Prop where
  low : h.base ≤ a
  high : a + 8 * entry.words.length ≤ h.top
  word : ∀ n w, entry.words[n]? = some w → h.wordAt a n = w
  fits : entry.Fits

structure Holds (h : Heap) (contents : Contents) : Prop where
  heap : h.WellFormed
  entries : ∀ ref entry, contents ref = some entry → ∃ a, ref.addr? = some a ∧ h.HoldsAt a entry
  apart : ∀ ref ref' entry entry' a a', contents ref = some entry → contents ref' = some entry' →
    ref.addr? = some a → ref'.addr? = some a' → ref ≠ ref' →
    a + 8 * entry.words.length ≤ a' ∨ a' + 8 * entry'.words.length ≤ a

section
variable {h h' : Heap} {contents : Contents} {entry entry' : Entry} {ref v : Value} {a n : Nat}

theorem Entry.two_le_length_words (entry : Entry) : 2 ≤ entry.words.length := by
  cases entry <;> simp [Entry.words]

theorem HoldsAt.inside (held : h.HoldsAt a entry) (heap : h.WellFormed) (aligned : 8 ∣ a)
    (bound : n < entry.words.length) : a / 8 + n < h.memory.capacity := by
  have high := held.high
  have capacity := heap.capacity
  have limit := heap.top_le_limit
  have base := heap.base
  unfold Heap.limit at limit
  omega

theorem HoldsAt.loadWord (held : h.HoldsAt a entry) (heap : h.WellFormed) (at_a : ref.addr? = some a)
    {w : UInt64} (word : entry.words[n]? = some w) : h.loadWord ref n = .ok w := by
  have bound := (List.getElem?_eq_some_iff.mp word).1
  rw [loadWord_eq_wordAt at_a (held.inside heap (Value.addr?_aligned at_a) bound), held.word n w word]

theorem HoldsAt.inCurrentSpace (held : h.HoldsAt a entry) (at_a : ref.addr? = some a) :
    h.inCurrentSpace ref = true := by
  have low := held.low
  have high := held.high
  have two := entry.two_le_length_words
  simp only [Heap.inCurrentSpace, at_a, Bool.and_eq_true, decide_eq_true_eq]
  omega

theorem HoldsAt.reads (held : h.HoldsAt a entry) (heap : h.WellFormed) (at_a : ref.addr? = some a) :
    h.Reads ref entry := by
  have two := entry.two_le_length_words
  have inside := held.inside heap (Value.addr?_aligned at_a) (n := 1) (by omega)
  cases entry with
  | array items =>
    have length : items.length.toUInt64.toNat = items.length := UInt64.toNat_ofNat_of_lt' held.fits
    have second := held.word 1 _ rfl
    refine ⟨held.inCurrentSpace at_a, ?_, ?_, ?_⟩
    · rw [shape?_of_array at_a inside (held.word 0 _ rfl), second, length]
    · simp [arrayLen, held.loadWord heap at_a (n := 1) rfl, length, bind, Except.bind, pure, Except.pure]
    · intro place v item
      have word : (Entry.array items).words[2 + place]? = some v.raw := by
        simp [Entry.words, Nat.add_comm 2, item]
      simp [arrayGet, held.loadWord heap at_a word, bind, Except.bind, pure, Except.pure]
  | object index parent slots =>
    have header := toNat_instanceTag (Nat.lt_of_succ_lt held.fits)
    have index_eq : ((1 + index.toUInt64 : UInt64) - 1).toNat = index := by
      rw [UInt64.toNat_sub_of_le, header]
      · rfl
      · rw [UInt64.le_iff_toNat_le, header]
        exact Nat.le_add_left 1 index
    refine ⟨held.inCurrentSpace at_a, ?_, ?_, ?_, ?_⟩
    · apply shape?_of_object at_a (by omega)
      rw [held.word 0 _ rfl, header]
    · simp only [classOf, held.loadWord heap at_a (n := 0) rfl, bind, Except.bind, pure, Except.pure]
      rw [index_eq]
    · simp [Heap.parent, held.loadWord heap at_a (n := 1) rfl, bind, Except.bind, pure, Except.pure]
    · intro place v slot
      have word : (Entry.object index parent slots).words[2 + place]? = some v.raw := by
        simp [Entry.words, Nat.add_comm 2, slot]
      simp [Heap.slot, held.loadWord heap at_a word, bind, Except.bind, pure, Except.pure]

theorem Holds.fresh (holds : h.Holds contents) (ref : (Value.ofAddr h.top).addr? = some h.top) :
    contents (.ofAddr h.top) = none := by
  cases taken : contents (.ofAddr h.top) with
  | none => rfl
  | some entry =>
    rcases holds.entries _ entry taken with ⟨a, at_a, held⟩
    rw [ref] at at_a
    cases at_a
    -- an object there would end above the top
    have high := held.high
    have two := entry.two_le_length_words
    omega

theorem Holds.grow (holds : h.Holds contents) (heap : h'.WellFormed) (base : h'.base = h.base)
    (top : h'.top = h.top + 8 * entry.words.length)
    (below : ∀ i < h.top / 8, h'.memory.word i = h.memory.word i)
    (word : ∀ n w, entry.words[n]? = some w → h'.wordAt h.top n = w) (fits : entry.Fits)
    (ref : (Value.ofAddr h.top).addr? = some h.top) :
    h'.Holds (Function.update contents (.ofAddr h.top) (some entry)) := by
  have old (ref' : Value) (other : ref' ≠ .ofAddr h.top) :
      Function.update contents (.ofAddr h.top) (some entry) ref' = contents ref' :=
    Function.update_of_ne other _ _
  refine ⟨heap, ?_, ?_⟩
  · intro ref' entry' stored
    by_cases same : ref' = .ofAddr h.top
    · subst same
      rw [Function.update_self] at stored
      cases stored
      exact ⟨h.top, ref, base ▸ holds.heap.base_le_top, Nat.le_of_eq top.symm, word, fits⟩
    · rw [old ref' same] at stored
      rcases holds.entries ref' entry' stored with ⟨a, at_a, held⟩
      refine ⟨a, at_a, base ▸ held.low, ?_, ?_, held.fits⟩
      · have high := held.high
        omega
      · intro n w here
        have high := held.high
        have aligned := Value.addr?_aligned at_a
        have bound := (List.getElem?_eq_some_iff.mp here).1
        rw [← held.word n w here]
        exact below _ (by omega)
  · intro ref₁ ref₂ entry₁ entry₂ a₁ a₂ stored₁ stored₂ at₁ at₂ distinct
    -- all objects but the new one end below the old top
    have ends (ref' : Value) (entry' : Entry) (a' : Nat) (other : ref' ≠ .ofAddr h.top)
        (stored : Function.update contents (.ofAddr h.top) (some entry) ref' = some entry')
        (at_a : ref'.addr? = some a') : a' + 8 * entry'.words.length ≤ h.top := by
      rw [old ref' other] at stored
      rcases holds.entries ref' entry' stored with ⟨a, at_a', held⟩
      rw [at_a] at at_a'
      cases at_a'
      exact held.high
    by_cases first : ref₁ = .ofAddr h.top
    · subst first
      rw [ref] at at₁
      cases at₁
      exact .inr (ends ref₂ entry₂ a₂ distinct.symm stored₂ at₂)
    · by_cases second : ref₂ = .ofAddr h.top
      · subst second
        rw [ref] at at₂
        cases at₂
        exact .inl (ends ref₁ entry₁ a₁ first stored₁ at₁)
      · rw [old ref₁ first] at stored₁
        rw [old ref₂ second] at stored₂
        exact holds.apart ref₁ ref₂ entry₁ entry₂ a₁ a₂ stored₁ stored₂ at₁ at₂ distinct

theorem Holds.storeWord (holds : h.Holds contents) (stored : contents ref = some entry)
    (bound : n < entry.words.length) {w : UInt64} (words : entry'.words = entry.words.set n w)
    (fits : entry'.Fits) :
    ∃ h', h.storeWord ref n w = .ok h' ∧ h'.Holds (Function.update contents ref (some entry')) := by
  rcases holds.entries ref entry stored with ⟨a, at_a, held⟩
  have aligned := Value.addr?_aligned at_a
  have inside := held.inside holds.heap aligned bound
  have length : entry'.words.length = entry.words.length := by rw [words, List.length_set]
  refine ⟨_, storeWord_eq at_a inside w, holds.heap.put _ _, ?_, ?_⟩
  · intro ref' e stored'
    by_cases same : ref' = ref
    · subst same
      rw [Function.update_self] at stored'
      cases stored'
      refine ⟨a, at_a, held.low, length ▸ held.high, ?_, fits⟩
      intro m w' here
      rw [words, List.getElem?_set] at here
      by_cases hit : n = m
      · subst hit
        simp only [if_true, bound] at here
        cases here
        exact Memory.word_put_same _ _ _ inside
      · rw [if_neg hit] at here
        rw [← held.word m w' here]
        exact Memory.word_put_other _ _ _ _ (by omega)
    · rw [Function.update_of_ne same] at stored'
      rcases holds.entries ref' e stored' with ⟨a', at_a', held'⟩
      refine ⟨a', at_a', held'.low, held'.high, ?_, held'.fits⟩
      intro m w' here
      have apart := holds.apart ref ref' entry e a a' stored stored' at_a at_a' (Ne.symm same)
      have aligned' := Value.addr?_aligned at_a'
      have bound' := (List.getElem?_eq_some_iff.mp here).1
      rw [← held'.word m w' here]
      exact Memory.word_put_other _ _ _ _ (by omega)
  · intro ref₁ ref₂ entry₁ entry₂ a₁ a₂ stored₁ stored₂ at₁ at₂ distinct
    -- the object has kept its length
    have before (ref' : Value) (e : Entry)
        (stored' : Function.update contents ref (some entry') ref' = some e) :
        ∃ e', contents ref' = some e' ∧ e'.words.length = e.words.length := by
      by_cases same : ref' = ref
      · subst same
        rw [Function.update_self] at stored'
        cases stored'
        exact ⟨entry, stored, length.symm⟩
      · rw [Function.update_of_ne same] at stored'
        exact ⟨e, stored', rfl⟩
    rcases before ref₁ entry₁ stored₁ with ⟨e₁, old₁, length₁⟩
    rcases before ref₂ entry₂ stored₂ with ⟨e₂, old₂, length₂⟩
    rw [← length₁, ← length₂]
    exact holds.apart ref₁ ref₂ e₁ e₂ a₁ a₂ old₁ old₂ at₁ at₂ distinct

theorem Holds.pushArray (holds : h.Holds contents) {len : Nat} (init : Value)
    (fits : h.fits (blockSize len) = true) :
    contents (.ofAddr h.top) = none ∧ (h.pushArray len init).2.Holds
      (Function.update contents (.ofAddr h.top) (some (.array (.replicate len init)))) := by
  have heap := holds.heap
  have ref := heap.addr?_top (len + 2) (by omega) fits
  rcases heap.wordAt_pushArray init fits with ⟨header, length, item, below⟩
  have small : len < 2 ^ 64 := by
    rw [← length]
    exact UInt64.toNat_lt _
  have grown : (h.pushArray len init).2.WellFormed := heap.bump fits (by simp)
  refine ⟨holds.fresh ref, ?_⟩
  apply holds.grow grown rfl _ below _ _ ref
  · simp [Heap.pushArray, blockSize, Entry.words]
  · intro n w here
    match n with
    | 0 =>
      cases here
      exact header
    | 1 =>
      cases here
      rw [← UInt64.toNat_inj, length, List.length_replicate]
      exact (UInt64.toNat_ofNat_of_lt' small).symm
    | n + 2 =>
      simp only [Entry.words, List.map_replicate, List.getElem?_cons_succ, List.getElem?_replicate,
        Option.ite_none_right_eq_some, Option.some.injEq] at here
      rw [← here.2]
      exact item (n + 2) (by omega) (by omega)
  · show (List.replicate len init).length < 2 ^ 64
    rwa [List.length_replicate]

theorem Holds.pushObject (holds : h.Holds contents) {index nvars : Nat} (known : index + 2 < 2 ^ 64)
    (fits : h.fits (blockSize nvars) = true) :
    contents (.ofAddr h.top) = none ∧ (h.pushObject index nvars).2.Holds
      (Function.update contents (.ofAddr h.top)
        (some (.object index .null (.replicate nvars .null)))) := by
  have heap := holds.heap
  have ref := heap.addr?_top (nvars + 2) (by omega) fits
  rcases heap.wordAt_pushObject index fits with ⟨header, null, below⟩
  have pushed := pushObject_of_lt h index (heap.lt_of_fits fits)
  have grown : (h.pushObject index nvars).2.WellFormed := by
    rw [pushed]
    exact heap.bump fits (by simp)
  refine ⟨holds.fresh ref, ?_⟩
  apply holds.grow grown rfl _ below _ _ ref
  · simp [pushed, blockSize, Entry.words]
  · intro n w here
    match n with
    | 0 =>
      cases here
      exact header
    | 1 =>
      cases here
      exact null 1 (by omega) (by omega)
    | n + 2 =>
      simp only [Entry.words, List.map_replicate, List.getElem?_cons_succ, List.getElem?_replicate,
        Option.ite_none_right_eq_some, Option.some.injEq] at here
      rw [← here.2]
      exact null (n + 2) (by omega) (by omega)
  · exact known

theorem WellFormed.allocArray?_eq (heap : h.WellFormed) (len : Nat) (init : Value) :
    h.allocArray? len init =
      if h.fits (blockSize len) then some (.ofAddr h.top, (h.pushArray len init).2) else none := by
  by_cases room : h.fits (blockSize len) = true
  · rw [allocArray?, arraySize?_of_lt (heap.lt_of_fits room)]
    simp only [Option.bind_eq_bind, Option.bind_some, room, if_true]
    rfl
  · unfold allocArray? arraySize?
    split <;> simp [room]

theorem WellFormed.allocObject?_eq (heap : h.WellFormed) (index : Nat) {nvars : Nat}
    (sized : blockSize nvars < 2 ^ 64) :
    h.allocObject? index nvars = .ok
      (if h.fits (blockSize nvars) then some (.ofAddr h.top, (h.pushObject index nvars).2)
        else none) := by
  rw [allocObject?, objectSize_of_lt sized, objectWords_of_lt sized]
  by_cases room : h.fits (blockSize nvars) = true
  · obtain ⟨-, inside, -⟩ := heap.room room
    rw [if_pos room, if_pos room, if_pos (by omega)]
    rfl
  · rw [if_neg room, if_neg room]

theorem Holds.made (holds : h.Holds contents) {size : Nat} {alloc : Option (Value × Heap)}
    (allocated : alloc = if h.fits size then some (.ofAddr h.top, h') else none)
    (grown : h.fits size = true → contents (.ofAddr h.top) = none ∧
      h'.Holds (Function.update contents (.ofAddr h.top) (some entry))) :
    ∃ new after, Op.perform.made h alloc = (new, after) ∧
      (if h.used + size ≤ h.semispace then ∃ ref, new = some ref ∧ contents ref = none
        else new = none ∧ after = h) ∧
      after.Holds (Op.record.made contents new entry) := by
  rw [allocated]
  by_cases room : h.fits size = true
  · rcases grown room with ⟨fresh, holds'⟩
    have enough := (holds.heap.fits_iff size).mp room
    simp only [room, enough, if_true]
    exact ⟨_, _, rfl, ⟨_, rfl, fresh⟩, holds'⟩
  · have short : ¬ h.used + size ≤ h.semispace := fun enough =>
      room ((holds.heap.fits_iff size).mpr enough)
    simp only [room, short, Bool.false_eq_true, if_false]
    exact ⟨_, _, rfl, ⟨rfl, rfl⟩, holds⟩

theorem Holds.stored (holds : h.Holds contents) (here : contents ref = some entry)
    (bound : n < entry.words.length) {store : Entry → Entry} (fits : (store entry).Fits)
    (words : (store entry).words = entry.words.set n v.raw) :
    ∃ (new : Option Value) (after : Heap),
      (h.storeWord ref n v.raw).map (Prod.mk none) = .ok (new, after) ∧ new = none ∧
      after.Holds (Op.record.stored contents ref store) := by
  rcases holds.storeWord here bound words fits with ⟨after, done, holds'⟩
  refine ⟨none, after, ?_, rfl, ?_⟩
  · rw [done]
    rfl
  · unfold Op.record.stored
    rw [here]
    exact holds'

theorem Holds.perform (holds : h.Holds contents) {op : Op} (allowed : op.Allowed contents) :
    ∃ new h', op.perform h = .ok (new, h') ∧ op.Answers h contents new h' ∧
      h'.Holds (op.record contents new) := by
  cases op with
  | array len init =>
    rcases holds.made (holds.heap.allocArray?_eq len init) (holds.pushArray init) with
      ⟨new, h', made, answers, holds'⟩
    exact ⟨new, h', congrArg Except.ok made, answers, holds'⟩
  | object index nvars =>
    rcases holds.made rfl (holds.pushObject allowed.1) with ⟨new, h', made, answers, holds'⟩
    refine ⟨new, h', ?_, answers, holds'⟩
    rw [Op.perform, holds.heap.allocObject?_eq index allowed.2]
    exact congrArg Except.ok made
  | setItem ref place v =>
    rcases allowed with ⟨items, here, bound⟩
    apply holds.stored here (n := 2 + place)
    · simp only [Entry.words, List.length_cons, List.length_map]
      omega
    · rcases holds.entries ref _ here with ⟨a, -, held⟩
      simpa [Entry.setItem, Entry.Fits] using held.fits
    · simp [Entry.setItem, Entry.words, Nat.add_comm 2]
  | setSlot ref place v =>
    rcases allowed with ⟨index, parent, slots, here, bound⟩
    apply holds.stored here (n := 2 + place)
    · simp only [Entry.words, List.length_cons, List.length_map]
      omega
    · rcases holds.entries ref _ here with ⟨a, -, held⟩
      exact held.fits
    · simp [Entry.setSlot, Entry.words, Nat.add_comm 2]
  | setParent ref v =>
    rcases allowed with ⟨index, parent, slots, here⟩
    apply holds.stored here (n := 1)
    · simp [Entry.words]
    · rcases holds.entries ref _ here with ⟨a, -, held⟩
      exact held.fits
    · simp [Entry.setParent, Entry.words]

end

/-- The heaps and objects that come about when objects are made and stored into, one operation after
another, on a heap that starts out without any. -/
inductive Kept : Heap → Contents → Prop
  | start {h : Heap} (heap : h.WellFormed) : Kept h fun _ => none
  | perform {h h' : Heap} {contents : Contents} {op : Op} {new : Option Value}
      (before : Kept h contents) (allowed : op.Allowed contents)
      (done : op.perform h = .ok (new, h')) : Kept h' (op.record contents new)

section
variable {h : Heap} {contents : Contents}

theorem Kept.holds (kept : h.Kept contents) : h.Holds contents := by
  induction kept with
  | start heap => exact ⟨heap, nofun, nofun⟩
  | perform before allowed done ih =>
    rcases ih.perform allowed with ⟨new, h', done', -, holds⟩
    rw [done] at done'
    cases done'
    exact holds

/-- At any time every object made so far reads back as it was made and stored into, and a further
operation does what it should: no new object is at a reference that another one has. -/
theorem Kept.reads_back (kept : h.Kept contents) :
    (∀ ref entry, contents ref = some entry → h.Reads ref entry) ∧
      ∀ op : Op, op.Allowed contents → ∃ new h', op.perform h = .ok (new, h') ∧
        op.Answers h contents new h' ∧ h'.Kept (op.record contents new) := by
  have holds := kept.holds
  constructor
  · intro ref entry stored
    rcases holds.entries ref entry stored with ⟨a, at_a, held⟩
    exact held.reads holds.heap at_a
  · intro op allowed
    rcases holds.perform allowed with ⟨new, h', done, answers, -⟩
    exact ⟨new, h', done, answers, kept.perform allowed done⟩

theorem kept_array_and_instance :
    ∃ h contents, Heap.create 64 = .ok ⟨.zero 16, 64, 0, 0, 0, 0⟩ ∧ Kept h contents ∧
      contents ⟨1⟩ = some (.array [.ofInt 3, ⟨33⟩]) ∧
      contents ⟨33⟩ = some (.object 0 ⟨1⟩ [.ofInt 7]) ∧
      h.Reads ⟨1⟩ (.array [.ofInt 3, ⟨33⟩]) ∧ h.Reads ⟨33⟩ (.object 0 ⟨1⟩ [.ofInt 7]) ∧
      (Op.array 0 .null).perform h = .ok (none, h) := by
  have created : Heap.create 64 = .ok ⟨.zero 16, 64, 0, 0, 0, 0⟩ := rfl
  have start := Kept.start (Heap.create_wellFormed created)
  have array := start.perform (show (Op.array 2 (.ofInt 3)).Allowed _ from trivial) rfl
  have object := array.perform
    (show (Op.object 0 1).Allowed _ from ⟨by decide, by decide⟩) rfl
  have parent := object.perform
    (show (Op.setParent ⟨33⟩ ⟨1⟩).Allowed _ from ⟨_, _, _, rfl⟩) rfl
  have item := parent.perform
    (show (Op.setItem ⟨1⟩ 1 ⟨33⟩).Allowed _ from ⟨_, rfl, by decide⟩) rfl
  have slot := item.perform
    (show (Op.setSlot ⟨33⟩ 0 (.ofInt 7)).Allowed _ from ⟨_, _, _, rfl, by decide⟩) rfl
  rcases Kept.reads_back slot with ⟨reads, performs⟩
  rcases performs (.array 0 .null) trivial with ⟨new, h', full, answers, -⟩
  rcases (show new = none ∧ h' = _ from answers) with ⟨rfl, rfl⟩
  exact ⟨_, _, created, slot, rfl, rfl, reads _ _ rfl, reads _ _ rfl, full⟩

/-- What is not allowed does reach other fields and objects: the parent of an array is its length, an
instance of the largest class index is an array, and one of no bytes is where the next object goes. -/
theorem setParent_overwrites_length :
    ∃ h array after alone empty, Heap.create 64 = .ok h ∧
      h.allocArray? 1 .null = some (⟨1⟩, array) ∧ array.arrayLen ⟨1⟩ = .ok 1 ∧
      array.setParent ⟨1⟩ (.ofInt 5) = .ok after ∧ after.arrayLen ⟨1⟩ = .ok 40 ∧
      after.shape? ⟨1⟩ = .ok (some (.array 40)) ∧
      h.allocObject? (2 ^ 64 - 1) 0 = .ok (some (⟨1⟩, alone)) ∧
      alone.shape? ⟨1⟩ = .ok (some (.array 2)) ∧
      h.allocObject? 0 (2 ^ 64 - 2) = .ok (some (⟨1⟩, empty)) ∧
      (empty.allocArray? 1 .null).map Prod.fst = some ⟨1⟩ :=
  ⟨_, _, _, _, _, rfl, rfl, rfl, rfl, rfl, rfl, rfl, rfl, rfl, rfl⟩

end
end SlotVM.Heap
