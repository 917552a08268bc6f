import SlotVM.Proofs.Heap.Collection
import Mathlib.Data.Set.Function

namespace SlotVM

/-- An integer, null, or a reference to one of the objects. -/
def Value.Valid (objects : Nat → Prop) (v : Value) : Prop :=
  v.isInt = true ∨ v = .null ∨ ∃ addr, v.addr? = some addr ∧ objects addr

section
variable {objects objects' : Nat → Prop} {v : Value}

theorem Value.Valid.mono (valid : v.Valid objects) (grown : ∀ a, objects a → objects' a) :
    v.Valid objects' := by
  rcases valid with int | null | ⟨addr, ref, here⟩
  · exact .inl int
  · exact .inr (.inl null)
  · exact .inr (.inr ⟨addr, ref, grown addr here⟩)

theorem Value.valid_null : Value.null.Valid objects := .inr (.inl rfl)

theorem Value.valid_ofInt (n : Int) : (Value.ofInt n).Valid objects := .inl (isInt_ofInt n)

theorem Value.Valid.of_addr? (valid : v.Valid objects) {addr : Nat} (ref : v.addr? = some addr) :
    objects addr := by
  rcases valid with int | null | ⟨addr', ref', here⟩
  · rw [Value.addr?_of_isInt int] at ref
    cases ref
  · rw [null, Value.addr?_null] at ref
    cases ref
  · rw [ref] at ref'
    cases ref'
    exact here

end

namespace Heap

structure Houses (h : Heap) (classes : ClassTable) (objects : Nat → Prop) : Prop where
  heap : h.WellFormed
  aligned : ∀ a, objects a → 8 ∣ a
  encloses : ∀ a, objects a → h.Encloses classes a
  header : ∀ a, objects a → h.wordAt a 0 = arrayTag ∨
    ∃ index < classes.size, (h.wordAt a 0).toNat = index + 1
  fields : ∀ a, objects a → ∀ v ∈ h.fieldsAt classes a, v.Valid objects
  apart : ∀ a b, objects a → objects b → a ≠ b →
    a + h.sizeAt classes a ≤ b ∨ b + h.sizeAt classes b ≤ a
  /-- The parent of an instance is of a lower rank. -/
  ranked : ∃ rank : Nat → Nat, ∀ a b, objects a → h.wordAt a 0 ≠ arrayTag →
    Value.addr? ⟨h.wordAt a 1⟩ = some b → rank b < rank a

section
variable {h h' : Heap} {classes : ClassTable} {objects : Nat → Prop} {a n : Nat}

theorem WellFormed.houses (heap : h.WellFormed) (classes : ClassTable) :
    h.Houses classes fun _ => False := by
  refine ⟨heap, ?_, ?_, ?_, ?_, ?_, ⟨fun _ => 0, ?_⟩⟩ <;> exact nofun

theorem Houses.inside (houses : h.Houses classes objects) (here : objects a)
    (word : n < h.wordsAt classes a) : a / 8 + n < h.memory.capacity := by
  have inside := houses.encloses a here
  have aligned := houses.aligned a here
  have capacity := houses.heap.capacity
  have limit := houses.heap.top_le_limit
  have base := houses.heap.base
  unfold Encloses sizeAt at inside
  unfold Heap.limit at limit
  omega

theorem Houses.addr?_ofAddr (houses : h.Houses classes objects) (here : objects a) :
    (Value.ofAddr a).addr? = some a := by
  have two := h.two_le_words classes a
  have inside := houses.inside here (n := 0) (by omega)
  have capacity := houses.heap.capacity
  have addressable := houses.heap.addressable
  have aligned := houses.aligned a here
  exact Value.addr?_ofAddr a aligned (by omega)

theorem Houses.of_reachable (houses : h.Houses classes objects) {root : Value → Prop}
    (valid : ∀ v, root v → v.Valid objects) (reach : h.Reachable classes root a) : objects a := by
  induction reach with
  | root here ref => exact (valid _ here).of_addr? ref
  | field _ here ref ih => exact (houses.fields _ ih _ here).of_addr? ref

theorem Houses.supports (houses : h.Houses classes objects) {v : Value} (valid : v.Valid objects) :
    h.Supports classes v := by
  rcases valid with int | null | ⟨addr, ref, here⟩
  · exact .inl int
  · exact .inr (.inl null)
  · exact .inr (.inr ⟨addr, ref, houses.encloses addr here⟩)

theorem Houses.unmoved (houses : h.Houses classes objects) (few : classes.size < 2 ^ 32)
    (here : objects a) : h.wordAt a 0 ≠ forwardTag := by
  intro moved
  rcases houses.header a here with array | ⟨index, known, plain⟩
  · rw [array] at moved
    exact absurd moved (by decide)
  · rw [moved] at plain
    simp only [forwardTag] at plain
    change 18446744073709551615 = index + 1 at plain
    omega

theorem Houses.traceable (houses : h.Houses classes objects) (few : classes.size < 2 ^ 32)
    {root : Value → Prop} (valid : ∀ v, root v → v.Valid objects) : h.Traceable classes root where
  roots v here := houses.supports (valid v here)
  fields _ reach v here := houses.supports (houses.fields _ (houses.of_reachable valid reach) v here)
  apart a b ha hb := houses.apart a b (houses.of_reachable valid ha) (houses.of_reachable valid hb)
  unmoved _ reach := houses.unmoved few (houses.of_reachable valid reach)

theorem Houses.laid (houses : h.Houses classes objects) {blocks : List Nat} (nodup : blocks.Nodup)
    (here : ∀ a ∈ blocks, objects a) : h.Laid classes blocks :=
  ⟨nodup, fun a member => houses.aligned a (here a member),
    fun a member => houses.encloses a (here a member),
    fun a first b second => houses.apart a b (here a first) (here b second)⟩

theorem Houses.sizes {classes' : ClassTable} (houses : h.Houses classes objects)
    (size : classes.size = classes'.size)
    (same : ∀ index, classes.nvars index = classes'.nvars index) :
    h.Houses classes' objects := by
  have extent (a : Nat) : h.extentAt classes a = h.extentAt classes' a := by
    simp only [extentAt, same]
  have bytes (a : Nat) : h.sizeAt classes a = h.sizeAt classes' a := by
    simp only [sizeAt, wordsAt, extent]
  have fields (a : Nat) : h.fieldsAt classes a = h.fieldsAt classes' a := by
    simp only [fieldsAt, extent]
  refine ⟨houses.heap, houses.aligned, fun a here => ?_, fun a here => ?_, fun a here => ?_,
    fun a b first second => ?_, houses.ranked⟩
  · rw [Encloses, ← bytes]
    exact houses.encloses a here
  · rw [← size]
    exact houses.header a here
  · rw [← fields]
    exact houses.fields a here
  · rw [← bytes, ← bytes]
    exact houses.apart a b first second

theorem Houses.loadWord (houses : h.Houses classes objects) {v : Value} (ref : v.addr? = some a)
    (here : objects a) (word : n < h.wordsAt classes a) :
    h.loadWord v n = .ok (h.wordAt a n) :=
  loadWord_eq_wordAt ref (houses.inside here word)

theorem Houses.shape? (houses : h.Houses classes objects) {v : Value} (ref : v.addr? = some a)
    (here : objects a) :
    (h.wordAt a 0 = arrayTag ∧ h.shape? v = .ok (some (.array (h.wordAt a 1).toNat)) ∧
      h.wordsAt classes a = (h.wordAt a 1).toNat + 2) ∨
    ∃ index < classes.size, h.wordAt a 0 ≠ arrayTag ∧ h.shape? v = .ok (some (.object index)) ∧
      h.wordsAt classes a = classes.nvars index + 2 := by
  have two := h.two_le_words classes a
  have inside := houses.inside here (n := 1) (by omega)
  by_cases array : h.wordAt a 0 = arrayTag
  · exact .inl ⟨array, shape?_of_array ref inside array, by simp [wordsAt, extentAt, array]⟩
  · obtain ⟨index, known, tag⟩ := (houses.header a here).resolve_left array
    exact .inr ⟨index, known, array, shape?_of_object ref (by omega) tag,
      by simp [wordsAt, extentAt, array, tag]⟩

theorem Houses.field (houses : h.Houses classes objects) (here : objects a)
    (first : (h.extentAt classes a).firstField ≤ n) (word : n < h.wordsAt classes a) :
    Value.Valid objects ⟨h.wordAt a n⟩ :=
  houses.fields a here _ ((h.mem_fieldsAt_iff classes a _).mpr ⟨n, first, word, rfl⟩)

theorem Houses.item (houses : h.Houses classes objects) (here : objects a)
    (word : 2 + n < h.wordsAt classes a) : Value.Valid objects ⟨h.wordAt a (2 + n)⟩ :=
  houses.field here (by have := h.firstField_le classes a; omega) word

theorem Houses.parent (houses : h.Houses classes objects) (here : objects a)
    (plain : h.wordAt a 0 ≠ arrayTag) : Value.Valid objects ⟨h.wordAt a 1⟩ := by
  have two := h.two_le_words classes a
  exact houses.field here (by simp [extentAt, plain]) (by omega)

theorem Houses.rewrite (houses : h.Houses classes objects) (heap : h'.WellFormed)
    (base : h'.base = h.base) (top : h'.top = h.top)
    (fixed : ∀ a, objects a → ∀ n < 2, h'.wordAt a n = h.wordAt a n)
    (fields : ∀ a, objects a → ∀ n, 2 ≤ n → n < h.wordsAt classes a →
      Value.Valid objects ⟨h'.wordAt a n⟩) : h'.Houses classes objects := by
  have extent (a : Nat) (here : objects a) : h'.extentAt classes a = h.extentAt classes a :=
    extentAt_congr classes (fixed a here 0 (by decide)) fun _ => fixed a here 1 (by decide)
  have size (a : Nat) (here : objects a) : h'.sizeAt classes a = h.sizeAt classes a := by
    rw [sizeAt, sizeAt, wordsAt, wordsAt, extent a here]
  refine ⟨heap, houses.aligned, ?_, ?_, ?_, ?_, ?_⟩
  · intro a here
    have inside := houses.encloses a here
    unfold Encloses at inside ⊢
    rwa [base, top, size a here]
  · intro a here
    rw [fixed a here 0 (by decide)]
    exact houses.header a here
  · intro a here v field
    obtain ⟨n, first, word, rfl⟩ := (h'.mem_fieldsAt_iff classes a v).mp field
    rw [extent a here] at first
    rw [wordsAt, extent a here] at word
    by_cases low : n < 2
    · rw [fixed a here n low]
      exact houses.field here first word
    · exact fields a here n (by omega) word
  · intro a b first second distinct
    rw [size a first, size b second]
    exact houses.apart a b first second distinct
  · obtain ⟨rank, lower⟩ := houses.ranked
    refine ⟨rank, fun a b here plain ref => ?_⟩
    rw [fixed a here 0 (by decide)] at plain
    rw [fixed a here 1 (by decide)] at ref
    exact lower a b here plain ref

theorem WellFormed.put (heap : h.WellFormed) (i : Nat) (w : UInt64) :
    WellFormed { h with memory := h.memory.put i w } :=
  ⟨heap.semispace_aligned, by simpa using heap.capacity, heap.addressable, heap.base,
    heap.base_le_top, heap.top_le_limit, heap.top_aligned⟩

theorem storeWord_eq {v : Value} (ref : v.addr? = some a) (inside : a / 8 + n < h.memory.capacity)
    (w : UInt64) :
    h.storeWord v n w = .ok { h with memory := h.memory.put (a / 8 + n) w } := by
  have place : (a + 8 * n) / 8 = a / 8 + n := by omega
  simp only [Heap.storeWord, wordAddr, ref, bind, Except.bind, Heap.store, place, inside, if_true]

theorem Houses.storeWord (houses : h.Houses classes objects) {v value : Value}
    (ref : v.addr? = some a) (here : objects a) (word : 2 + n < h.wordsAt classes a)
    (valid : value.Valid objects) :
    ∃ h', h.storeWord v (2 + n) value.raw = .ok h' ∧ h'.Houses classes objects := by
  have inside := houses.inside here word
  refine ⟨{ h with memory := h.memory.put (a / 8 + (2 + n)) value.raw }, ?_, ?_⟩
  · exact storeWord_eq ref inside value.raw
  · -- only one place is written, and it is no header's
    have other (b m : Nat) (apart : b / 8 + m ≠ a / 8 + (2 + n)) :
        wordAt { h with memory := h.memory.put (a / 8 + (2 + n)) value.raw } b m = h.wordAt b m :=
      Memory.word_put_other _ _ _ _ apart.symm
    refine houses.rewrite (houses.heap.put _ _) rfl rfl ?_ ?_
    · intro b known m low
      apply other
      by_cases same : b = a
      · subst same
        omega
      · have apart := houses.apart a b here known fun same' => same same'.symm
        have two := h.two_le_words classes b
        have aligned := houses.aligned a here
        have aligned' := houses.aligned b known
        unfold sizeAt at apart
        omega
    · intro b known m high bound
      by_cases same : b / 8 + m = a / 8 + (2 + n)
      · have written : wordAt { h with memory := h.memory.put (a / 8 + (2 + n)) value.raw } b m =
            value.raw := by
          rw [wordAt, same]
          exact Memory.word_put_same _ _ _ inside
        rw [written]
        exact valid
      · rw [other b m same]
        have first := h.firstField_le classes b
        exact houses.field known (by omega) bound

theorem Houses.extend (houses : h.Houses classes objects) (heap : h'.WellFormed)
    (base : h'.base = h.base) (top : h'.top = h.top + h'.sizeAt classes h.top)
    (below : ∀ i < h.top / 8, h'.memory.word i = h.memory.word i)
    (header : h'.wordAt h.top 0 = arrayTag ∨
      ∃ index < classes.size, (h'.wordAt h.top 0).toNat = index + 1)
    (fields : ∀ v ∈ h'.fieldsAt classes h.top, v.Valid objects) :
    h'.Houses classes fun a => objects a ∨ a = h.top := by
  have old_below (a : Nat) (here : objects a) : a + h.sizeAt classes a ≤ h.top :=
    (houses.encloses a here).2
  have old_word (a : Nat) (here : objects a) (n : Nat) (word : n < h.wordsAt classes a) :
      h'.wordAt a n = h.wordAt a n := by
    have inside := old_below a here
    have aligned := houses.aligned a here
    unfold sizeAt at inside
    exact below _ (by omega)
  have extent (a : Nat) (here : objects a) : h'.extentAt classes a = h.extentAt classes a := by
    have two := h.two_le_words classes a
    exact extentAt_congr classes (old_word a here 0 (by omega)) fun _ => old_word a here 1 (by omega)
  have size (a : Nat) (here : objects a) : h'.sizeAt classes a = h.sizeAt classes a := by
    rw [sizeAt, sizeAt, wordsAt, wordsAt, extent a here]
  have grown : ∀ a, objects a → objects a ∨ a = h.top := fun a here => .inl here
  refine ⟨heap, ?_, ?_, ?_, ?_, ?_, ?_⟩
  · rintro a (here | rfl)
    · exact houses.aligned a here
    · exact houses.heap.top_aligned
  · rintro a (here | rfl)
    · have inside := houses.encloses a here
      unfold Encloses at inside ⊢
      rw [base, size a here]
      omega
    · exact ⟨base ▸ houses.heap.base_le_top, by rw [top]⟩
  · rintro a (here | rfl)
    · have two := h.two_le_words classes a
      rw [old_word a here 0 (by omega)]
      exact houses.header a here
    · exact header
  · rintro a (here | rfl) v field
    · obtain ⟨n, first, word, rfl⟩ := (h'.mem_fieldsAt_iff classes a v).mp field
      rw [extent a here] at first
      rw [wordsAt, extent a here] at word
      rw [old_word a here n word]
      exact (houses.field here first word).mono grown
    · exact (fields v field).mono grown
  · rintro a b (first | rfl) (second | rfl) distinct
    · rw [size a first, size b second]
      exact houses.apart a b first second distinct
    · rw [size a first]
      exact .inl (old_below a first)
    · rw [size b second]
      exact .inr (old_below b second)
    · exact absurd rfl distinct
  · -- the new object ranks above its parent, and nothing refers to it yet
    obtain ⟨rank, lower⟩ := houses.ranked
    have fresh (a : Nat) (here : objects a) : a ≠ h.top := by
      have inside := old_below a here
      have two := h.two_le_words classes a
      unfold sizeAt at inside
      omega
    refine ⟨fun a => if a = h.top then
      (Value.addr? ⟨h'.wordAt h.top 1⟩).elim 0 fun b => rank b + 1 else rank a, ?_⟩
    rintro a b (here | rfl) plain ref
    · have two := h.two_le_words classes a
      rw [old_word a here 0 (by omega)] at plain
      rw [old_word a here 1 (by omega)] at ref
      have known := (houses.parent here plain).of_addr? ref
      simp only [fresh a here, fresh b known, if_false]
      exact lower a b here plain ref
    · have two := h'.two_le_words classes h.top
      have parent : Value.Valid objects ⟨h'.wordAt h.top 1⟩ := fields _
        ((h'.mem_fieldsAt_iff classes h.top _).mpr
          ⟨1, by simp [extentAt, plain], by omega, rfl⟩)
      simp only [fresh b (parent.of_addr? ref), if_false, if_true, ref, Option.elim_some]
      omega

theorem WellFormed.fits_iff (heap : h.WellFormed) (size : Nat) :
    h.fits size = true ↔ h.used + size ≤ h.semispace := by
  have low := heap.base_le_top
  unfold fits Heap.limit used
  rw [decide_eq_true_iff]
  omega

theorem WellFormed.room (heap : h.WellFormed) {words : Nat} (fits : h.fits (8 * words) = true) :
    h.top + 8 * words ≤ h.limit ∧ h.top / 8 + words ≤ h.memory.capacity ∧
      h.top + 8 * words ≤ 2 ^ 64 := by
  have room : h.top + 8 * words ≤ h.limit := of_decide_eq_true fits
  have capacity := heap.capacity
  have addressable := heap.addressable
  have aligned := heap.semispace_aligned
  have base := heap.base
  refine ⟨room, ?_, ?_⟩ <;> unfold Heap.limit at room <;> omega

theorem WellFormed.lt_of_fits (heap : h.WellFormed) {fields : Nat}
    (fits : h.fits (blockSize fields) = true) : blockSize fields < UInt64.size := by
  have room := (heap.fits_iff _).mp fits
  have addressable := heap.addressable
  unfold blockSize at room ⊢
  unfold UInt64.size
  omega

theorem WellFormed.bump (heap : h.WellFormed) {words : Nat} (fits : h.fits (8 * words) = true)
    {memory : Memory} (capacity : memory.capacity = h.memory.capacity) :
    WellFormed { h with memory := memory, top := h.top + 8 * words } := by
  obtain ⟨room, -, -⟩ := heap.room fits
  have low := heap.base_le_top
  have aligned := heap.top_aligned
  exact ⟨heap.semispace_aligned, by rw [capacity]; exact heap.capacity, heap.addressable, heap.base,
    Nat.le_trans low (Nat.le_add_right _ _), room, Nat.dvd_add aligned (Nat.dvd_mul_right 8 words)⟩

theorem WellFormed.addr?_top (heap : h.WellFormed) (words : Nat) (some_words : 0 < words)
    (fits : h.fits (8 * words) = true) : (Value.ofAddr h.top).addr? = some h.top := by
  obtain ⟨-, -, small⟩ := heap.room fits
  exact Value.addr?_ofAddr h.top heap.top_aligned (by omega)

theorem toNat_instanceTag {index : Nat} (small : index + 1 < 2 ^ 64) :
    ((1 : UInt64) + index.toUInt64).toNat = index + 1 := by
  have same : index.toUInt64.toNat = index :=
    UInt64.toNat_ofNat_of_lt' (show index < 2 ^ 64 by omega)
  rw [UInt64.toNat_add, same]
  change (1 + index) % 2 ^ 64 = index + 1
  omega

theorem WellFormed.wordAt_pushArray (heap : h.WellFormed) {len : Nat} (init : Value)
    (fits : h.fits (blockSize len) = true) :
    (h.pushArray len init).2.wordAt h.top 0 = arrayTag ∧
      ((h.pushArray len init).2.wordAt h.top 1).toNat = len ∧
      (∀ n, 2 ≤ n → n < len + 2 → (h.pushArray len init).2.wordAt h.top n = init.raw) ∧
      ∀ i < h.top / 8, (h.pushArray len init).2.memory.word i = h.memory.word i := by
  obtain ⟨room, inside, small⟩ := heap.room fits
  have length : len.toUInt64.toNat = len := UInt64.toNat_ofNat_of_lt' (show len < 2 ^ 64 by omega)
  have word (n : Nat) : (h.pushArray len init).2.wordAt h.top n =
      (((h.memory.put (h.top / 8) arrayTag).put (h.top / 8 + 1) len.toUInt64).fill
        (h.top / 8 + 2) init.raw len).word (h.top / 8 + n) := rfl
  refine ⟨?_, ?_, fun n first bound => ?_, fun i low => ?_⟩
  · rw [word, Memory.word_fill_outside _ _ _ _ _ (by omega),
      Memory.word_put_other _ _ _ _ (by omega)]
    exact Memory.word_put_same _ _ _ (by omega)
  · rw [word, Memory.word_fill_outside _ _ _ _ _ (by omega),
      Memory.word_put_same _ _ _ (by rw [Memory.capacity_put]; omega), length]
  · rw [word, Memory.word_fill_inside _ _ _ _ _ (by simp only [Memory.capacity_put]; omega)
      (by omega) (by omega)]
  · refine (Memory.word_fill_outside _ _ _ _ _ (by omega)).trans ?_
    rw [Memory.word_put_other _ _ _ _ (by omega), Memory.word_put_other _ _ _ _ (by omega)]

theorem WellFormed.wordAt_pushObject (heap : h.WellFormed) (index : Nat) {nvars : Nat}
    (fits : h.fits (blockSize nvars) = true) :
    (h.pushObject index nvars).2.wordAt h.top 0 = 1 + index.toUInt64 ∧
      (∀ n, 1 ≤ n → n < nvars + 2 →
        (h.pushObject index nvars).2.wordAt h.top n = Value.null.raw) ∧
      ∀ i < h.top / 8, (h.pushObject index nvars).2.memory.word i = h.memory.word i := by
  obtain ⟨-, inside, -⟩ := heap.room fits
  have memory : (h.pushObject index nvars).2.memory =
      (h.memory.put (h.top / 8) (1 + index.toUInt64)).fill (h.top / 8 + 1) Value.null.raw
        (nvars + 1) := by
    rw [pushObject_of_lt h index (heap.lt_of_fits fits)]
  have word (n : Nat) : (h.pushObject index nvars).2.wordAt h.top n =
      (h.pushObject index nvars).2.memory.word (h.top / 8 + n) := rfl
  simp only [word, memory]
  refine ⟨?_, fun n first bound => ?_, fun i low => ?_⟩
  · rw [Memory.word_fill_outside _ _ _ _ _ (by omega)]
    exact Memory.word_put_same _ _ _ (by omega)
  · rw [Memory.word_fill_inside _ _ _ _ _ (by rw [Memory.capacity_put]; omega) (by omega)
      (by omega)]
  · refine (Memory.word_fill_outside _ _ _ _ _ (by omega)).trans ?_
    rw [Memory.word_put_other _ _ _ _ (by omega)]

theorem WellFormed.extentAt_pushArray (heap : h.WellFormed) {len : Nat} (init : Value)
    (fits : h.fits (blockSize len) = true) :
    (h.pushArray len init).2.extentAt classes h.top = ⟨len + 2, 2⟩ := by
  obtain ⟨header, length, -, -⟩ := heap.wordAt_pushArray init fits
  simp [extentAt, header, length]

theorem Houses.pushArray (houses : h.Houses classes objects) {len : Nat} {init : Value}
    (fits : h.fits (blockSize len) = true) (valid : init.Valid objects) :
    (h.pushArray len init).2.Houses classes fun a => objects a ∨ a = h.top := by
  obtain ⟨header, -, item, below⟩ := houses.heap.wordAt_pushArray init fits
  have extent : (h.pushArray len init).2.extentAt classes h.top = ⟨len + 2, 2⟩ :=
    houses.heap.extentAt_pushArray init fits
  refine houses.extend (houses.heap.bump fits ?_) rfl ?_ below (.inl header) ?_
  · simp
  · rw [sizeAt, wordsAt, extent]
    rfl
  · intro v field
    obtain ⟨n, first, bound, rfl⟩ := (mem_fieldsAt_iff _ classes h.top v).mp field
    rw [extent] at first
    rw [wordsAt, extent] at bound
    rw [item n first bound]
    exact valid

theorem setSlots_eq (h : Heap) {v : Value} (ref : v.addr? = some a) (index : Nat)
    (values : List Value) (inside : a / 8 + 2 + index + values.length ≤ h.memory.capacity) :
    h.setSlots v index values = .ok { h with
      memory := h.memory.putAll (a / 8 + 2 + index) (values.map (·.raw)) } := by
  induction values generalizing h index with
  | nil => rfl
  | cons value values ih =>
    simp only [List.length_cons] at inside
    have stored : h.setSlot v index value =
        .ok { h with memory := h.memory.put (a / 8 + 2 + index) value.raw } := by
      rw [setSlot, storeWord_eq ref (by omega), Nat.add_assoc]
    rw [setSlots, stored]
    simp only
    rw [ih _ (index + 1) (by simp only [Memory.capacity_put]; omega)]
    rfl

theorem Supports.valid {v : Value} (sound : h.Supports classes v)
    (known : ∀ a, v.addr? = some a → objects a) : v.Valid objects := by
  rcases sound with int | null | ⟨a, ref, -⟩
  · exact .inl int
  · exact .inr (.inl null)
  · exact .inr (.inr ⟨a, ref, known a ref⟩)

theorem Copying.houses {root root' : Value → Prop} {moved : List Nat}
    (houses : h.Houses classes objects) (valid : ∀ v, root v → v.Valid objects)
    (live : h.Traceable classes root) (state : h.Copying classes root moved (h'.top / 8) h')
    (covered : ∀ v, root v → ∀ a, v.addr? = some a → a ∈ moved)
    (relocated : ∀ w, root' w ↔ ∃ v, root v ∧ v.relocate (h.newAddr classes moved) = w) :
    h'.Houses classes (h'.Reachable classes root') := by
  have carries := state.carries houses.heap live covered relocated
  have live' := state.traceable houses.heap live covered relocated
  refine ⟨state.wellFormed houses.heap live, fun _ reach => reach.aligned,
    fun _ reach => live'.encloses reach, ?_, ?_, live'.apart, ?_⟩
  · intro b reach
    obtain ⟨a, old, rfl⟩ := (carries.reachable b).mp reach
    rw [carries.header a old]
    exact houses.header a (houses.of_reachable valid old)
  · intro b reach v here
    exact (live'.fields b reach v here).valid fun _ ref => .field reach here ref
  · -- an object keeps its rank when it moves
    obtain ⟨rank, lower⟩ := houses.ranked
    have injective : Set.InjOn (h.newAddr classes moved) {a | h.Reachable classes root a} :=
      fun a first b second => carries.injective a b first second
    refine ⟨fun b => rank (Function.invFunOn (h.newAddr classes moved)
      {a | h.Reachable classes root a} b), ?_⟩
    intro b c reach plain ref
    obtain ⟨a, old, rfl⟩ := (carries.reachable b).mp reach
    rw [carries.header a old] at plain
    have two := h.two_le_words classes a
    have field : Value.mk (h.wordAt a 1) ∈ h.fieldsAt classes a :=
      (h.mem_fieldsAt_iff classes a _).mpr ⟨1, by simp [extentAt, plain], by omega, rfl⟩
    have parent : h'.wordAt (h.newAddr classes moved a) 1 =
        ((Value.mk (h.wordAt a 1)).relocate (h.newAddr classes moved)).raw := by
      have here := state.reachable_mem houses.heap covered old
      rw [state.final houses.heap here (by omega), finalWord, if_neg (by simp [extentAt, plain])]
    have known : ∀ d, (Value.mk (h.wordAt a 1)).addr? = some d → d ∈ moved := fun d back =>
      state.reachable_mem houses.heap covered (.field old field back)
    rw [parent, state.addr?_relocate houses.heap live known, Option.map_eq_some_iff] at ref
    obtain ⟨d, back, rfl⟩ := ref
    have above : h.Reachable classes root d := .field old field back
    have same := injective.leftInvOn_invFunOn (show a ∈ {a | h.Reachable classes root a} from old)
    have same' := injective.leftInvOn_invFunOn (show d ∈ {a | h.Reachable classes root a} from above)
    beta_reduce
    rw [same, same']
    exact lower a d (houses.of_reachable valid old) plain back

end
end Heap
end SlotVM
