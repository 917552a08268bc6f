import SlotVM.Proofs.Heap.Objects
import Mathlib.Logic.Relation

namespace SlotVM

/-- The same integer, null on both sides, or references to paired objects. -/
inductive Value.Paired (pairs : Nat → Nat → Prop) : Value → Value → Prop
  | plain {v : Value} (kind : v.isInt = true ∨ v = .null) : Paired pairs v v
  | ref {v w : Value} {a b : Nat} (left : v.addr? = some a) (right : w.addr? = some b)
      (pair : pairs a b) : Paired pairs v w

namespace Value

section
variable {pairs pairs' : Nat → Nat → Prop} {u v w : Value}

theorem addr?_of_plain (kind : v.isInt = true ∨ v = .null) : v.addr? = none := by
  rcases kind with int | rfl
  · exact addr?_of_isInt int
  · exact addr?_null

theorem paired_null : Paired pairs .null .null := .plain (.inr rfl)

theorem paired_ofInt (n : Int) : Paired pairs (.ofInt n) (.ofInt n) := .plain (.inl (isInt_ofInt n))

theorem Paired.mono (paired : Paired pairs v w) (grown : ∀ a b, pairs a b → pairs' a b) :
    Paired pairs' v w := by
  cases paired with
  | plain kind => exact .plain kind
  | ref left right pair => exact .ref left right (grown _ _ pair)

theorem Paired.symm (paired : Paired pairs v w) : Paired (Function.swap pairs) w v := by
  cases paired with
  | plain kind => exact .plain kind
  | ref left right pair => exact .ref right left pair

theorem Paired.trans (first : Paired pairs u v) (second : Paired pairs' v w) :
    Paired (Relation.Comp pairs pairs') u w := by
  cases first with
  | plain kind =>
    cases second with
    | plain _ => exact .plain kind
    | ref left _ _ =>
      rw [addr?_of_plain kind] at left
      cases left
  | ref left right pair =>
    cases second with
    | plain kind =>
      rw [addr?_of_plain kind] at right
      cases right
    | ref left' right' pair' =>
      rw [right] at left'
      cases left'
      exact .ref left right' ⟨_, pair, pair'⟩

theorem Paired.valid (paired : Paired pairs v w) : v.Valid fun a => ∃ b, pairs a b := by
  cases paired with
  | plain kind =>
    rcases kind with int | null
    · exact .inl int
    · exact .inr (.inl null)
  | ref left right pair => exact .inr (.inr ⟨_, left, _, pair⟩)

theorem Paired.exists_addr? (paired : Paired pairs v w) {a : Nat} (ref : v.addr? = some a) :
    ∃ b, w.addr? = some b ∧ pairs a b := by
  cases paired with
  | plain kind =>
    rw [addr?_of_plain kind] at ref
    cases ref
  | ref left right pair =>
    rw [left] at ref
    cases ref
    exact ⟨_, right, pair⟩

theorem Paired.eq_relocate (paired : Paired pairs v w) {f : Nat → Nat}
    (along : ∀ a b, pairs a b → f a = b) : w = v.relocate f := by
  cases paired with
  | plain kind => rw [relocate_of_none (addr?_of_plain kind)]
  | ref left right pair =>
    rw [relocate_of_addr? left, along _ _ pair]
    exact eq_ofAddr right

end
end Value

namespace Heap

structure Paired (classes : ClassTable) (pairs : Nat → Nat → Prop) (h k : Heap) : Prop where
  left : h.Houses classes fun a => ∃ b, pairs a b
  right : k.Houses classes fun b => ∃ a, pairs a b
  injective : ∀ a a' b, pairs a b → pairs a' b → a = a'
  functional : ∀ a b b', pairs a b → pairs a b' → b = b'
  header : ∀ a b, pairs a b → h.wordAt a 0 = k.wordAt b 0
  length : ∀ a b, pairs a b → h.wordAt a 0 = arrayTag → h.wordAt a 1 = k.wordAt b 1
  field : ∀ a b, pairs a b → ∀ n, (h.extentAt classes a).firstField ≤ n → n < h.wordsAt classes a →
    Value.Paired pairs ⟨h.wordAt a n⟩ ⟨k.wordAt b n⟩

section
variable {h h' k k' l : Heap} {classes : ClassTable} {pairs pairs' : Nat → Nat → Prop}
  {objects objects' : Nat → Prop} {a b n : Nat} {v w : Value}

theorem Houses.restrict (houses : h.Houses classes objects) (fewer : ∀ a, objects' a → objects a)
    (closed : ∀ a, objects' a → ∀ v ∈ h.fieldsAt classes a, v.Valid objects') :
    h.Houses classes objects' := by
  refine ⟨houses.heap, fun a here => houses.aligned a (fewer a here),
    fun a here => houses.encloses a (fewer a here), fun a here => houses.header a (fewer a here),
    closed, fun a b first second => houses.apart a b (fewer a first) (fewer b second), ?_⟩
  obtain ⟨rank, lower⟩ := houses.ranked
  exact ⟨rank, fun a b here => lower a b (fewer a here)⟩

theorem Houses.live (houses : h.Houses classes objects) {root : Value → Prop}
    (valid : ∀ v, root v → v.Valid objects) : h.Houses classes (h.Reachable classes root) := by
  apply houses.restrict
  · intro a reach
    exact houses.of_reachable valid reach
  · intro a reach v held
    have supported := houses.supports (houses.fields a (houses.of_reachable valid reach) v held)
    exact supported.valid fun b ref => .field reach held ref

theorem Houses.congr (houses : h.Houses classes objects) (same : ∀ a, objects' a ↔ objects a) :
    h.Houses classes objects' := by
  have equal : objects' = objects := funext fun a => propext (same a)
  rwa [equal]

theorem Paired.extent (paired : Paired classes pairs h k) (pair : pairs a b) :
    h.extentAt classes a = k.extentAt classes b :=
  extentAt_congr classes (paired.header a b pair) fun array =>
    paired.length a b pair ((paired.header a b pair).trans array)

theorem Paired.words (paired : Paired classes pairs h k) (pair : pairs a b) :
    h.wordsAt classes a = k.wordsAt classes b :=
  congrArg Extent.words (paired.extent pair)

theorem Paired.symm (paired : Paired classes pairs h k) : Paired classes (Function.swap pairs) k h where
  left := paired.right
  right := paired.left
  injective b b' a pair pair' := paired.functional a b b' pair pair'
  functional b a a' pair pair' := paired.injective a a' b pair pair'
  header b a pair := (paired.header a b pair).symm
  length b a pair array :=
    (paired.length a b pair ((paired.header a b pair).trans array)).symm
  field b a pair n first word := by
    rw [← paired.extent pair] at first
    rw [← paired.words pair] at word
    exact (paired.field a b pair n first word).symm

theorem Paired.trans (first : Paired classes pairs h k) (second : Paired classes pairs' k l) :
    Paired classes (Relation.Comp pairs pairs') h l := by
  have field : ∀ a c, Relation.Comp pairs pairs' a c → ∀ n,
      (h.extentAt classes a).firstField ≤ n → n < h.wordsAt classes a →
      Value.Paired (Relation.Comp pairs pairs') ⟨h.wordAt a n⟩ ⟨l.wordAt c n⟩ := by
    rintro a c ⟨b, pair, pair'⟩ n low word
    have inner := first.field a b pair n low word
    rw [first.extent pair] at low
    rw [first.words pair] at word
    exact inner.trans (second.field b c pair' n low word)
  refine ⟨?_, ?_, ?_, ?_, ?_, ?_, field⟩
  · refine first.left.restrict (fun a ⟨c, b, pair, _⟩ => ⟨b, pair⟩) ?_
    rintro a ⟨c, pair⟩ v here
    obtain ⟨n, low, word, rfl⟩ := (h.mem_fieldsAt_iff classes a v).mp here
    exact (field a c pair n low word).valid
  · refine second.right.restrict (fun c ⟨a, b, _, pair⟩ => ⟨b, pair⟩) ?_
    rintro c ⟨a, b, pair, pair'⟩ v here
    obtain ⟨n, low, word, rfl⟩ := (l.mem_fieldsAt_iff classes c v).mp here
    rw [← second.extent pair', ← first.extent pair] at low
    rw [← second.words pair', ← first.words pair] at word
    exact (field a c ⟨b, pair, pair'⟩ n low word).symm.valid
  · rintro a a' c ⟨b, pair, outer⟩ ⟨b', pair', outer'⟩
    obtain rfl := second.injective b b' c outer outer'
    exact first.injective a a' b pair pair'
  · rintro a c c' ⟨b, pair, outer⟩ ⟨b', pair', outer'⟩
    obtain rfl := first.functional a b b' pair pair'
    exact second.functional b c c' outer outer'
  · rintro a c ⟨b, pair, outer⟩
    exact (first.header a b pair).trans (second.header b c outer)
  · rintro a c ⟨b, pair, outer⟩ array
    have same := first.header a b pair
    exact (first.length a b pair array).trans (second.length b c outer (same.symm.trans array))

theorem WellFormed.paired (left : h.WellFormed) (right : k.WellFormed) (classes : ClassTable) :
    Paired classes (fun _ _ => False) h k := by
  refine ⟨(left.houses classes).congr ?_, (right.houses classes).congr ?_, ?_, ?_, ?_, ?_, ?_⟩
  · simp
  · simp
  all_goals exact nofun

theorem Paired.item (paired : Paired classes pairs h k) (pair : pairs a b)
    (word : 2 + n < h.wordsAt classes a) :
    Value.Paired pairs ⟨h.wordAt a (2 + n)⟩ ⟨k.wordAt b (2 + n)⟩ :=
  paired.field a b pair _ (by have := h.firstField_le classes a; omega) word

theorem Paired.parent (paired : Paired classes pairs h k) (pair : pairs a b)
    (plain : h.wordAt a 0 ≠ arrayTag) : Value.Paired pairs ⟨h.wordAt a 1⟩ ⟨k.wordAt b 1⟩ := by
  have two := h.two_le_words classes a
  exact paired.field a b pair 1 (by simp [extentAt, plain]) (by omega)

theorem Paired.shape? (paired : Paired classes pairs h k) (values : Value.Paired pairs v w) :
    h.shape? v = k.shape? w := by
  cases values with
  | plain kind => simp only [Heap.shape?, Value.addr?_of_plain kind]
  | @ref _ a b left right pair =>
    have same := paired.header a b pair
    have two := h.two_le_words classes a
    have two' := k.two_le_words classes b
    have loaded (n : Nat) (low : n < 2) : h.load (a + 8 * n) = .ok (h.wordAt a n) :=
      h.load_eq_wordAt a n (paired.left.inside ⟨b, pair⟩ (by omega))
    have loaded' (n : Nat) (low : n < 2) : k.load (b + 8 * n) = .ok (k.wordAt b n) :=
      k.load_eq_wordAt b n (paired.right.inside ⟨a, pair⟩ (by omega))
    have header : h.load a = .ok (h.wordAt a 0) := loaded 0 (by decide)
    have header' : k.load b = .ok (k.wordAt b 0) := loaded' 0 (by decide)
    simp only [Heap.shape?, left, right, header, header', same, bind, Except.bind]
    by_cases array : k.wordAt b 0 = arrayTag
    · have length := paired.length a b pair (same.trans array)
      have second : h.load (a + 8) = .ok (h.wordAt a 1) := loaded 1 (by decide)
      have second' : k.load (b + 8) = .ok (k.wordAt b 1) := loaded' 1 (by decide)
      simp only [array, if_true, second, second', length]
    · simp only [array, if_false]

theorem Houses.place_unique (houses : h.Houses classes objects) {m : Nat} (here : objects a)
    (here' : objects b) (word : n < h.wordsAt classes a) (word' : m < h.wordsAt classes b)
    (same : a / 8 + n = b / 8 + m) : a = b ∧ n = m := by
  have aligned := houses.aligned a here
  have aligned' := houses.aligned b here'
  by_cases equal : a = b
  · subst equal
    exact ⟨rfl, by omega⟩
  · have apart := houses.apart a b here here' equal
    unfold sizeAt at apart
    omega

def replace (h : Heap) (a n : Nat) (word : UInt64) : Heap :=
  { h with memory := h.memory.put (a / 8 + n) word }

theorem Houses.storeWord_eq (houses : h.Houses classes objects) (ref : v.addr? = some a)
    (here : objects a) (word : n < h.wordsAt classes a) (raw : UInt64) :
    h.storeWord v n raw = .ok (h.replace a n raw) :=
  Heap.storeWord_eq ref (houses.inside here word) raw

theorem Houses.replace (houses : h.Houses classes objects) (here : objects a)
    (word : 2 + n < h.wordsAt classes a) (valid : v.Valid objects) :
    (h.replace a (2 + n) v.raw).Houses classes objects := by
  have ref := houses.addr?_ofAddr here
  obtain ⟨h', stored, houses'⟩ := houses.storeWord ref here word valid
  rw [houses.storeWord_eq ref here word] at stored
  cases stored
  exact houses'

theorem Houses.wordAt_replace (houses : h.Houses classes objects) {m : Nat} (here : objects a)
    (here' : objects b) (word : n < h.wordsAt classes a) (word' : m < h.wordsAt classes b)
    (raw : UInt64) :
    (h.replace a n raw).wordAt b m = if b = a ∧ m = n then raw else h.wordAt b m := by
  by_cases same : b = a ∧ m = n
  · obtain ⟨rfl, rfl⟩ := same
    rw [if_pos ⟨rfl, rfl⟩]
    exact Memory.word_put_same _ _ _ (houses.inside here word)
  · rw [if_neg same]
    refine Memory.word_put_other _ _ _ _ fun place => same ?_
    exact houses.place_unique here' here word' word place.symm

theorem Paired.replace (paired : Paired classes pairs h k) (pair : pairs a b)
    (word : 2 + n < h.wordsAt classes a) (values : Value.Paired pairs v w) :
    Paired classes pairs (h.replace a (2 + n) v.raw) (k.replace b (2 + n) w.raw) := by
  have word' : 2 + n < k.wordsAt classes b := paired.words pair ▸ word
  have left (c d m : Nat) (pair' : pairs c d) (bound : m < h.wordsAt classes c) :=
    paired.left.wordAt_replace ⟨b, pair⟩ ⟨d, pair'⟩ word bound v.raw
  have right (c d m : Nat) (pair' : pairs c d) (bound : m < h.wordsAt classes c) :=
    paired.right.wordAt_replace ⟨a, pair⟩ ⟨c, pair'⟩ word' (paired.words pair' ▸ bound) w.raw
  -- headers and lengths stand before the word that is written
  have fixed (c d m : Nat) (pair' : pairs c d) (low : m < 2) :
      (h.replace a (2 + n) v.raw).wordAt c m = h.wordAt c m ∧
        (k.replace b (2 + n) w.raw).wordAt d m = k.wordAt d m := by
    have two := h.two_le_words classes c
    rw [left c d m pair' (by omega), right c d m pair' (by omega), if_neg (by omega),
      if_neg (by omega)]
    exact ⟨rfl, rfl⟩
  refine ⟨paired.left.replace ⟨b, pair⟩ word values.valid,
    paired.right.replace ⟨a, pair⟩ word' values.symm.valid, paired.injective, paired.functional,
    ?_, ?_, ?_⟩
  · intro c d pair'
    obtain ⟨same, same'⟩ := fixed c d 0 pair' (by decide)
    rw [same, same']
    exact paired.header c d pair'
  · intro c d pair' array
    obtain ⟨same, same'⟩ := fixed c d 1 pair' (by decide)
    rw [(fixed c d 0 pair' (by decide)).1] at array
    rw [same, same']
    exact paired.length c d pair' array
  · intro c d pair' m first bound
    have extent : (h.replace a (2 + n) v.raw).extentAt classes c = h.extentAt classes c :=
      extentAt_congr classes (fixed c d 0 pair' (by decide)).1
        fun _ => (fixed c d 1 pair' (by decide)).1
    rw [extent] at first
    rw [wordsAt, extent] at bound
    rw [left c d m pair' bound, right c d m pair' bound]
    by_cases same : c = a ∧ m = 2 + n
    · obtain ⟨rfl, rfl⟩ := same
      have same' := paired.functional c b d pair pair'
      rw [if_pos ⟨rfl, rfl⟩, if_pos ⟨same'.symm, rfl⟩]
      exact values
    · have other : ¬ (d = b ∧ m = 2 + n) := by
        rintro ⟨rfl, rfl⟩
        exact same ⟨paired.injective c a d pair' pair, rfl⟩
      rw [if_neg same, if_neg other]
      exact paired.field c d pair' m first bound

def Appended (pairs : Nat → Nat → Prop) (h k : Heap) (a b : Nat) : Prop :=
  pairs a b ∨ a = h.top ∧ b = k.top

theorem Houses.lt_top (houses : h.Houses classes objects) (here : objects a) : a < h.top := by
  have inside := (houses.encloses a here).2
  have two := h.two_le_words classes a
  unfold sizeAt at inside
  omega

theorem Houses.wordAt_below (houses : h.Houses classes objects) (here : objects a)
    (below : ∀ i < h.top / 8, h'.memory.word i = h.memory.word i) (word : n < h.wordsAt classes a) :
    h'.wordAt a n = h.wordAt a n := by
  have inside := (houses.encloses a here).2
  have aligned := houses.aligned a here
  unfold sizeAt at inside
  exact below _ (by omega)

theorem Paired.extend (paired : Paired classes pairs h k)
    (left : h'.Houses classes fun a => (∃ b, pairs a b) ∨ a = h.top)
    (right : k'.Houses classes fun b => (∃ a, pairs a b) ∨ b = k.top)
    (below : ∀ i < h.top / 8, h'.memory.word i = h.memory.word i)
    (below' : ∀ i < k.top / 8, k'.memory.word i = k.memory.word i)
    (header : h'.wordAt h.top 0 = k'.wordAt k.top 0)
    (length : h'.wordAt h.top 0 = arrayTag → h'.wordAt h.top 1 = k'.wordAt k.top 1)
    (field : ∀ n, (h'.extentAt classes h.top).firstField ≤ n → n < h'.wordsAt classes h.top →
      Value.Paired pairs ⟨h'.wordAt h.top n⟩ ⟨k'.wordAt k.top n⟩) :
    Paired classes (Appended pairs h k) h' k' := by
  have old (a b n : Nat) (pair : pairs a b) (word : n < h.wordsAt classes a) :
      h'.wordAt a n = h.wordAt a n ∧ k'.wordAt b n = k.wordAt b n :=
    ⟨paired.left.wordAt_below ⟨b, pair⟩ below word,
      paired.right.wordAt_below ⟨a, pair⟩ below' (paired.words pair ▸ word)⟩
  have fresh (b : Nat) : ¬ pairs h.top b := fun pair =>
    Nat.lt_irrefl _ (paired.left.lt_top ⟨b, pair⟩)
  have fresh' (a : Nat) : ¬ pairs a k.top := fun pair =>
    Nat.lt_irrefl _ (paired.right.lt_top ⟨a, pair⟩)
  have grown (a b : Nat) (pair : pairs a b) : Appended pairs h k a b := .inl pair
  refine ⟨left.congr fun a => ?_, right.congr fun b => ?_, ?_, ?_, ?_, ?_, ?_⟩
  · simp only [Appended, exists_or, exists_and_left, exists_eq, and_true]
  · simp only [Appended, exists_or, exists_eq_left]
  · rintro a a' b (pair | ⟨rfl, rfl⟩) (pair' | ⟨rfl, same⟩)
    · exact paired.injective a a' b pair pair'
    · exact absurd (same ▸ pair) (fresh' a)
    · exact absurd pair' (fresh' a')
    · rfl
  · rintro a b b' (pair | ⟨rfl, rfl⟩) (pair' | ⟨same, rfl⟩)
    · exact paired.functional a b b' pair pair'
    · exact absurd (same ▸ pair) (fresh b)
    · exact absurd pair' (fresh b')
    · rfl
  · rintro a b (pair | ⟨rfl, rfl⟩)
    · have two := h.two_le_words classes a
      obtain ⟨same, same'⟩ := old a b 0 pair (by omega)
      rw [same, same']
      exact paired.header a b pair
    · exact header
  · rintro a b (pair | ⟨rfl, rfl⟩) array
    · have two := h.two_le_words classes a
      obtain ⟨same, same'⟩ := old a b 1 pair (by omega)
      rw [(old a b 0 pair (by omega)).1] at array
      rw [same, same']
      exact paired.length a b pair array
    · exact length array
  · rintro a b (pair | ⟨rfl, rfl⟩) n first word
    · have two := h.two_le_words classes a
      have extent : h'.extentAt classes a = h.extentAt classes a :=
        extentAt_congr classes (old a b 0 pair (by omega)).1 fun _ => (old a b 1 pair (by omega)).1
      rw [extent] at first
      rw [wordsAt, extent] at word
      obtain ⟨same, same'⟩ := old a b n pair word
      rw [same, same']
      exact (paired.field a b pair n first word).mono grown
    · exact (field n first word).mono grown

theorem Paired.pushArray (paired : Paired classes pairs h k) {len : Nat}
    (fits : h.fits (blockSize len) = true) (fits' : k.fits (blockSize len) = true)
    (values : Value.Paired pairs v w) :
    Paired classes (Appended pairs h k) (h.pushArray len v).2 (k.pushArray len w).2 := by
  obtain ⟨header, length, item, below⟩ := paired.left.heap.wordAt_pushArray v fits
  obtain ⟨header', length', item', below'⟩ := paired.right.heap.wordAt_pushArray w fits'
  have extent : (h.pushArray len v).2.extentAt classes h.top = ⟨len + 2, 2⟩ :=
    paired.left.heap.extentAt_pushArray v fits
  refine paired.extend (paired.left.pushArray fits values.valid)
    (paired.right.pushArray fits' values.symm.valid) below below' (header.trans header'.symm) ?_ ?_
  · intro _
    rw [← UInt64.toNat_inj, length, length']
  · intro n first word
    rw [extent] at first
    rw [wordsAt, extent] at word
    rw [item n first word, item' n first word]
    exact values

/-- A collection moves the objects `live` as `f` says, and packs them. -/
structure Evacuated (classes : ClassTable) (f : Nat → Nat) (live : List Nat) (h h' : Heap) :
    Prop where
  paired : Paired classes (fun a b => a ∈ live ∧ f a = b) h h'
  nodup : live.Nodup
  semispace : h'.semispace = h.semispace
  used : h'.used = 8 * Packing.total (h.wordsAt classes) live

theorem Copying.evacuated {root root' : Value → Prop} {moved : List Nat}
    (houses : h.Houses classes objects) (valid : ∀ v, root v → v.Valid objects)
    (live : h.Traceable classes root) (state : h.Copying classes root moved (h'.top / 8) h')
    (covered : ∀ v, root v → ∀ a, v.addr? = some a → a ∈ moved)
    (relocated : ∀ w, root' w ↔ ∃ v, root v ∧ v.relocate (h.newAddr classes moved) = w) :
    Evacuated classes (h.newAddr classes moved) moved h h' ∧
      ∀ v, v.Valid (· ∈ moved) →
        Value.Paired (fun a b => a ∈ moved ∧ h.newAddr classes moved a = b) v
          (v.relocate (h.newAddr classes moved)) := by
  have carries := state.carries houses.heap live covered relocated
  have reached (a : Nat) : a ∈ moved ↔ h.Reachable classes root a :=
    ⟨state.reach a, state.reachable_mem houses.heap covered⟩
  have closed (a : Nat) (here : a ∈ moved) (v : Value) (held : v ∈ h.fieldsAt classes a) :
      v.Valid (· ∈ moved) :=
    (live.fields a (state.reach a here) v held).valid fun b ref =>
      (reached b).mpr (.field (state.reach a here) held ref)
  have values (v : Value) (known : v.Valid (· ∈ moved)) :
      Value.Paired (fun a b => a ∈ moved ∧ h.newAddr classes moved a = b) v
        (v.relocate (h.newAddr classes moved)) := by
    rcases known with int | null | ⟨a, ref, here⟩
    · rw [Value.relocate_of_none (Value.addr?_of_isInt int)]
      exact .plain (.inl int)
    · rw [null, Value.relocate_of_none Value.addr?_null]
      exact Value.paired_null
    · rw [Value.relocate_of_addr? ref]
      exact .ref ref (state.addr?_newAddr houses.heap live here) ⟨here, rfl⟩
  refine ⟨⟨⟨?_, ?_, ?_, ?_, ?_, ?_, ?_⟩, state.nodup, state.semispace, ?_⟩, values⟩
  · have inside : h.Houses classes (· ∈ moved) :=
      houses.restrict (fun a here => houses.of_reachable valid (state.reach a here)) closed
    exact inside.congr fun a => by simp
  · refine (state.houses houses valid live covered relocated).congr fun b => ?_
    simp only [carries.reachable b, reached]
  · rintro a a' b ⟨here, rfl⟩ ⟨here', same⟩
    exact (carries.injective a' a (state.reach a' here') (state.reach a here) same).symm
  · rintro a b b' ⟨-, rfl⟩ ⟨-, same⟩
    exact same
  · rintro a b ⟨here, rfl⟩
    exact (state.final_header houses.heap here).symm
  · rintro a b ⟨here, rfl⟩ array
    exact (state.final_length houses.heap here array).symm
  · rintro a b ⟨here, rfl⟩ n first word
    rw [state.final houses.heap here word, finalWord, if_neg (by omega)]
    exact values _ (closed a here _ ((h.mem_fieldsAt_iff classes a _).mpr ⟨n, first, word, rfl⟩))
  · rw [used, state.top, state.base, Nat.add_sub_cancel_left]

theorem Houses.evacuates (houses : h.Houses classes objects) (few : classes.size < 2 ^ 32)
    {xs ys zs : List Value} (valid : ∀ v ∈ xs ++ ys ++ zs, v.Valid objects) :
    ∃ f live h₁ h₂ h₃ h₄,
      forwardAll classes h.flip [] xs = .ok (xs.map (Value.relocate f), h₁) ∧
      forwardAll classes h₁ [] ys = .ok (ys.map (Value.relocate f), h₂) ∧
      forwardAll classes h₂ [] zs = .ok (zs.map (Value.relocate f), h₃) ∧
      scan classes (h₃.memory.capacity + 1) h₃.base h₃ = .ok h₄ ∧
      Evacuated classes f live h { h₄ with cycles := h₄.cycles + 1 } ∧
      (∀ a ∈ live, objects a) ∧
      ∀ v ∈ xs ++ ys ++ zs, Value.Paired (fun a b => a ∈ live ∧ f a = b) v (v.relocate f) := by
  have traceable := houses.traceable few valid
  obtain ⟨h₁, h₂, h₃, h₄, run₁, run₂, run₃, run₄, state⟩ :=
    forward_scan houses.heap traceable xs ys zs fun _ here => here
  have covered : ∀ v ∈ xs ++ ys ++ zs, ∀ a, v.addr? = some a →
      a ∈ h.survivors classes (xs ++ ys ++ zs) := fun v here a ref =>
    (h.prefix_sweep classes _ 0 _).subset (mem_foldl_enlist [] here ref)
  have final : h.Copying classes _ _ (Heap.top { h₄ with cycles := h₄.cycles + 1 } / 8) _ :=
    state.withCycles (h₄.cycles + 1)
  obtain ⟨moved, values⟩ := final.evacuated houses valid traceable covered fun _ => Iff.rfl
  refine ⟨_, _, h₁, h₂, h₃, h₄, run₁, run₂, run₃, run₄, moved, ?_, fun v here => values v ?_⟩
  · exact fun a here => houses.of_reachable valid (final.reach a here)
  · exact (traceable.roots v here).valid (covered v here)

/-- A collected heap takes no more than the same objects take elsewhere. -/
theorem Evacuated.used_le {f : Nat → Nat} {live : List Nat} (moved : Evacuated classes f live h h')
    (paired : Paired classes pairs h k) (known : ∀ a ∈ live, ∃ b, pairs a b) :
    h'.used ≤ k.used := by
  choose! partner pair using known
  have nodup : (live.map partner).Nodup :=
    moved.nodup.map_on fun a here a' here' same =>
      paired.injective a a' _ (pair a here) (same ▸ pair a' here')
  have total : Packing.total (k.wordsAt classes) (live.map partner) =
      Packing.total (h.wordsAt classes) live := by
    rw [Packing.total, Packing.total, List.map_map]
    congr 1
    exact List.map_congr_left fun a here => (paired.words (pair a here)).symm
  have laid : k.Laid classes (live.map partner) := by
    refine paired.right.laid nodup fun b here => ?_
    obtain ⟨a, member, rfl⟩ := List.mem_map.mp here
    exact ⟨a, pair a member⟩
  have room := laid.total_le paired.right.heap
  rw [total] at room
  rw [moved.used]
  exact room

theorem Paired.sizes {classes' : ClassTable} (paired : Paired classes pairs h k)
    (size : classes.size = classes'.size)
    (same : ∀ index, classes.nvars index = classes'.nvars index) : Paired classes' pairs h k := by
  refine ⟨paired.left.sizes size same, paired.right.sizes size same, paired.injective,
    paired.functional, paired.header, paired.length, fun a b pair n first word => ?_⟩
  have extent : h.extentAt classes' a = h.extentAt classes a := by simp only [extentAt, same]
  rw [extent] at first
  rw [wordsAt, extent] at word
  exact paired.field a b pair n first word

theorem Paired.reachable (paired : Paired classes pairs h k) {root root' : Value → Prop}
    (roots : ∀ v, root v → ∃ w, root' w ∧ Value.Paired pairs v w)
    (reach : h.Reachable classes root a) : ∃ b, pairs a b ∧ k.Reachable classes root' b := by
  induction reach with
  | root here ref =>
    obtain ⟨w, here', values⟩ := roots _ here
    obtain ⟨b, ref', pair⟩ := values.exists_addr? ref
    exact ⟨b, pair, .root here' ref'⟩
  | @field a c v _ here ref ih =>
    obtain ⟨b, pair, reach⟩ := ih
    obtain ⟨n, first, word, rfl⟩ := (h.mem_fieldsAt_iff classes a v).mp here
    obtain ⟨d, ref', inner⟩ := (paired.field a b pair n first word).exists_addr? ref
    rw [paired.extent pair] at first
    rw [paired.words pair] at word
    exact ⟨d, inner, .field reach ((k.mem_fieldsAt_iff classes b _).mpr ⟨n, first, word, rfl⟩) ref'⟩

theorem Paired.fields {f : Nat → Nat} (paired : Paired classes pairs h k)
    (along : ∀ a b, pairs a b → f a = b) (pair : pairs a b) :
    k.fieldsAt classes b = (h.fieldsAt classes a).map (Value.relocate f) := by
  have first := h.firstField_le classes a
  have two := h.two_le_words classes a
  unfold wordsAt at two
  unfold fieldsAt
  rw [← paired.extent pair, List.map_map]
  apply List.map_congr_left
  intro n bounds
  rw [List.mem_range'_1] at bounds
  have word : n < h.wordsAt classes a := by
    unfold wordsAt
    omega
  exact (paired.field a b pair n bounds.1 word).eq_relocate along

theorem Paired.carries {f : Nat → Nat} (paired : Paired classes pairs h k)
    (along : ∀ a b, pairs a b → f a = b) {root root' : Value → Prop}
    (forth : ∀ v, root v → ∃ w, root' w ∧ Value.Paired pairs v w)
    (back : ∀ w, root' w → ∃ v, root v ∧ Value.Paired pairs v w) :
    Carries f h k classes root root' := by
  have known (a : Nat) (reach : h.Reachable classes root a) : pairs a (f a) := by
    obtain ⟨b, pair, -⟩ := paired.reachable forth reach
    rwa [along a b pair]
  refine ⟨?_, ?_, ?_, ?_, ?_, ?_⟩
  · intro a a' reach reach' same
    exact paired.injective a a' _ (known a reach) (same ▸ known a' reach')
  · exact fun a reach => paired.right.encloses _ ⟨a, known a reach⟩
  · exact fun a reach => (paired.header _ _ (known a reach)).symm
  · exact fun a reach array => (paired.length _ _ (known a reach) array).symm
  · exact fun a reach => paired.fields along (known a reach)
  · intro b
    constructor
    · intro reach
      have back' (w : Value) (here : root' w) :
          ∃ v, root v ∧ Value.Paired (Function.swap pairs) w v := by
        obtain ⟨v, held, values⟩ := back w here
        exact ⟨v, held, values.symm⟩
      obtain ⟨a, pair, reach'⟩ := paired.symm.reachable back' reach
      exact ⟨a, reach', along a b pair⟩
    · rintro ⟨a, reach, rfl⟩
      obtain ⟨b, pair, reach'⟩ := paired.reachable forth reach
      rwa [along a b pair]

end
end Heap
end SlotVM
