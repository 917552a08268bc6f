import SlotVM.Proofs.Heap.Graph
import SlotVM.Proofs.Heap.Packing

namespace SlotVM.Heap

theorem WellFormed.otherBase_cases {h : Heap} (wf : h.WellFormed) :
    (h.base = 0 ∧ h.otherBase = h.semispace) ∨ (h.base = h.semispace ∧ h.otherBase = 0) := by
  unfold otherBase
  rcases wf.base with base | base
  · exact .inl ⟨base, if_pos base⟩
  · by_cases zero : h.base = 0
    · exact .inl ⟨zero, if_pos zero⟩
    · exact .inr ⟨base, if_neg zero⟩

theorem Traceable.outside_target {h : Heap} {classes : ClassTable} {root : Value → Prop}
    (wf : h.WellFormed) (live : h.Traceable classes root) {addr n : Nat}
    (reach : h.Reachable classes root addr) (word : n < h.wordsAt classes addr) :
    addr / 8 + n < h.memory.capacity ∧
      (addr / 8 + n < h.otherBase / 8 ∨ h.otherBase / 8 + h.semispace / 8 ≤ addr / 8 + n) := by
  have inside := live.encloses reach
  unfold Encloses sizeAt at inside
  have capacity := wf.capacity
  have aligned := wf.semispace_aligned
  have limit := wf.top_le_limit
  unfold Heap.limit at limit
  rcases wf.otherBase_cases with ⟨base, other⟩ | ⟨base, other⟩ <;> omega

theorem Traceable.places_apart {h : Heap} {classes : ClassTable} {root : Value → Prop}
    (live : h.Traceable classes root) {a b : Nat} (ha : h.Reachable classes root a)
    (hb : h.Reachable classes root b) (distinct : a ≠ b) :
    a / 8 + h.wordsAt classes a ≤ b / 8 ∨
      b / 8 + h.wordsAt classes b ≤ a / 8 := by
  have apart := live.apart a b ha hb distinct
  have alignedA := ha.aligned
  have alignedB := hb.aligned
  unfold sizeAt at apart
  omega

structure Laid (h : Heap) (classes : ClassTable) (blocks : List Nat) : Prop where
  nodup : blocks.Nodup
  aligned : ∀ a ∈ blocks, 8 ∣ a
  inside : ∀ a ∈ blocks, h.Encloses classes a
  apart : ∀ a ∈ blocks, ∀ b ∈ blocks, a ≠ b →
    a + h.sizeAt classes a ≤ b ∨ b + h.sizeAt classes b ≤ a

theorem Traceable.laid {h : Heap} {classes : ClassTable} {root : Value → Prop}
    (live : h.Traceable classes root) {blocks : List Nat}
    (reach : ∀ a ∈ blocks, h.Reachable classes root a) (nodup : blocks.Nodup) :
    h.Laid classes blocks :=
  ⟨nodup, fun a here => (reach a here).aligned, fun a here => live.encloses (reach a here),
    fun a first b second => live.apart a b (reach a first) (reach b second)⟩

theorem Laid.total_le {h : Heap} {classes : ClassTable} {blocks : List Nat} (wf : h.WellFormed)
    (laid : h.Laid classes blocks) :
    8 * Packing.total (h.wordsAt classes) blocks ≤ h.top - h.base := by
  have packed := Packing.total_le (h.wordsAt classes) (h.base / 8) (h.top / 8)
    (fun a => a / 8) blocks laid.nodup
    (fun a here => by
      have inside := laid.inside a here
      have aligned := laid.aligned a here
      unfold Encloses sizeAt at inside
      omega)
    (fun a first b second distinct => by
      have apart := laid.apart a first b second distinct
      have aligned := laid.aligned a first
      have aligned' := laid.aligned b second
      unfold sizeAt at apart
      omega)
  have base := wf.base
  have aligned := wf.semispace_aligned
  have low := wf.base_le_top
  omega

theorem Laid.length_le {h : Heap} {classes : ClassTable} {blocks : List Nat} (wf : h.WellFormed)
    (laid : h.Laid classes blocks) : 2 * blocks.length ≤ h.memory.capacity := by
  have packed : 2 * blocks.length ≤ Packing.total (h.wordsAt classes) blocks :=
    Packing.length_mul_le _ 2 blocks fun a _ => h.two_le_words classes a
  have room := laid.total_le wf
  have capacity := wf.capacity
  have limit := wf.top_le_limit
  unfold Heap.limit at limit
  omega

section Evacuate
variable (h : Heap) (addr : Nat) (block : List UInt64)

@[simp] theorem base_evacuate : (h.evacuate addr block).2.base = h.base := rfl

@[simp] theorem semispace_evacuate : (h.evacuate addr block).2.semispace = h.semispace := rfl

@[simp] theorem capacity_evacuate :
    (h.evacuate addr block).2.memory.capacity = h.memory.capacity := by
  simp [evacuate]

theorem evacuate_word_other {p : Nat} (header : p ≠ addr / 8) (link : p ≠ addr / 8 + 1)
    (outside : p < h.top / 8 ∨ h.top / 8 + block.length ≤ p) :
    (h.evacuate addr block).2.memory.word p = h.memory.word p := by
  simp only [evacuate]
  rw [Memory.word_put_other _ _ _ _ link.symm, Memory.word_put_other _ _ _ _ header.symm,
    Memory.word_putAll_outside _ _ _ _ outside]

theorem evacuate_word_header (inside : addr / 8 < h.memory.capacity) :
    (h.evacuate addr block).2.memory.word (addr / 8) = forwardTag := by
  simp only [evacuate]
  rw [Memory.word_put_other _ _ _ _ (by omega), Memory.word_put_same _ _ _ (by simpa using inside)]

theorem evacuate_word_link (inside : addr / 8 + 1 < h.memory.capacity) :
    (h.evacuate addr block).2.memory.word (addr / 8 + 1) = (Value.ofAddr h.top).raw := by
  simp only [evacuate]
  rw [Memory.word_put_same _ _ _ (by simpa using inside)]

theorem evacuate_word_copy {n : Nat} (word : n < block.length)
    (fits : h.top / 8 + block.length ≤ h.memory.capacity)
    (header : h.top / 8 + n ≠ addr / 8) (link : h.top / 8 + n ≠ addr / 8 + 1) :
    (h.evacuate addr block).2.memory.word (h.top / 8 + n) = block.get ⟨n, word⟩ := by
  simp only [evacuate]
  rw [Memory.word_put_other _ _ _ _ link.symm, Memory.word_put_other _ _ _ _ header.symm,
    Memory.word_putAll_inside _ _ _ _ fits word]

end Evacuate

/-- Where the object at an address goes when the objects `moved` are copied in order. -/
def newAddr (h : Heap) (classes : ClassTable) (moved : List Nat) (addr : Nat) : Nat :=
  h.otherBase + 8 * Packing.start (h.wordsAt classes) moved addr

/-- The final `n`-th word of the copy of an object: a traced field follows its object. -/
def finalWord (h : Heap) (classes : ClassTable) (moved : List Nat) (addr n : Nat) : UInt64 :=
  if n < (h.extentAt classes addr).firstField then h.wordAt addr n
  else (Value.relocate (h.newAddr classes moved) ⟨h.wordAt addr n⟩).raw

/-- The heap `h` in the middle of a collection of `old`. -/
structure Copying (old : Heap) (classes : ClassTable) (root : Value → Prop) (moved : List Nat)
    (scanned : Nat) (h : Heap) : Prop where
  reach : ∀ a ∈ moved, old.Reachable classes root a
  nodup : moved.Nodup
  base : h.base = old.otherBase
  semispace : h.semispace = old.semispace
  capacity : h.memory.capacity = old.memory.capacity
  top : h.top = old.otherBase + 8 * Packing.total (old.wordsAt classes) moved
  bytesCopied : h.bytesCopied = old.bytesCopied + 8 * Packing.total (old.wordsAt classes) moved
  scanned_le : scanned ≤ h.top / 8
  record : ∀ a ∈ moved, h.wordAt a 0 = forwardTag ∧
    h.wordAt a 1 = (Value.ofAddr (old.newAddr classes moved a)).raw
  fresh : ∀ a, old.Reachable classes root a → a ∉ moved →
    ∀ n < old.wordsAt classes a, h.wordAt a n = old.wordAt a n
  copied : ∀ a ∈ moved, ∀ n < old.wordsAt classes a,
    h.wordAt (old.newAddr classes moved a) n =
      if old.newAddr classes moved a / 8 + n < scanned then old.finalWord classes moved a n
      else old.wordAt a n
  closed : ∀ a ∈ moved, ∀ n < old.wordsAt classes a,
    (old.extentAt classes a).firstField ≤ n → old.newAddr classes moved a / 8 + n < scanned →
    ∀ b, Value.addr? ⟨old.wordAt a n⟩ = some b → b ∈ moved

theorem newAddr_of_grown (old : Heap) (classes : ClassTable) {before after : List Nat} {a : Nat}
    (grown : before <+: after) (here : a ∈ before) :
    old.newAddr classes after a = old.newAddr classes before a := by
  unfold newAddr
  rw [Packing.start_of_grown _ grown here]

theorem relocate_of_grown (old : Heap) (classes : ClassTable) {before after : List Nat} {v : Value}
    (grown : before <+: after) (covered : ∀ a, v.addr? = some a → a ∈ before) :
    v.relocate (old.newAddr classes before) = v.relocate (old.newAddr classes after) :=
  Value.relocate_congr fun a ref => (newAddr_of_grown old classes grown (covered a ref)).symm

section
variable {old h : Heap} {classes : ClassTable} {root : Value → Prop} {moved : List Nat}
  {scanned : Nat}

theorem Copying.withCycles (state : old.Copying classes root moved scanned h) (cycles : Nat) :
    old.Copying classes root moved scanned { h with cycles := cycles } := { state with }

theorem Copying.laid (live : old.Traceable classes root)
    (state : old.Copying classes root moved scanned h) : old.Laid classes moved :=
  live.laid state.reach state.nodup

theorem Copying.start :
    old.Copying classes root [] (old.otherBase / 8) old.flip where
  reach := by simp
  nodup := .nil
  base := rfl
  semispace := rfl
  capacity := rfl
  top := rfl
  bytesCopied := rfl
  scanned_le := Nat.le_refl _
  record := by simp
  fresh := fun _ _ _ _ _ => rfl
  copied := by simp
  closed := by simp

theorem Copying.newAddr_bounds (wf : old.WellFormed)
    (state : old.Copying classes root moved scanned h) {a : Nat} (here : a ∈ moved) :
    old.otherBase ≤ old.newAddr classes moved a ∧
      old.newAddr classes moved a + 8 * old.wordsAt classes a ≤ h.top ∧
      8 ∣ old.newAddr classes moved a := by
  have packed := Packing.start_add_size_le (old.wordsAt classes) here
  have aligned := wf.semispace_aligned
  rw [state.top]
  unfold newAddr
  rcases wf.otherBase_cases with ⟨_, other⟩ | ⟨_, other⟩ <;> omega

theorem Copying.room (wf : old.WellFormed) (live : old.Traceable classes root)
    (state : old.Copying classes root moved scanned h) {a : Nat}
    (reach : old.Reachable classes root a) (new : a ∉ moved) :
    h.top + 8 * old.wordsAt classes a ≤ old.otherBase + old.semispace := by
  have laid : old.Laid classes (moved ++ [a]) := by
    refine live.laid ?_ (List.nodup_append.mpr ⟨state.nodup, List.nodup_singleton a, ?_⟩)
    · intro b here
      rcases List.mem_append.mp here with here | here
      · exact state.reach b here
      · rw [List.mem_singleton.mp here]
        exact reach
    · intro b hb c hc
      rw [List.mem_singleton.mp hc]
      exact fun same => new (same ▸ hb)
  have packed := laid.total_le wf
  have limit := wf.top_le_limit
  unfold Heap.limit at limit
  have low := wf.base_le_top
  rw [state.top]
  simp only [Packing.total_append, Packing.total_cons, Packing.total_nil] at packed
  omega

theorem newAddr_of_new (state : old.Copying classes root moved scanned h) {a : Nat}
    (new : a ∉ moved) : old.newAddr classes (moved ++ [a]) a = h.top := by
  unfold newAddr
  rw [Packing.start_append_of_not_mem _ _ new, state.top]
  simp [Packing.start]

theorem Copying.finalWord_of_grown (state : old.Copying classes root moved scanned h)
    {after : List Nat} (grown : moved <+: after) {a n : Nat} (here : a ∈ moved)
    (word : n < old.wordsAt classes a) (below : old.newAddr classes moved a / 8 + n < scanned) :
    old.finalWord classes after a n = old.finalWord classes moved a n := by
  unfold finalWord
  split
  · rfl
  · rename_i field
    rw [Value.relocate_congr]
    intro b ref
    exact newAddr_of_grown _ _ grown (state.closed a here n word (by omega) below b ref)

def block (h : Heap) (addr words : Nat) : List UInt64 :=
  (List.range' (addr / 8) words).map h.memory.word

theorem get_block (h : Heap) (addr words n : Nat) (bound : n < (h.block addr words).length) :
    (h.block addr words).get ⟨n, bound⟩ = h.wordAt addr n := by
  simp [block, wordAt]

@[simp] theorem length_block (h : Heap) (addr words : Nat) :
    (h.block addr words).length = words := by
  simp [block]

theorem Copying.evacuate (wf : old.WellFormed) (live : old.Traceable classes root)
    (state : old.Copying classes root moved scanned h) {a : Nat}
    (reach : old.Reachable classes root a) (new : a ∉ moved) :
    old.Copying classes root (moved ++ [a]) scanned
      (h.evacuate a (h.block a (old.wordsAt classes a))).2 := by
  have room := state.room wf live reach new
  have grown : moved <+: moved ++ [a] := List.prefix_append _ _
  have atTop := newAddr_of_new state new
  have words := old.two_le_words classes a
  have capacity := state.capacity
  have scanned_le := state.scanned_le
  have total : Packing.total (old.wordsAt classes) (moved ++ [a]) =
      Packing.total (old.wordsAt classes) moved + old.wordsAt classes a := by simp
  have fits := wf.capacity
  have aligned := wf.semispace_aligned
  have target : h.top / 8 + old.wordsAt classes a ≤ h.memory.capacity ∧
      old.otherBase / 8 ≤ h.top / 8 ∧
      h.top / 8 + old.wordsAt classes a ≤ old.otherBase / 8 + old.semispace / 8 := by
    have top := state.top
    rcases wf.otherBase_cases with ⟨_, other⟩ | ⟨_, other⟩ <;> omega
  have source : ∀ b, old.Reachable classes root b → ∀ n < old.wordsAt classes b,
      b / 8 + n < h.memory.capacity ∧ (b / 8 + n < old.otherBase / 8 ∨
        old.otherBase / 8 + old.semispace / 8 ≤ b / 8 + n) := by
    intro b hb n word
    rw [capacity]
    exact live.outside_target wf hb word
  -- an object apart from the one that moves keeps its words
  have untouched : ∀ b, old.Reachable classes root b → b ≠ a → ∀ n < old.wordsAt classes b,
      (h.evacuate a (h.block a (old.wordsAt classes a))).2.wordAt b n = h.wordAt b n := by
    intro b hb distinct n word
    have apart := live.places_apart hb reach distinct
    have outside := source b hb n word
    apply evacuate_word_other
    · omega
    · omega
    · rw [length_block]
      omega
  -- so do the copies made before
  have kept : ∀ b ∈ moved, ∀ n < old.wordsAt classes b,
      (h.evacuate a (h.block a (old.wordsAt classes a))).2.wordAt (old.newAddr classes moved b) n =
        h.wordAt (old.newAddr classes moved b) n := by
    intro b hb n word
    have bounds := state.newAddr_bounds wf hb
    have header := source a reach 0 (by omega)
    have link := source a reach 1 (by omega)
    apply evacuate_word_other
    · omega
    · omega
    · omega
  refine
    { reach := ?_, nodup := ?_, base := (base_evacuate _ _ _).trans state.base
      semispace := (semispace_evacuate _ _ _).trans state.semispace
      capacity := (capacity_evacuate _ _ _).trans capacity, top := ?_, bytesCopied := ?_
      scanned_le := ?_, record := ?_, fresh := ?_, copied := ?_, closed := ?_ }
  · intro b here
    rcases List.mem_append.mp here with here | here
    · exact state.reach b here
    · rw [List.mem_singleton.mp here]
      exact reach
  · refine List.nodup_append.mpr ⟨state.nodup, List.nodup_singleton a, ?_⟩
    intro b hb c hc
    rw [List.mem_singleton.mp hc]
    exact fun same => new (same ▸ hb)
  · simp only [Heap.evacuate, length_block, state.top, total]
    omega
  · simp only [Heap.evacuate, length_block, state.bytesCopied, total]
    omega
  · simp only [Heap.evacuate, length_block]
    omega
  · intro b here
    rcases List.mem_append.mp here with here | here
    · have distinct : b ≠ a := fun same => new (same ▸ here)
      have two := old.two_le_words classes b
      rw [untouched b (state.reach b here) distinct 0 (by omega),
        untouched b (state.reach b here) distinct 1 (by omega), newAddr_of_grown _ _ grown here]
      exact state.record b here
    · rw [List.mem_singleton.mp here, atTop]
      exact ⟨evacuate_word_header _ _ _ (source a reach 0 (by omega)).1,
        evacuate_word_link _ _ _ (source a reach 1 (by omega)).1⟩
  · intro b hb here n word
    have distinct : b ≠ a := fun same => here (by simp [same])
    rw [untouched b hb distinct n word]
    exact state.fresh b hb (fun h => here (List.mem_append_left _ h)) n word
  · intro b here n word
    rcases List.mem_append.mp here with here | here
    · rw [newAddr_of_grown _ _ grown here, kept b here n word, state.copied b here n word]
      split
      · rename_i below
        rw [state.finalWord_of_grown grown here word below]
      · rfl
    · rw [List.mem_singleton.mp here] at word ⊢
      have header := source a reach 0 (by omega)
      have link := source a reach 1 (by omega)
      have copy := evacuate_word_copy h a (h.block a (old.wordsAt classes a)) (n := n)
        (by simpa using word) (by simpa using target.1) (by omega) (by omega)
      rw [atTop, if_neg (by omega), ← state.fresh a reach new n word,
        ← get_block h a _ n (by simpa using word)]
      exact copy
  · intro b here n word field below c ref
    rcases List.mem_append.mp here with here | here
    · rw [newAddr_of_grown _ _ grown here] at below
      exact List.mem_append_left _ (state.closed b here n word field below c ref)
    · rw [List.mem_singleton.mp here, atTop] at below
      omega

def enlist (moved : List Nat) (v : Value) : List Nat :=
  match v.addr? with
  | none => moved
  | some addr => if addr ∈ moved then moved else moved ++ [addr]

theorem enlist_of_none {v : Value} (moved : List Nat) (plain : v.addr? = none) :
    enlist moved v = moved := by
  simp [enlist, plain]

theorem enlist_of_mem {v : Value} {a : Nat} (ref : v.addr? = some a) (here : a ∈ moved) :
    enlist moved v = moved := by
  simp [enlist, ref, here]

theorem enlist_of_not_mem {v : Value} {a : Nat} (ref : v.addr? = some a) (new : a ∉ moved) :
    enlist moved v = moved ++ [a] := by
  simp [enlist, ref, new]

theorem prefix_enlist (moved : List Nat) (v : Value) : moved <+: enlist moved v := by
  cases ref : v.addr? with
  | none => rw [enlist_of_none _ ref]
  | some a =>
    by_cases here : a ∈ moved
    · rw [enlist_of_mem ref here]
    · rw [enlist_of_not_mem ref here]
      exact List.prefix_append _ _

theorem mem_enlist {v : Value} {a : Nat} (moved : List Nat) (ref : v.addr? = some a) :
    a ∈ enlist moved v := by
  by_cases here : a ∈ moved
  · rw [enlist_of_mem ref here]
    exact here
  · rw [enlist_of_not_mem ref here]
    simp

theorem Copying.forward (wf : old.WellFormed) (live : old.Traceable classes root)
    (state : old.Copying classes root moved scanned h) {v : Value}
    (reach : ∀ a, v.addr? = some a → old.Reachable classes root a) :
    ∃ h', h.forward classes v = .ok (v.relocate (old.newAddr classes (enlist moved v)), h') ∧
      old.Copying classes root (enlist moved v) scanned h' := by
  cases ref : v.addr? with
  | none =>
    rw [enlist_of_none _ ref, Value.relocate_of_none ref]
    exact ⟨h, by simp [Heap.forward, ref], state⟩
  | some a =>
    have live_a := reach a ref
    have two := old.two_le_words classes a
    have inside0 := (live.outside_target wf live_a (n := 0) (by omega)).1
    have inside1 := (live.outside_target wf live_a (n := 1) (by omega)).1
    rw [← state.capacity] at inside0 inside1
    have header := h.load_eq_header a inside0
    have link := h.load_eq_wordAt a 1 inside1
    rw [Value.relocate_of_addr? ref]
    by_cases here : a ∈ moved
    · -- the record of an earlier copy holds the new reference
      obtain ⟨tag, moved_to⟩ := state.record a here
      rw [enlist_of_mem ref here]
      refine ⟨h, ?_, state⟩
      simp [Heap.forward, ref, header, link, tag, moved_to, bind, Except.bind, pure, Except.pure]
    · rw [enlist_of_not_mem ref here, newAddr_of_new state here]
      refine ⟨(h.evacuate a (h.block a (old.wordsAt classes a))).2, ?_,
        state.evacuate wf live live_a here⟩
      have same : h.extentAt classes a = old.extentAt classes a :=
        extentAt_congr classes (state.fresh a live_a here 0 (by omega))
          (fun _ => state.fresh a live_a here 1 (by omega))
      have unmoved : h.wordAt a 0 ≠ forwardTag := by
        rw [state.fresh a live_a here 0 (by omega)]
        exact live.unmoved a live_a
      have extent := h.extent_eq_extentAt classes a inside1
      have last := (live.outside_target wf live_a (n := old.wordsAt classes a - 1) (by omega)).1
      have slice := h.memory.slice?_eq_words (a / 8) (old.wordsAt classes a) (by
        rw [state.capacity]
        omega)
      have room := state.room wf live live_a here
      have fits : h.top / 8 + old.wordsAt classes a ≤ h.memory.capacity := by
        have capacity := wf.capacity
        rw [state.capacity]
        rcases wf.otherBase_cases with ⟨_, other⟩ | ⟨_, other⟩ <;> omega
      rw [same] at extent
      unfold wordsAt at slice fits
      simp [Heap.forward, ref, header, unmoved, extent, slice, fits, bind, Except.bind, pure,
        Except.pure, Heap.evacuate, block, wordsAt]

theorem prefix_foldl_enlist (vs : List Value) (moved : List Nat) :
    moved <+: vs.foldl enlist moved := by
  induction vs generalizing moved with
  | nil => exact List.prefix_rfl
  | cons v vs ih => exact (prefix_enlist moved v).trans (ih _)

theorem mem_foldl_enlist {vs : List Value} {v : Value} {a : Nat} (moved : List Nat) (here : v ∈ vs)
    (ref : v.addr? = some a) : a ∈ vs.foldl enlist moved := by
  induction vs generalizing moved with
  | nil => simp at here
  | cons w vs ih =>
    rcases List.mem_cons.mp here with rfl | rest
    · exact (prefix_foldl_enlist vs _).subset (mem_enlist moved ref)
    · exact ih _ rest

theorem map_relocate_of_grown (old : Heap) (classes : ClassTable) {vs : List Value}
    {moved after : List Nat} (grown : vs.foldl enlist moved <+: after) :
    vs.map (Value.relocate (old.newAddr classes (vs.foldl enlist moved))) =
      vs.map (Value.relocate (old.newAddr classes after)) :=
  List.map_congr_left fun _ here =>
    relocate_of_grown old classes grown fun _ => mem_foldl_enlist moved here

theorem Copying.forwardAll (wf : old.WellFormed) (live : old.Traceable classes root)
    (state : old.Copying classes root moved scanned h) (seen vs : List Value)
    (reach : ∀ v ∈ vs, ∀ a, v.addr? = some a → old.Reachable classes root a) :
    ∃ h', Heap.forwardAll classes h seen vs =
        .ok (seen.reverse ++ vs.map (Value.relocate (old.newAddr classes (vs.foldl enlist moved))),
          h') ∧
      old.Copying classes root (vs.foldl enlist moved) scanned h' := by
  induction vs generalizing moved h seen with
  | nil => exact ⟨h, by simp [Heap.forwardAll], state⟩
  | cons v vs ih =>
    obtain ⟨h₁, first, state₁⟩ := state.forward wf live (reach v List.mem_cons_self)
    obtain ⟨h₂, rest, state₂⟩ := ih state₁ (v.relocate (old.newAddr classes (enlist moved v)) :: seen)
      (fun w here => reach w (List.mem_cons_of_mem _ here))
    refine ⟨h₂, ?_, state₂⟩
    have later := relocate_of_grown old classes (prefix_foldl_enlist vs (enlist moved v))
      fun a ref => mem_enlist moved ref
    simp only [Heap.forwardAll, first]
    rw [rest, later]
    simp

end

end SlotVM.Heap
