import SlotVM.Proofs.Heap.Forwarding

namespace SlotVM.Heap

variable {old h : Heap} {classes : ClassTable} {root : Value → Prop} {moved : List Nat}
  {scanned : Nat}

theorem Copying.top_le (wf : old.WellFormed) (live : old.Traceable classes root)
    (state : old.Copying classes root moved scanned h) : h.top / 8 ≤ h.memory.capacity := by
  have room := (state.laid live).total_le wf
  have top := state.top
  have capacity := wf.capacity
  have limit := wf.top_le_limit
  unfold Heap.limit at limit
  rw [state.capacity]
  rcases wf.otherBase_cases with ⟨_, other⟩ | ⟨_, other⟩ <;> omega

theorem newAddr_word_unique {a b n m : Nat}
    (ha : a ∈ moved) (hb : b ∈ moved) (hn : n < old.wordsAt classes a)
    (hm : m < old.wordsAt classes b)
    (same : old.newAddr classes moved a / 8 + n = old.newAddr classes moved b / 8 + m) :
    a = b ∧ n = m := by
  have equal : a = b := by
    apply Classical.byContradiction
    intro distinct
    have apart := Packing.start_apart (old.wordsAt classes) ha hb distinct
    unfold newAddr at same
    omega
  subst equal
  exact ⟨rfl, by omega⟩

theorem Copying.advance (wf : old.WellFormed) (live : old.Traceable classes root)
    (state : old.Copying classes root moved scanned h) (memory : Memory) {a n : Nat}
    (here : a ∈ moved)
    (word : n < old.wordsAt classes a) (place : old.newAddr classes moved a / 8 + n = scanned)
    (refs : (old.extentAt classes a).firstField ≤ n →
      ∀ b, Value.addr? ⟨old.wordAt a n⟩ = some b → b ∈ moved)
    (capacity : memory.capacity = h.memory.capacity)
    (others : ∀ p, p ≠ scanned → memory.word p = h.memory.word p)
    (final : memory.word scanned = old.finalWord classes moved a n) :
    old.Copying classes root moved (scanned + 1) { h with memory := memory } := by
  have bounds := state.newAddr_bounds wf here
  have source : ∀ b, old.Reachable classes root b → ∀ m < old.wordsAt classes b,
      b / 8 + m ≠ scanned := by
    intro b hb m hm
    have outside := (live.outside_target wf hb hm).2
    have top := state.top
    have packed := Packing.start_add_size_le (old.wordsAt classes) here
    have room := (state.laid live).total_le wf
    have limit := wf.top_le_limit
    unfold Heap.limit at limit
    have low := wf.base_le_top
    have aligned := wf.semispace_aligned
    rcases wf.otherBase_cases with ⟨_, other⟩ | ⟨_, other⟩ <;> omega
  refine
    { reach := state.reach, nodup := state.nodup, base := state.base
      semispace := state.semispace, capacity := capacity.trans state.capacity, top := state.top
      bytesCopied := state.bytesCopied, scanned_le := ?_, record := ?_, fresh := ?_, copied := ?_
      closed := ?_ }
  · show scanned + 1 ≤ h.top / 8
    omega
  · intro b hb
    have two := old.two_le_words classes b
    have header := others _ (source b (state.reach b hb) 0 (by omega))
    have link := others _ (source b (state.reach b hb) 1 (by omega))
    have record := state.record b hb
    unfold wordAt at record ⊢
    rw [header, link]
    exact record
  · intro b hb new m hm
    have kept := others _ (source b hb m hm)
    have fresh := state.fresh b hb new m hm
    unfold wordAt at fresh ⊢
    rw [kept]
    exact fresh
  · intro b hb m hm
    by_cases now : old.newAddr classes moved b / 8 + m = scanned
    · obtain ⟨rfl, rfl⟩ := newAddr_word_unique here hb word hm (place.trans now.symm)
      rw [if_pos (by omega), wordAt, now]
      exact final
    · have copied := state.copied b hb m hm
      have kept := others _ now
      unfold wordAt at copied ⊢
      rw [kept, copied]
      by_cases below : old.newAddr classes moved b / 8 + m < scanned
      · rw [if_pos below, if_pos (by omega)]
      · rw [if_neg below, if_neg (by omega)]
  · intro b hb m hm field below c ref
    by_cases now : old.newAddr classes moved b / 8 + m = scanned
    · obtain ⟨rfl, rfl⟩ := newAddr_word_unique here hb word hm (place.trans now.symm)
      exact refs field c ref
    · exact state.closed b hb m hm field (by omega) c ref

theorem Copying.pass (wf : old.WellFormed) (live : old.Traceable classes root)
    (state : old.Copying classes root moved scanned h) {a n : Nat} (here : a ∈ moved)
    (header : n < (old.extentAt classes a).firstField)
    (place : old.newAddr classes moved a / 8 + n = scanned) :
    old.Copying classes root moved (scanned + 1) h := by
  have first := old.firstField_le classes a
  have two := old.two_le_words classes a
  have copied := state.copied a here n (by omega)
  rw [if_neg (by omega)] at copied
  refine state.advance wf live h.memory here (by omega) place (fun field => by omega) rfl
    (fun _ _ => rfl) ?_
  rw [← place, finalWord, if_pos header]
  exact copied

theorem Copying.passHeader (wf : old.WellFormed) (live : old.Traceable classes root) {a : Nat}
    (here : a ∈ moved)
    (state : old.Copying classes root moved (old.newAddr classes moved a / 8) h) :
    old.Copying classes root moved
      (old.newAddr classes moved a / 8 + (old.extentAt classes a).firstField) h := by
  have first := old.firstField_le classes a
  have pos := old.firstField_pos classes a
  have passed := state.pass wf live (n := 0) here pos (by omega)
  by_cases one : (old.extentAt classes a).firstField = 1
  · rw [one]
    exact passed
  · have two : (old.extentAt classes a).firstField = 2 := by omega
    rw [two]
    exact passed.pass wf live (n := 1) here (by omega) rfl

def fieldRun (h : Heap) (addr n count : Nat) : List Value :=
  (List.range' n count).map fun i => ⟨h.wordAt addr i⟩

theorem Copying.forwardFields (wf : old.WellFormed) (live : old.Traceable classes root)
    {a n : Nat} (count : Nat) (here : a ∈ moved) (first : (old.extentAt classes a).firstField ≤ n)
    (words : n + count ≤ old.wordsAt classes a)
    (state : old.Copying classes root moved (old.newAddr classes moved a / 8 + n) h) :
    ∃ h', Heap.forwardFields classes count (old.newAddr classes moved a + 8 * n) h = .ok h' ∧
      old.Copying classes root ((old.fieldRun a n count).foldl enlist moved)
        (old.newAddr classes moved a / 8 + (n + count)) h' := by
  induction count generalizing moved n h with
  | zero => exact ⟨h, rfl, state⟩
  | succ count ih =>
    have bounds := state.newAddr_bounds wf here
    have run : old.fieldRun a n (count + 1) =
        ⟨old.wordAt a n⟩ :: old.fieldRun a (n + 1) count := by
      simp [fieldRun, List.range'_succ]
    obtain ⟨h₁, forwarded, state₁⟩ := state.forward wf live (v := ⟨old.wordAt a n⟩)
      (fun b ref => .field (state.reach a here)
        ((old.mem_fieldsAt_iff classes a _).mpr ⟨n, first, by omega, rfl⟩) ref)
    have grown := prefix_enlist moved ⟨old.wordAt a n⟩
    have here₁ := grown.subset here
    have same := newAddr_of_grown old classes grown here
    have copied := state.copied a here n (by omega)
    rw [if_neg (by omega)] at copied
    have top_le := state.top_le wf live
    have loaded := h.load_eq_wordAt (old.newAddr classes moved a) n (by omega)
    rw [copied] at loaded
    have place : (old.newAddr classes moved a + 8 * n) / 8 = old.newAddr classes moved a / 8 + n := by
      omega
    have inside : old.newAddr classes moved a / 8 + n < h₁.memory.capacity := by
      rw [state₁.capacity, ← state.capacity]
      omega
    -- the field is written back at the place the scan has reached
    have state₂ := state₁.advance wf live
      (h₁.memory.put (old.newAddr classes moved a / 8 + n)
        (Value.relocate (old.newAddr classes (enlist moved ⟨old.wordAt a n⟩)) ⟨old.wordAt a n⟩).raw)
      here₁ (n := n) (by omega) (by rw [same]) (fun _ b ref => mem_enlist moved ref)
      (by simp) (fun p apart => Memory.word_put_other _ _ _ _ apart.symm)
      (by rw [Memory.word_put_same _ _ _ inside, finalWord, if_neg (by omega)])
    rw [Nat.add_assoc, ← same] at state₂
    obtain ⟨h₃, rest, state₃⟩ := ih here₁ (by omega) (by omega) state₂
    refine ⟨h₃, ?_, ?_⟩
    · have next : old.newAddr classes moved a + 8 * n + 8 =
          old.newAddr classes moved a + 8 * (n + 1) := by omega
      rw [same] at rest
      simp only [Heap.forwardFields, loaded, forwarded, store, place, inside, if_true]
      rw [next]
      exact rest
    · rw [run, List.foldl_cons]
      rw [same] at state₃
      rw [show n + (count + 1) = n + 1 + count by omega]
      exact state₃

theorem Copying.extent_unscanned (wf : old.WellFormed) (live : old.Traceable classes root)
    (state : old.Copying classes root moved scanned h) {a : Nat} (here : a ∈ moved)
    (ahead : scanned ≤ old.newAddr classes moved a / 8) :
    h.extent classes (old.newAddr classes moved a) = .ok (old.extentAt classes a) := by
  have two := old.two_le_words classes a
  have bounds := state.newAddr_bounds wf here
  have top_le := state.top_le wf live
  have header := state.copied a here 0 (by omega)
  have length := state.copied a here 1 (by omega)
  rw [if_neg (by omega)] at header length
  rw [h.extent_eq_extentAt classes _ (by omega), extentAt_congr classes header fun _ => length]

theorem Copying.scanObject (wf : old.WellFormed) (live : old.Traceable classes root) {a : Nat}
    (here : a ∈ moved)
    (state : old.Copying classes root moved (old.newAddr classes moved a / 8) h) :
    ∃ h', Heap.forwardFields classes
        (old.wordsAt classes a - (old.extentAt classes a).firstField)
        (old.newAddr classes moved a + 8 * (old.extentAt classes a).firstField) h = .ok h' ∧
      old.Copying classes root ((old.fieldsAt classes a).foldl enlist moved)
        (old.newAddr classes moved a / 8 + old.wordsAt classes a) h' := by
  have first := old.firstField_le classes a
  have two := old.two_le_words classes a
  have passed := state.passHeader wf live here
  obtain ⟨h', run, final⟩ := passed.forwardFields wf live
    (old.wordsAt classes a - (old.extentAt classes a).firstField) here (Nat.le_refl _) (by omega)
  refine ⟨h', run, ?_⟩
  rw [Nat.add_sub_cancel' (by omega)] at final
  exact final

/-- All objects moved once the scan, which has passed the first `done` of the objects `moved`, comes
to its end. -/
def sweep (h : Heap) (classes : ClassTable) : Nat → Nat → List Nat → List Nat
  | 0, _, moved => moved
  | fuel + 1, done, moved =>
    match moved[done]? with
    | none => moved
    | some a => sweep h classes fuel (done + 1) ((h.fieldsAt classes a).foldl enlist moved)

theorem prefix_sweep (h : Heap) (classes : ClassTable) (fuel done : Nat) (moved : List Nat) :
    moved <+: h.sweep classes fuel done moved := by
  induction fuel generalizing done moved with
  | zero => exact List.prefix_rfl
  | succ fuel ih =>
    unfold sweep
    split
    · exact List.prefix_rfl
    · exact (prefix_foldl_enlist _ _).trans (ih _ _)

def survivors (h : Heap) (classes : ClassTable) (values : List Value) : List Nat :=
  h.sweep classes (h.memory.capacity + 1) 0 (values.foldl enlist [])

/-- The scan stands at the copy of the object `done`, or at the top when there is none. -/
def scanAt (h : Heap) (classes : ClassTable) (moved : List Nat) (done : Nat) : Nat :=
  h.otherBase + 8 * Packing.total (h.wordsAt classes) (moved.take done)

theorem newAddr_eq_scanAt (old : Heap) (classes : ClassTable) {a done : Nat} (nodup : moved.Nodup) (next : moved[done]? = some a) :
    old.newAddr classes moved a = old.scanAt classes moved done := by
  obtain ⟨bound, rfl⟩ := List.getElem?_eq_some_iff.mp next
  unfold newAddr scanAt
  rw [Packing.start_getElem _ nodup bound]

theorem scanAt_of_grown {after : List Nat} (grown : moved <+: after) {done : Nat}
    (within : done ≤ moved.length) :
    old.scanAt classes after done = old.scanAt classes moved done := by
  obtain ⟨more, rfl⟩ := grown
  unfold scanAt
  rw [List.take_append_of_le_length within]

theorem scanAt_succ {a done : Nat} (next : moved[done]? = some a) :
    old.scanAt classes moved (done + 1) =
      old.scanAt classes moved done + 8 * old.wordsAt classes a := by
  unfold scanAt
  rw [List.take_add_one, next]
  simp
  omega

theorem Copying.scan (wf : old.WellFormed) (live : old.Traceable classes root) (fuel : Nat)
    {done : Nat} (within : done ≤ moved.length) (enough : old.memory.capacity < fuel + done)
    (state : old.Copying classes root moved (old.scanAt classes moved done / 8) h) :
    ∃ h', Heap.scan classes fuel (old.scanAt classes moved done) h = .ok h' ∧
      old.Copying classes root (old.sweep classes fuel done moved) (h'.top / 8) h' := by
  have objects := (state.laid live).length_le wf
  induction fuel generalizing moved done h with
  | zero => omega
  | succ fuel ih =>
    cases next : moved[done]? with
    | none =>
      have finished : old.scanAt classes moved done = h.top := by
        have all := List.getElem?_eq_none_iff.mp next
        rw [scanAt, List.take_of_length_le all, state.top]
      rw [finished] at state ⊢
      exact ⟨h, by simp [Heap.scan], by simpa [sweep, next] using state⟩
    | some a =>
      have here : a ∈ moved := List.mem_of_getElem? next
      have bound : done < moved.length := (List.getElem?_eq_some_iff.mp next).1
      have place := newAddr_eq_scanAt old classes state.nodup next
      have bounds := state.newAddr_bounds wf here
      have two := old.two_le_words classes a
      have grown := prefix_foldl_enlist (old.fieldsAt classes a) moved
      rw [← place] at state ⊢
      have below : old.newAddr classes moved a < h.top := by omega
      have extent := state.extent_unscanned wf live here (Nat.le_refl _)
      obtain ⟨h₁, run, state₁⟩ := state.scanObject wf live here
      have aligned := bounds.2.2
      have after : old.scanAt classes ((old.fieldsAt classes a).foldl enlist moved) (done + 1) =
          old.newAddr classes moved a + 8 * old.wordsAt classes a := by
        rw [scanAt_of_grown grown (by omega), scanAt_succ next, place]
      have within₁ : done + 1 ≤ ((old.fieldsAt classes a).foldl enlist moved).length := by
        have := grown.length_le
        omega
      have objects₁ := (state₁.laid live).length_le wf
      rw [show old.newAddr classes moved a / 8 + old.wordsAt classes a =
        (old.newAddr classes moved a + 8 * old.wordsAt classes a) / 8 by omega, ← after] at state₁
      obtain ⟨h₂, rest, state₂⟩ := ih within₁ (by omega) state₁ objects₁
      refine ⟨h₂, ?_, by simpa [sweep, next] using state₂⟩
      rw [after] at rest
      unfold wordsAt at run rest
      simp only [Heap.scan, below, if_true, extent, run]
      exact rest

end SlotVM.Heap
