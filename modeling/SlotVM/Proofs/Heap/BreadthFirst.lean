import SlotVM.Proofs.Except
import SlotVM.Proofs.Heap.Collection

namespace SlotVM

/-- A search breadth first that has visited `before` and ends with `after`: the nodes leave the queue
in order, and one that was not visited yet is visited and sends its successors to the end. -/
inductive BreadthFirst (next : Nat → List Nat) : List Nat → List Nat → List Nat → Prop where
  | done {before : List Nat} : BreadthFirst next before [] before
  | again {before queue after : List Nat} {a : Nat} (known : a ∈ before)
      (rest : BreadthFirst next before queue after) : BreadthFirst next before (a :: queue) after
  | visit {before queue after : List Nat} {a : Nat} (new : a ∉ before)
      (rest : BreadthFirst next (before ++ [a]) (queue ++ next a) after) :
      BreadthFirst next before (a :: queue) after

theorem BreadthFirst.unique {next : Nat → List Nat} {before queue after after' : List Nat}
    (search : BreadthFirst next before queue after)
    (search' : BreadthFirst next before queue after') : after = after' := by
  induction search with
  | done =>
    cases search'
    rfl
  | again known _ ih =>
    cases search' with
    | again _ rest => exact ih rest
    | visit new _ => exact absurd known new
  | visit new _ ih =>
    cases search' with
    | again known _ => exact absurd known new
    | visit _ rest => exact ih rest

namespace Frames

inductive Holding (words : Array Value) : Nat → Nat → List Value → Prop where
  | bottom {stop : Nat} : Holding words 0 stop (words.extract 2 stop).toList
  | call {fp stop : Nat} {saved : Value} {values : List Value} (above : 0 < fp)
      (word : words[fp]? = some saved) (below : Holding words saved.raw.toNat fp values) :
      Holding words fp stop ((words.extract (fp + 2) stop).toList ++ values)

def InnermostFirst (frames : Frames) (values : List Value) : Prop :=
  if frames.words = #[] then values = [] else Holding frames.words frames.fp frames.size values

theorem map_range'_eq_extract (words : Array Value) {first stop : Nat} (inside : stop ≤ words.size) :
    (List.range' first (stop - first)).map (fun place => words[place]?.getD .null) =
      (words.extract first stop).toList := by
  apply List.ext_getElem
  · simp
    omega
  · intro i left right
    have bound : first + i < words.size := by
      simp at left
      omega
    simp [bound]

theorem Chain.holding {words : Array Value} {fp stop : Nat} (chain : Chain words fp stop)
    {fuel : Nat} (enough : stop ≤ fuel) :
    ∃ places, Frames.rootsBelow? words fuel fp stop = some places ∧
      Holding words fp stop (places.map fun place => words[place]?.getD .null) := by
  induction chain generalizing fuel with
  | @root stop header inside =>
    obtain ⟨fuel, rfl⟩ : ∃ n, fuel = n + 1 := ⟨fuel - 1, by omega⟩
    refine ⟨List.range' 2 (stop - 2), ?_, ?_⟩
    · simp [Frames.rootsBelow?, header, inside]
    · rw [map_range'_eq_extract words inside]
      exact .bottom
  | @link fp stop saved above header inside word below ih =>
    obtain ⟨fuel, rfl⟩ : ∃ n, fuel = n + 1 := ⟨fuel - 1, by omega⟩
    obtain ⟨places, walk, values⟩ := @ih fuel (by omega)
    refine ⟨List.range' (fp + 2) (stop - (fp + 2)) ++ places, ?_, ?_⟩
    · have bottom : fp ≠ 0 := by omega
      simp [Frames.rootsBelow?, header, inside, bottom, word, walk]
    · rw [List.map_append, map_range'_eq_extract words inside]
      exact .call above word values

theorem WellFormed.innermostFirst {frames : Frames} (wf : frames.WellFormed) {places : List Nat}
    (walk : frames.rootPlaces? = some places) :
    frames.InnermostFirst (places.map frames.wordAt) := by
  unfold Frames.rootPlaces? at walk
  unfold InnermostFirst
  by_cases empty : frames.words = #[]
  · simp only [empty, Array.isEmpty_empty, if_true, Option.some.injEq] at walk
    rw [if_pos empty, ← walk]
    rfl
  · have chain := wf.resolve_left empty
    obtain ⟨places', walk', values⟩ := chain.holding (Nat.le_refl _)
    rw [if_neg (by simpa using empty), walk'] at walk
    cases walk
    rw [if_neg empty]
    exact values

end Frames

theorem Packing.map_range'_total (size : Nat → Nat) {α : Type} (word : Nat → α)
    (content : Nat → Nat → α) {blocks : List Nat} (nodup : blocks.Nodup) (first : Nat)
    (stands : ∀ a ∈ blocks, ∀ n < size a, word (first + start size blocks a + n) = content a n) :
    (List.range' first (total size blocks)).map word =
      blocks.flatMap fun a => (List.range (size a)).map (content a) := by
  induction blocks generalizing first with
  | nil => rfl
  | cons block blocks ih =>
    obtain ⟨fresh, nodup⟩ := List.nodup_cons.mp nodup
    have here : (List.range' first (size block)).map word =
        (List.range (size block)).map (content block) := by
      rw [List.range'_eq_map_range, List.map_map]
      apply List.map_congr_left
      intro n bound
      have word_eq := stands block List.mem_cons_self n (List.mem_range.mp bound)
      simpa [start] using word_eq
    have rest := ih nodup (first + size block) fun a member n bound => by
      have apart : block ≠ a := fun same => fresh (same ▸ member)
      have word_eq := stands a (List.mem_cons_of_mem _ member) n bound
      rw [start, if_neg apart, ← Nat.add_assoc] at word_eq
      exact word_eq
    rw [total_cons, ← List.range'_append_1, List.map_append, here, rest, List.flatMap_cons]

namespace Heap

def successors (h : Heap) (classes : ClassTable) (addr : Nat) : List Nat :=
  (h.fieldsAt classes addr).filterMap Value.addr?

section
variable (h : Heap) (classes : ClassTable)

theorem sweep_finished (fuel : Nat) (moved : List Nat) :
    h.sweep classes fuel moved.length moved = moved := by
  cases fuel with
  | zero => rfl
  | succ fuel => simp [sweep]

/-- A scan that has passed the objects `front`, while the values `vs` wait to be forwarded, goes on as
the search that has visited `front` and has the references among `vs` in its queue. -/
theorem sweep_breadthFirst (fuel : Nat) (vs : List Value) (front : List Nat)
    (enough : (h.sweep classes fuel front.length (vs.foldl enlist front)).length ≤
      front.length + fuel) :
    BreadthFirst (h.successors classes) front (vs.filterMap Value.addr?)
      (h.sweep classes fuel front.length (vs.foldl enlist front)) := by
  match vs with
  | [] =>
    rw [List.foldl_nil, sweep_finished]
    exact .done
  | v :: vs =>
    rw [List.foldl_cons] at enough ⊢
    cases ref : v.addr? with
    | none =>
      rw [enlist_of_none front ref] at enough ⊢
      rw [List.filterMap_cons_none ref]
      exact sweep_breadthFirst fuel vs front enough
    | some a =>
      rw [List.filterMap_cons_some ref]
      by_cases known : a ∈ front
      · rw [enlist_of_mem ref known] at enough ⊢
        exact .again known (sweep_breadthFirst fuel vs front enough)
      · rw [enlist_of_not_mem ref known] at enough ⊢
        -- the node stands right behind the front, so the scan comes to it next
        obtain ⟨more, grown⟩ := prefix_foldl_enlist vs (front ++ [a])
        cases left : fuel with
        | zero =>
          rw [left, sweep, ← grown] at enough
          simp only [List.length_append, List.length_singleton] at enough
          omega
        | succ fuel =>
          have next : (vs.foldl enlist (front ++ [a]))[front.length]? = some a := by
            rw [← grown]
            simp
          have later : h.sweep classes (fuel + 1) front.length (vs.foldl enlist (front ++ [a])) =
              h.sweep classes fuel (front ++ [a]).length
                ((vs ++ h.fieldsAt classes a).foldl enlist (front ++ [a])) := by
            simp [sweep, next]
          rw [left, later] at enough
          rw [later]
          have rest := sweep_breadthFirst fuel (vs ++ h.fieldsAt classes a) (front ++ [a])
            (by simpa [Nat.add_comm, Nat.add_left_comm] using enough)
          rw [List.filterMap_append] at rest
          exact .visit known rest
termination_by (fuel, vs.length)

end

section
variable {h h' : Heap} {classes : ClassTable}

theorem cycles_forward {v w : Value} (run : h.forward classes v = .ok (w, h')) :
    h'.cycles = h.cycles := by
  unfold forward at run
  split at run
  · cases run
    rfl
  · obtain ⟨header, -, run⟩ := bind_eq_ok.mp run
    split at run
    · obtain ⟨_, -, run⟩ := bind_eq_ok.mp run
      cases run
      rfl
    · obtain ⟨extent, -, run⟩ := bind_eq_ok.mp run
      split at run
      · cases run
      · split at run
        · cases run
          rfl
        · cases run

theorem cycles_forwardAll {seen vs ws : List Value}
    (run : forwardAll classes h seen vs = .ok (ws, h')) : h'.cycles = h.cycles := by
  induction vs generalizing h seen with
  | nil =>
    cases run
    rfl
  | cons v vs ih =>
    unfold forwardAll at run
    split at run
    · cases run
    · rename_i forwarded
      rw [ih run, cycles_forward forwarded]

theorem cycles_forwardFields {count addr : Nat}
    (run : forwardFields classes count addr h = .ok h') : h'.cycles = h.cycles := by
  induction count generalizing h addr with
  | zero =>
    cases run
    rfl
  | succ count ih =>
    unfold forwardFields at run
    split at run
    · cases run
    · split at run
      · cases run
      · rename_i forwarded
        unfold store at run
        split at run
        · cases run
        · rename_i stored
          split at stored
          · cases stored
            rw [ih run, ← cycles_forward forwarded]
          · cases stored

theorem cycles_scan {fuel addr : Nat} (run : scan classes fuel addr h = .ok h') :
    h'.cycles = h.cycles := by
  induction fuel generalizing h addr with
  | zero => cases run
  | succ fuel ih =>
    unfold scan at run
    split at run
    · split at run
      · cases run
      · split at run
        · cases run
        · rename_i forwarded
          rw [ih run, cycles_forwardFields forwarded]
    · cases run
      rfl

theorem cycles_collect {roots roots' : Roots} (run : h.collect classes roots = .ok (roots', h')) :
    h'.cycles = h.cycles + 1 := by
  obtain ⟨⟨_, h₁⟩, stack, run⟩ := bind_eq_ok.mp run
  dsimp only at run
  split at run
  · cases run
  · obtain ⟨⟨_, h₂⟩, locals, run⟩ := bind_eq_ok.mp run
    dsimp only at run
    split at run
    · cases run
    · obtain ⟨⟨_, h₃⟩, globals, run⟩ := bind_eq_ok.mp run
      obtain ⟨h₄, scanned, run⟩ := bind_eq_ok.mp run
      cases run
      calc h₄.cycles + 1
          = h₃.cycles + 1 := by rw [cycles_scan scanned]
        _ = h₂.cycles + 1 := by rw [cycles_forwardAll globals]
        _ = h₁.cycles + 1 := by rw [cycles_forwardAll locals]
        _ = h.cycles + 1 := by rw [cycles_forwardAll stack, flip]

end

section
variable {old h : Heap} {classes : ClassTable} {root : Value → Prop} {moved : List Nat}

/-- The words of the copy of an object when the objects `moved` are copied in order. -/
def copyOf (h : Heap) (classes : ClassTable) (moved : List Nat) (addr : Nat) : List UInt64 :=
  (List.range (h.wordsAt classes addr)).map (h.finalWord classes moved addr)

structure Enumerates (h : Heap) (classes : ClassTable) (root : Value → Prop) (objects : List Nat) :
    Prop where
  nodup : objects.Nodup
  mem_iff : ∀ a, a ∈ objects ↔ h.Reachable classes root a

theorem total_sizeAt (h : Heap) (classes : ClassTable) (objects : List Nat) :
    Packing.total (h.sizeAt classes) objects = 8 * Packing.total (h.wordsAt classes) objects := by
  induction objects with
  | nil => rfl
  | cons a objects ih =>
    rw [Packing.total_cons, Packing.total_cons, ih, sizeAt]
    omega

theorem Copying.used_eq {scanned : Nat} (state : old.Copying classes root moved scanned h) :
    h.used = Packing.total (old.sizeAt classes) moved := by
  rw [used, state.top, state.base, total_sizeAt]
  omega

theorem Copying.used_le (wf : old.WellFormed) (live : old.Traceable classes root) {scanned : Nat}
    (state : old.Copying classes root moved scanned h) : h.used ≤ old.used := by
  have room := (state.laid live).total_le wf
  rw [state.used_eq, total_sizeAt]
  exact room

theorem Copying.enumerates (wf : old.WellFormed)
    (state : old.Copying classes root moved (h.top / 8) h)
    (roots : ∀ v, root v → ∀ a, v.addr? = some a → a ∈ moved) :
    old.Enumerates classes root moved :=
  ⟨state.nodup, fun a => ⟨state.reach a, state.reachable_mem wf roots⟩⟩

theorem Copying.block_eq (wf : old.WellFormed)
    (state : old.Copying classes root moved (h.top / 8) h) :
    h.block h.base (h.used / 8) = moved.flatMap (old.copyOf classes moved) := by
  have size : h.used / 8 = Packing.total (old.wordsAt classes) moved := by
    rw [state.used_eq, total_sizeAt]
    omega
  have base := state.base
  have aligned := wf.semispace_aligned
  rw [block, size]
  apply Packing.map_range'_total _ _ _ state.nodup
  intro a here n bound
  have final := state.final wf here bound
  have place : old.newAddr classes moved a / 8 =
      h.base / 8 + Packing.start (old.wordsAt classes) moved a := by
    unfold newAddr
    rw [base]
    omega
  rw [wordAt, place] at final
  exact final

end

theorem mem_survivors {h : Heap} {classes : ClassTable} {roots : Roots} {places : List Nat}
    (frames : roots.frames.WellFormed) (walk : roots.frames.rootPlaces? = some places) {v : Value}
    (held : roots.Holds v) {a : Nat} (ref : v.addr? = some a) :
    a ∈ h.survivors classes (rootValues roots places) := by
  apply (h.prefix_sweep classes _ 0 _).subset
  exact mem_foldl_enlist [] ((mem_rootValues_iff frames walk v).mpr held) ref

/-- A collection of sound roots leaves in the other semispace one copy of each object that they lead
to, and nothing else: in the order of a search breadth first from the operands, the values of the
frames, innermost frame first, and the globals. It takes what these objects take together. -/
theorem collect_breadthFirst (h : Heap) (classes : ClassTable) (roots : Roots)
    (heap : h.WellFormed) (frames : roots.frames.WellFormed)
    (live : h.Traceable classes roots.Holds) :
    ∃ (roots' : Roots) (h' : Heap) (slots : List Value) (order : List Nat),
      h.collect classes roots = .ok (roots', h') ∧ roots.frames.InnermostFirst slots ∧
      BreadthFirst (h.successors classes) []
        ((roots.stack.toList ++ slots ++ roots.globals.toList).filterMap Value.addr?) order ∧
      h.Enumerates classes roots.Holds order ∧
      roots.Relocated (h.newAddr classes order) roots' ∧ h'.base = h.otherBase ∧
      h'.block h'.base (h'.used / 8) = order.flatMap (h.copyOf classes order) ∧
      h'.used = Packing.total (h.sizeAt classes) order ∧ h'.used ≤ h.used ∧
      h'.top ≤ h'.limit ∧ h'.bytesCopied = h.bytesCopied + h'.used ∧
      h'.cycles = h.cycles + 1 := by
  obtain ⟨places, walk, -⟩ := frames.rootPlaces?
  obtain ⟨h', run, state⟩ := collect_copying heap frames live walk
  have few := (state.laid live).length_le heap
  have search := h.sweep_breadthFirst classes (h.memory.capacity + 1) (rootValues roots places) []
    (by
      show (h.survivors classes (rootValues roots places)).length ≤ _
      omega)
  have copied : h'.bytesCopied = h.bytesCopied + h'.used := by
    rw [state.used_eq, total_sizeAt]
    exact state.bytesCopied
  exact ⟨_, h', _, _, run, frames.innermostFirst walk, search,
    state.enumerates heap fun _ held _ => mem_survivors frames walk held,
    relocated_setPlaces frames walk _, state.base, state.block_eq heap, state.used_eq,
    state.used_le heap live, (state.wellFormed heap live).top_le_limit, copied, cycles_collect run⟩

theorem collect_knot_breadthFirst :
    (knot.WellFormed ∧ knotRoots.frames.WellFormed ∧
      knot.Traceable knotClasses knotRoots.Holds) ∧
    ∃ (roots' : Roots) (h' : Heap) (slots : List Value) (order : List Nat),
      knot.collect knotClasses knotRoots = .ok (roots', h') ∧
      knotRoots.frames.InnermostFirst slots ∧
      BreadthFirst (knot.successors knotClasses) []
        ((knotRoots.stack.toList ++ slots ++ knotRoots.globals.toList).filterMap Value.addr?)
        order ∧
      knot.Enumerates knotClasses knotRoots.Holds order ∧
      knotRoots.Relocated (knot.newAddr knotClasses order) roots' ∧ h'.base = 64 ∧
      h'.block 64 (h'.used / 8) = order.flatMap (knot.copyOf knotClasses order) ∧
      h'.used = Packing.total (knot.sizeAt knotClasses) order ∧ h'.used ≤ 56 ∧
      h'.top ≤ h'.limit ∧ h'.bytesCopied = 0 + h'.used ∧ h'.cycles = 0 + 1 := by
  refine ⟨⟨knot_wellFormed, knot_frames, knot_traceable⟩, ?_⟩
  obtain ⟨roots', h', slots, order, run, frames, search, objects, moved, base, words, rest⟩ :=
    collect_breadthFirst knot knotClasses knotRoots knot_wellFormed knot_frames knot_traceable
  have other : h'.base = 64 := base
  rw [other] at words
  exact ⟨roots', h', slots, order, run, frames, search, objects, moved, other, words, rest⟩

example : BreadthFirst (knot.successors knotClasses) [] [32, 0] [32, 0] :=
  .visit (by decide) (.visit (by decide) (.again (by decide) (.again (by decide)
    (.again (by decide) .done))))

end Heap
end SlotVM
