import SlotVM.Proofs.Machine.Framing

namespace SlotVM

namespace Frames

def headers : List (Frame Nat) → List Nat
  | [] => []
  | _ :: fs => extent fs :: (extent fs + 1) :: headers fs

/-- Every word of the stack is either visited, once, or in a header. -/
theorem places_append_headers (fs : List (Frame Nat)) :
    (places fs ++ headers fs).Perm (List.range (extent fs)) := by
  induction fs with
  | nil => exact .refl []
  | cons f fs ih =>
    have split : List.range (extent (f :: fs)) = List.range (extent fs) ++
        [extent fs, extent fs + 1] ++ List.range' (extent fs + 2) f.locals.length := by
      have upper : [extent fs, extent fs + 1] ++ List.range' (extent fs + 2) f.locals.length =
          List.range' (extent fs) (f.locals.length + 2) := rfl
      rw [List.append_assoc, upper, List.range_eq_range', List.range_eq_range', extent]
      have whole := List.range'_append_1 (s := 0) (m := extent fs) (n := f.locals.length + 2)
      rw [Nat.zero_add] at whole
      rw [whole, Nat.add_assoc, Nat.add_comm 2]
    rw [split, List.perm_iff_count]
    intro i
    have same := ih.count_eq i
    simp only [places, headers, List.count_append, List.count_cons, List.count_nil] at same ⊢
    omega

section
variable {m : Type → Type} [Monad m] [LawfulMonad m] {f : Value → m Value}

theorem mapM_bind_congr {γ : Type} {vs : List Value} {k k' : List Value → m γ}
    (same : ∀ ws, ws.length = vs.length → k ws = k' ws) : vs.mapM f >>= k = vs.mapM f >>= k' := by
  induction vs generalizing k k' with
  | nil => simpa using same [] rfl
  | cons v vs ih =>
    simp only [List.mapM_cons, bind_assoc, pure_bind]
    congr 1
    funext w
    apply ih
    intro ws length
    exact same (w :: ws) (by simp [length])

theorem visitSlots_eq {words : Array Value} {before block after : List Value}
    (parts : words.toList = before ++ block ++ after) :
    visitSlots f block.length before.length words =
      setPlaces words (List.range' before.length block.length) <$> block.mapM f := by
  induction block generalizing before words with
  | nil => simp [visitSlots, setPlaces]
  | cons v block ih =>
    have first : words[before.length]?.getD .null = v := by
      rw [← Array.getElem?_toList, parts]
      simp
    have rest (w : Value) : visitSlots f block.length (before.length + 1)
        (words.setIfInBounds before.length w) =
        setPlaces (words.setIfInBounds before.length w)
          (List.range' (before.length + 1) block.length) <$> block.mapM f := by
      have written : (words.setIfInBounds before.length w).toList =
          (before ++ [w]) ++ block ++ after := by
        rw [Array.toList_setIfInBounds, parts]
        simp
      simpa using ih written
    simp only [List.length_cons, visitSlots, first, rest, List.mapM_cons, List.range'_succ]
    simp only [map_bind, setPlaces, bind_pure_comp, Functor.map_map]

theorem visitSlots_build {g : Frame Nat} {fs : List (Frame Nat)} {words : Array Value}
    (starts : (build (g :: fs)).words.toList <+: words.toList) :
    (visitSlots f (extent (g :: fs) - (extent fs + 2)) (extent fs + 2) words =
      setPlaces words (List.range' (extent fs + 2) g.locals.length) <$> g.locals.mapM f) ∧
    ∀ ws, ws.length = g.locals.length →
      (build (⟨g.resume, ws⟩ :: fs)).words.toList <+:
        (setPlaces words (List.range' (extent fs + 2) g.locals.length) ws).toList := by
  rcases starts with ⟨rest, starts⟩
  rcases parts_build g fs rest with ⟨inner, length⟩
  have parts := starts.symm.trans inner
  have count : extent (g :: fs) - (extent fs + 2) = g.locals.length := by
    rw [extent, Nat.add_sub_cancel_left]
  rw [count, ← length]
  constructor
  · exact visitSlots_eq parts
  · intro ws same
    rw [setPlaces_range' parts same, ← (parts_build ⟨g.resume, ws⟩ fs rest).1]
    exact List.prefix_append _ _

theorem visitFrames_build (g : Frame Nat) (fs : List (Frame Nat)) {words : Array Value} {fuel : Nat}
    (small : extent (g :: fs) < 2 ^ 64) (enough : extent (g :: fs) ≤ fuel)
    (starts : (build (g :: fs)).words.toList <+: words.toList) :
    visitFrames f fuel (extent fs) (extent (g :: fs)) words =
      (fun ws => some (setPlaces words (places (g :: fs)) ws)) <$>
        ((g :: fs).flatMap (·.locals)).mapM f := by
  induction fs generalizing g fuel words with
  | nil =>
    obtain ⟨fuel, rfl⟩ : ∃ n, fuel = n + 1 := ⟨fuel - 1, by simp only [extent] at enough; omega⟩
    have bounds : extent [] + 2 ≤ extent [g] ∧ extent [g] ≤ words.size :=
      ⟨Nat.le_add_right _ _, (header_build starts).1⟩
    rw [visitFrames, if_pos bounds, (visitSlots_build starts).1]
    simp [extent, places]
  | cons h fs ih =>
    have inner_cons : extent (h :: fs) = extent fs + 2 + h.locals.length := rfl
    have extent_cons : extent (g :: h :: fs) = extent (h :: fs) + 2 + g.locals.length := rfl
    obtain ⟨fuel, rfl⟩ : ∃ n, fuel = n + 1 := ⟨fuel - 1, by omega⟩
    have bounds : extent (h :: fs) + 2 ≤ extent (g :: h :: fs) ∧
        extent (g :: h :: fs) ≤ words.size := ⟨by omega, (header_build starts).1⟩
    have bottom : extent (h :: fs) ≠ 0 := by omega
    rcases visitSlots_build (f := f) starts with ⟨visited, kept⟩
    rw [visitFrames, if_pos bounds, visited, bind_map_left, List.flatMap_cons, List.mapM_append,
      map_bind]
    apply mapM_bind_congr
    intro ws length
    -- the header is read from the rewritten words, and is still what it was
    rcases header_build (kept ws length) with ⟨-, saved, -, below⟩
    rw [fp_build_cons, size_build] at saved
    simp only [bottom, if_false, saved, rawWord_toNat (n := extent fs) (by omega)]
    rw [ih h (by omega) (by omega) below]
    simp only [bind_pure_comp, Functor.map_map]
    congr 1
    funext others
    have here : ws.length = (List.range' (extent (h :: fs) + 2) g.locals.length).length := by
      rw [length, List.length_range']
    exact congrArg some (setPlaces_append words here).symm

theorem visitRoots_build (fs : List (Frame Nat)) (small : extent fs < 2 ^ 64) :
    (build fs).visitRoots f = (build fs).withRoots? <$> (fs.flatMap (·.locals)).mapM f := by
  have written : (build fs).withRoots? = fun ws =>
      some { build fs with words := setPlaces (build fs).words (places fs) ws } := by
    funext ws
    rw [withRoots?, rootPlaces?_build fs small]
    rfl
  rw [written, visitRoots]
  cases fs with
  | nil => simp [build, empty, places, setPlaces]
  | cons g fs =>
    have filled : ¬ (build (g :: fs)).words.isEmpty = true := by
      rw [words_isEmpty_build]
      exact Bool.false_ne_true
    have walk := visitFrames_build (f := f) g fs small (Nat.le_refl _) List.prefix_rfl
    rw [if_neg filled, size_build, fp_build_cons, size_build, walk]
    simp

end

section
variable {fs : List (Frame Nat)} {ws : List Value}

theorem flatMap_refill (length : ws.length = (fs.flatMap (·.locals)).length) :
    (refill fs ws).flatMap (·.locals) = ws := by
  induction fs generalizing ws with
  | nil => exact (List.length_eq_zero_iff.mp length).symm
  | cons f fs ih =>
    rw [List.flatMap_cons, List.length_append] at length
    rw [refill, List.flatMap_cons, ih (by rw [List.length_drop]; omega), List.take_append_drop]

theorem places_refill (length : ws.length = (fs.flatMap (·.locals)).length) :
    places (refill fs ws) = places fs := by
  induction fs generalizing ws with
  | nil => rfl
  | cons f fs ih =>
    rw [List.flatMap_cons, List.length_append] at length
    have rest : (ws.drop f.locals.length).length = (fs.flatMap (·.locals)).length := by
      rw [List.length_drop]
      omega
    have here : (ws.take f.locals.length).length = f.locals.length := by
      rw [List.length_take]
      omega
    rw [refill, places, places, extent_refill fs _ rest, ih rest, here]

theorem withRoots?_keeps (small : extent fs < 2 ^ 64)
    (length : ws.length = (fs.flatMap (·.locals)).length) :
    ∃ frames, (build fs).withRoots? ws = some frames ∧ frames.fp = (build fs).fp ∧
      frames.size = (build fs).size ∧
      (∀ i ∉ places fs, frames.words[i]? = (build fs).words[i]?) ∧
      frames.rootPlaces? = some (places fs) ∧ frames.roots? = some ws := by
  have small' : extent (refill fs ws) < 2 ^ 64 := by rwa [extent_refill fs ws length]
  have built := withRoots?_build fs small length
  refine ⟨_, built, fp_refill fs ws length, ?_, ?_, ?_, ?_⟩
  · rw [size_build, size_build, extent_refill fs ws length]
  · intro i other
    have written : build (refill fs ws) =
        { build fs with words := setPlaces (build fs).words (places fs) ws } := by
      rw [withRoots?, rootPlaces?_build fs small] at built
      exact (Option.some.inj built).symm
    rw [written]
    exact setPlaces_other other
  · rw [rootPlaces?_build _ small', places_refill length]
  · rw [roots?_build _ small', flatMap_refill length]

end
end Frames

/-- The roots of a machine are the arguments and locals of its live frames, innermost first, each
once. A walk that replaces them in place, whatever it does at each of them, ends, and replaces these
words and no others; so that frame pointer, headers and the chain of frames stay as they are. -/
theorem Vm.Live.visits_roots {vm : Vm} {fs : List (Frame Nat)} (live : vm.Live fs) :
    vm.frames.rootPlaces? = some (Frames.places fs) ∧
      vm.frames.roots? = some (fs.flatMap (·.locals)) ∧
      (Frames.places fs ++ Frames.headers fs).Perm (List.range vm.frames.size) ∧
      (∀ {m : Type → Type} [Monad m] [LawfulMonad m] (f : Value → m Value),
        vm.frames.visitRoots f = vm.frames.withRoots? <$> (fs.flatMap (·.locals)).mapM f) ∧
      ∀ ws, ws.length = (fs.flatMap (·.locals)).length →
        ∃ frames, vm.frames.withRoots? ws = some frames ∧ frames.fp = vm.frames.fp ∧
          frames.size = vm.frames.size ∧
          (∀ i ∉ Frames.places fs, frames.words[i]? = vm.frames.words[i]?) ∧
          frames.rootPlaces? = some (Frames.places fs) ∧ frames.roots? = some ws := by
  have represents := live.represents
  have small : Frames.extent fs < 2 ^ 64 := Nat.lt_of_le_of_lt represents.extent (by decide)
  rw [represents.frames]
  refine ⟨Frames.rootPlaces?_build fs small, Frames.roots?_build fs small, ?_, ?_, ?_⟩
  · rw [Frames.size_build]
    exact Frames.places_append_headers fs
  · intro m _ _ f
    exact Frames.visitRoots_build fs small
  · intro ws length
    exact Frames.withRoots?_keeps small length

theorem Vm.two_frames_visited :
    ∃ (vm : Vm) (fs : List (Frame Nat)), vm.Live fs ∧
      vm.frames = ⟨#[⟨0⟩, ⟨0⟩, .ofInt 1, .null, ⟨0⟩, ⟨7⟩, .ofInt 3, .null], 4⟩ ∧
      vm.frames.rootPlaces? = some [6, 7, 2, 3] ∧
      vm.frames.roots? = some [.ofInt 3, .null, .ofInt 1, .null] ∧
      vm.frames.visitRoots (fun v => (pure (if v.isNull then .ofInt 8 else v) : Id Value)) =
        some ⟨#[⟨0⟩, ⟨0⟩, .ofInt 1, .ofInt 8, ⟨0⟩, ⟨7⟩, .ofInt 3, .ofInt 8], 4⟩ := by
  have root : (bare #[.ofInt 3] .empty).Calls 0 0 2
      (bare #[.ofInt 3] ⟨#[⟨0⟩, ⟨0⟩, .null, .null], 0⟩) := ⟨by decide, 0, 0, _, rfl, rfl⟩
  have outer : (bare #[.ofInt 3] ⟨#[⟨0⟩, ⟨0⟩, .ofInt 1, .null], 0⟩).Calls 7 1 1
      (bare #[] ⟨#[⟨0⟩, ⟨0⟩, .ofInt 1, .null, ⟨0⟩, ⟨7⟩, .ofInt 3, .null], 4⟩) :=
    ⟨by decide, 0, 0, _, rfl, rfl⟩
  have stored : (bare #[.ofInt 3] ⟨#[⟨0⟩, ⟨0⟩, .null, .null], 0⟩).frames.setLocal? 0 (.ofInt 1) =
      some ⟨#[⟨0⟩, ⟨0⟩, .ofInt 1, .null], 0⟩ := rfl
  have live := (((Live.start rfl).call root).setLocal stored).call outer
  rcases Vm.Live.visits_roots live with ⟨places, roots, -, visited, -⟩
  exact ⟨_, _, live, rfl, places, roots, visited _⟩

end SlotVM
