import SlotVM.Proofs.Frames.Walk
import Mathlib.Algebra.Ring.Nat

namespace SlotVM

structure Frame (ρ : Type) where
  resume : ρ
  locals : List Value

namespace Frames

def build : List (Frame Nat) → Frames
  | [] => empty
  | f :: fs =>
    ⟨((build fs).pushCall f.resume).words ++ f.locals.toArray, (build fs).size⟩

def extent {ρ : Type} : List (Frame ρ) → Nat
  | [] => 0
  | f :: fs => extent fs + 2 + f.locals.length

def refill {ρ : Type} : List (Frame ρ) → List Value → List (Frame ρ)
  | [], _ => []
  | f :: fs, values =>
    ⟨f.resume, values.take f.locals.length⟩ :: refill fs (values.drop f.locals.length)

section
variable {f g : Frame Nat} {fs : List (Frame Nat)}

theorem toList_build_cons (f : Frame Nat) (fs : List (Frame Nat)) :
    (build (f :: fs)).words.toList = (build fs).words.toList ++
      (rawWord (build fs).fp :: rawWord f.resume :: f.locals) := by
  simp [build, pushCall]

@[simp] theorem fp_build_cons (f : Frame Nat) (fs : List (Frame Nat)) :
    (build (f :: fs)).fp = (build fs).size := rfl

theorem size_eq_length (frames : Frames) : frames.size = frames.words.toList.length := by
  simp [size]

@[simp] theorem size_build (fs : List (Frame Nat)) : (build fs).size = extent fs := by
  induction fs with
  | nil => rfl
  | cons f fs ih =>
    rw [size_eq_length, toList_build_cons, List.length_append, ← size_eq_length, ih, extent]
    simp only [List.length_cons]
    omega

theorem words_isEmpty_build (f : Frame Nat) (fs : List (Frame Nat)) :
    (build (f :: fs)).words.isEmpty = false := by
  rw [Array.isEmpty_eq_false_iff]
  intro none
  have taken : (build (f :: fs)).words.size = extent (f :: fs) := size_build _
  rw [none] at taken
  simp only [extent, Array.size_empty] at taken
  omega

theorem fp_le_extent (fs : List (Frame Nat)) : (build fs).fp ≤ extent fs := by
  cases fs with
  | nil => exact Nat.le_refl 0
  | cons f fs =>
    rw [fp_build_cons, size_build, extent]
    omega

theorem ext {frames frames' : Frames} (words : frames.words.toList = frames'.words.toList)
    (fp : frames.fp = frames'.fp) : frames = frames' := by
  cases frames
  cases frames'
  simp only at words fp
  rw [fp, Array.toList_inj.mp words]

theorem rawWord_toNat {n : Nat} (small : n < 2 ^ 64) : (rawWord n).raw.toNat = n :=
  UInt64.toNat_ofNat_of_lt' small

theorem enter?_pushCall (fs : List (Frame Nat)) (ret : Nat) (args : Array Value) (nlocals : Nat) :
    ((build fs).pushCall ret).enter? args nlocals =
      some (build (⟨ret, args.toList ++ List.replicate nlocals .null⟩ :: fs)) := by
  have header : 2 ≤ ((build fs).pushCall ret).size := by simp [pushCall, size]
  rw [enter?, if_pos header, Option.some.injEq]
  apply ext
  · simp [pushCall, toList_build_cons]
  · simp [pushCall, size]

theorem ret?_root (f : Frame Nat) : (build [f]).ret? = some (.halt, empty) := by
  simp [ret?, build, pushCall, size, empty]

theorem ret?_cons (f g : Frame Nat) (fs : List (Frame Nat)) (small : extent (g :: fs) < 2 ^ 64)
    (ret : f.resume < 2 ^ 64) :
    (build (f :: g :: fs)).ret? = some (.resume f.resume, build (g :: fs)) := by
  have above : (build (f :: g :: fs)).fp ≠ 0 := by
    rw [fp_build_cons, size_build, extent]
    omega
  have fp : (build (f :: g :: fs)).fp = (build (g :: fs)).words.toList.length := by
    rw [fp_build_cons, size_eq_length]
  have saved : (build (f :: g :: fs)).words[(build (f :: g :: fs)).fp]? =
      some (rawWord (build (g :: fs)).fp) := by
    rw [← Array.getElem?_toList, fp, toList_build_cons]
    simp
  have ip : (build (f :: g :: fs)).words[(build (f :: g :: fs)).fp + 1]? =
      some (rawWord f.resume) := by
    rw [← Array.getElem?_toList, fp, toList_build_cons, List.getElem?_append_right (by omega)]
    simp
  have inner := fp_le_extent (g :: fs)
  simp only [ret?, saved, ip, Option.bind_eq_bind, Option.bind_some, above, if_false,
    rawWord_toNat ret, Option.pure_def, Option.some.injEq, Prod.mk.injEq, true_and]
  apply ext
  · rw [Array.toList_shrink, fp, toList_build_cons f, List.take_left]
  · exact rawWord_toNat (by omega)

theorem local?_build (f : Frame Nat) (fs : List (Frame Nat)) (index : Nat) :
    (build (f :: fs)).local? index = f.locals[index]? := by
  rw [local?, ← Array.getElem?_toList, toList_build_cons, fp_build_cons, size_eq_length,
    List.getElem?_append_right (by omega), Nat.add_assoc, Nat.add_sub_cancel_left, Nat.add_comm 2]
  simp

theorem setLocal?_build (f : Frame Nat) (fs : List (Frame Nat)) (index : Nat) (v : Value) :
    (build (f :: fs)).setLocal? index v =
      if index < f.locals.length then some (build (⟨f.resume, f.locals.set index v⟩ :: fs))
      else none := by
  have inside : (build (f :: fs)).fp + 2 + index < (build (f :: fs)).size ↔
      index < f.locals.length := by
    rw [fp_build_cons, size_build, size_build, extent]
    omega
  by_cases here : index < f.locals.length
  · rw [setLocal?, if_pos (inside.mpr here), if_pos here, Option.some.injEq]
    apply ext
    · rw [Array.toList_setIfInBounds, toList_build_cons, toList_build_cons, fp_build_cons,
        size_eq_length, List.set_append_right _ _ (by omega), Nat.add_assoc, Nat.add_sub_cancel_left,
        Nat.add_comm 2]
      rfl
    · rfl
  · rw [setLocal?, if_neg fun fits => here (inside.mp fits), if_neg here]

def places : List (Frame Nat) → List Nat
  | [] => []
  | f :: fs => List.range' (extent fs + 2) f.locals.length ++ places fs

theorem header_build {f : Frame Nat} {fs : List (Frame Nat)} {words : Array Value}
    (starts : (build (f :: fs)).words.toList <+: words.toList) :
    extent (f :: fs) ≤ words.size ∧ words[extent fs]? = some (rawWord (build fs).fp) ∧
      words[extent fs + 1]? = some (rawWord f.resume) ∧
      (build fs).words.toList <+: words.toList := by
  obtain ⟨rest, starts⟩ := starts
  have length : extent fs = (build fs).words.toList.length := by rw [← size_eq_length, size_build]
  have words_size : extent (f :: fs) ≤ words.size := by
    rw [← Array.length_toList, ← starts, List.length_append, ← size_eq_length, size_build]
    exact Nat.le_add_right _ _
  rw [toList_build_cons, List.append_assoc] at starts
  refine ⟨words_size, ?_, ?_, ⟨_, starts⟩⟩
  · rw [← Array.getElem?_toList, ← starts, length]
    simp
  · rw [← Array.getElem?_toList, ← starts, length, List.getElem?_append_right (by omega)]
    simp

theorem rootsBelow?_build (f : Frame Nat) (fs : List (Frame Nat)) {words : Array Value} {fuel : Nat}
    (small : extent (f :: fs) < 2 ^ 64) (enough : extent (f :: fs) ≤ fuel)
    (starts : (build (f :: fs)).words.toList <+: words.toList) :
    rootsBelow? words fuel (extent fs) (extent (f :: fs)) = some (places (f :: fs)) := by
  induction fs generalizing f fuel with
  | nil =>
    obtain ⟨fuel, rfl⟩ : ∃ n, fuel = n + 1 := ⟨fuel - 1, by simp only [extent] at enough; omega⟩
    have length := (header_build starts).1
    simp only [extent] at length
    simp [rootsBelow?, extent, places, length]
  | cons g fs ih =>
    have extent_cons : extent (f :: g :: fs) = extent (g :: fs) + 2 + f.locals.length := rfl
    have inner_cons : extent (g :: fs) = extent fs + 2 + g.locals.length := rfl
    obtain ⟨fuel, rfl⟩ : ∃ n, fuel = n + 1 := ⟨fuel - 1, by omega⟩
    obtain ⟨length, word, -, below⟩ := header_build starts
    rw [fp_build_cons, size_build] at word
    have enough' : extent (g :: fs) ≤ fuel := by omega
    have rest := ih g (by omega) enough' below
    have bounds : extent (g :: fs) + 2 ≤ extent (f :: g :: fs) ∧ extent (f :: g :: fs) ≤ words.size :=
      ⟨by omega, length⟩
    have bottom : extent (g :: fs) ≠ 0 := by omega
    rw [rootsBelow?, if_pos bounds, if_neg bottom]
    simp only [word, Option.bind_eq_bind, Option.bind_some, rawWord_toNat (n := extent fs) (by omega),
      rest]
    simp [places, extent_cons]

theorem rootPlaces?_build (fs : List (Frame Nat)) (small : extent fs < 2 ^ 64) :
    (build fs).rootPlaces? = some (places fs) := by
  cases fs with
  | nil => rfl
  | cons f fs =>
    rw [rootPlaces?, words_isEmpty_build, size_build, fp_build_cons, size_build]
    exact rootsBelow?_build f fs small (Nat.le_refl _) List.prefix_rfl

theorem mapM_range' {words : Array Value} {before block after : List Value}
    (parts : words.toList = before ++ block ++ after) :
    (List.range' before.length block.length).mapM (words[·]?) = some block := by
  induction block generalizing before with
  | nil => rfl
  | cons v block ih =>
    have first : words[before.length]? = some v := by
      rw [← Array.getElem?_toList, parts]
      simp
    have rest := @ih (before ++ [v]) (by rw [parts]; simp)
    rw [List.length_append, List.length_singleton] at rest
    rw [List.length_cons, List.range'_succ, List.mapM_cons, first, rest]
    rfl

theorem setPlaces_range' {words : Array Value} {before block values after : List Value}
    (parts : words.toList = before ++ block ++ after) (length : values.length = block.length) :
    (setPlaces words (List.range' before.length block.length) values).toList =
      before ++ values ++ after := by
  induction block generalizing before values words with
  | nil =>
    rw [List.length_nil, List.length_eq_zero_iff] at length
    subst length
    exact parts
  | cons v block ih =>
    cases values with
    | nil => simp at length
    | cons w values =>
      have written : (words.setIfInBounds before.length w).toList = before ++ [w] ++ block ++ after := by
        rw [Array.toList_setIfInBounds, parts]
        simp
      have rest := ih written (by simpa using length)
      rw [List.length_append, List.length_singleton] at rest
      rw [List.length_cons, List.range'_succ, setPlaces, rest]
      simp

theorem setPlaces_append (words : Array Value) {ps qs : List Nat} {vs ws : List Value}
    (length : vs.length = ps.length) :
    setPlaces words (ps ++ qs) (vs ++ ws) = setPlaces (setPlaces words ps vs) qs ws := by
  induction ps generalizing words vs with
  | nil =>
    rw [List.length_nil, List.length_eq_zero_iff] at length
    subst length
    rfl
  | cons p ps ih =>
    cases vs with
    | nil => simp at length
    | cons v vs => exact ih _ (by simpa using length)

theorem parts_build (f : Frame Nat) (fs : List (Frame Nat)) (tail : List Value) :
    (build (f :: fs)).words.toList ++ tail =
        ((build fs).words.toList ++ [rawWord (build fs).fp, rawWord f.resume]) ++ f.locals ++ tail ∧
      ((build fs).words.toList ++ [rawWord (build fs).fp, rawWord f.resume]).length =
        extent fs + 2 := by
  rw [toList_build_cons, List.length_append, ← size_eq_length, size_build]
  simp

theorem mapM_places (fs : List (Frame Nat)) {words : Array Value} {tail : List Value}
    (parts : words.toList = (build fs).words.toList ++ tail) :
    (places fs).mapM (words[·]?) = some (fs.flatMap (·.locals)) := by
  induction fs generalizing tail with
  | nil => rfl
  | cons f fs ih =>
    obtain ⟨inner, length⟩ := parts_build f fs tail
    have here := mapM_range' (parts.trans inner)
    rw [length] at here
    have rest := ih (parts.trans (inner.trans (by rw [List.append_assoc, List.append_assoc])))
    rw [places, List.mapM_append, here, rest]
    rfl

theorem roots?_build (fs : List (Frame Nat)) (small : extent fs < 2 ^ 64) :
    (build fs).roots? = some (fs.flatMap (·.locals)) := by
  have read := mapM_places fs (List.append_nil (build fs).words.toList).symm
  simp [roots?, rootPlaces?_build fs small, read]

@[simp] theorem extent_refill {ρ : Type} (fs : List (Frame ρ)) (values : List Value)
    (length : values.length = (fs.flatMap (·.locals)).length) :
    extent (refill fs values) = extent fs := by
  induction fs generalizing values with
  | nil => rfl
  | cons f fs ih =>
    rw [List.flatMap_cons, List.length_append] at length
    rw [refill, extent, extent, ih _ (by rw [List.length_drop]; omega), List.length_take]
    omega

theorem refill_map {ρ : Type} (fs : List (Frame ρ)) (g : Value → Value) :
    refill fs ((fs.flatMap (·.locals)).map g) = fs.map fun f => ⟨f.resume, f.locals.map g⟩ := by
  induction fs with
  | nil => rfl
  | cons f fs ih =>
    rw [List.flatMap_cons, List.map_append, refill, List.map_cons,
      List.take_left' (List.length_map g), List.drop_left' (List.length_map g), ih]

theorem fp_refill (fs : List (Frame Nat)) (values : List Value)
    (length : values.length = (fs.flatMap (·.locals)).length) :
    (build (refill fs values)).fp = (build fs).fp := by
  cases fs with
  | nil => rfl
  | cons f fs =>
    rw [List.flatMap_cons, List.length_append] at length
    rw [refill, fp_build_cons, fp_build_cons, size_build, size_build,
      extent_refill _ _ (by rw [List.length_drop]; omega)]

theorem setPlaces_places (fs : List (Frame Nat)) {words : Array Value} {tail values : List Value}
    (parts : words.toList = (build fs).words.toList ++ tail)
    (length : values.length = (fs.flatMap (·.locals)).length) :
    (setPlaces words (places fs) values).toList =
      (build (refill fs values)).words.toList ++ tail := by
  induction fs generalizing tail values words with
  | nil =>
    rw [List.flatMap_nil, List.length_nil, List.length_eq_zero_iff] at length
    subst length
    exact parts
  | cons f fs ih =>
    obtain ⟨inner, header⟩ := parts_build f fs tail
    rw [List.flatMap_cons, List.length_append] at length
    have split := List.take_append_drop f.locals.length values
    have taken : (values.take f.locals.length).length = f.locals.length := by
      rw [List.length_take]
      omega
    have dropped : (values.drop f.locals.length).length = (fs.flatMap (·.locals)).length := by
      rw [List.length_drop]
      omega
    have here := setPlaces_range' (parts.trans inner) taken
    rw [header] at here
    have rest := ih (here.trans (by rw [List.append_assoc, List.append_assoc])) dropped
    rw [← setPlaces_append _ (by rw [taken, List.length_range']), split] at rest
    rw [places, rest, refill, toList_build_cons, fp_refill _ _ dropped]
    simp

theorem withRoots?_build (fs : List (Frame Nat)) (small : extent fs < 2 ^ 64) {values : List Value}
    (length : values.length = (fs.flatMap (·.locals)).length) :
    (build fs).withRoots? values = some (build (refill fs values)) := by
  simp only [withRoots?, rootPlaces?_build fs small, Option.bind_eq_bind, Option.bind_some,
    Option.pure_def, Option.some.injEq]
  have written := setPlaces_places fs (List.append_nil (build fs).words.toList).symm length
  apply ext
  · simpa using written
  · exact (fp_refill fs values length).symm

/-- Completed frames down to the bottom. Each but the root's returns to an offset of a kind. -/
inductive Stacked (returns : Nat → Prop) (words : Array Value) : Nat → Nat → Prop where
  | root {stop : Nat} (header : 2 ≤ stop) (inside : stop ≤ words.size) :
      Stacked returns words 0 stop
  | call {fp stop : Nat} {saved ip : Value} (above : 0 < fp) (header : fp + 2 ≤ stop)
      (inside : stop ≤ words.size) (word : words[fp]? = some saved)
      (resume : words[fp + 1]? = some ip) (allowed : returns ip.raw.toNat)
      (below : Stacked returns words saved.raw.toNat fp) : Stacked returns words fp stop

theorem Stacked.chain {returns : Nat → Prop} {words : Array Value} {fp stop : Nat}
    (stacked : Stacked returns words fp stop) : Chain words fp stop := by
  induction stacked with
  | root header inside => exact .root header inside
  | call above header inside word _ _ _ ih => exact .link above header inside word ih

theorem stacked_build {returns : Nat → Prop} (f : Frame Nat) (fs : List (Frame Nat))
    (small : extent (f :: fs) < 2 ^ 64)
    (allowed : ∀ g ∈ (f :: fs).dropLast, returns (rawWord g.resume).raw.toNat)
    {words : Array Value} (starts : (build (f :: fs)).words.toList <+: words.toList) :
    Stacked returns words (extent fs) (extent (f :: fs)) := by
  induction fs generalizing f with
  | nil => exact .root (by simp only [extent]; omega) (header_build starts).1
  | cons g fs ih =>
    have extent_cons : extent (f :: g :: fs) = extent (g :: fs) + 2 + f.locals.length := rfl
    have inner_cons : extent (g :: fs) = extent fs + 2 + g.locals.length := rfl
    obtain ⟨length, word, resume, below⟩ := header_build starts
    rw [fp_build_cons, size_build] at word
    refine .call (by omega) (by omega) length word resume (allowed f (by simp)) ?_
    rw [rawWord_toNat (by omega)]
    exact ih g (by omega) (fun h member => allowed h (by simp [member])) below

theorem wellFormed_build (fs : List (Frame Nat)) (small : extent fs < 2 ^ 64) :
    (build fs).WellFormed := by
  cases fs with
  | nil => exact .inl rfl
  | cons f fs =>
    have stacked : Stacked (fun _ => True) (build (f :: fs)).words (extent fs) (extent (f :: fs)) :=
      stacked_build f fs small (fun _ _ => trivial) List.prefix_rfl
    have chain := stacked.chain
    rw [← size_build fs, ← size_build (f :: fs)] at chain
    exact .inr chain

end
end Frames
end SlotVM
