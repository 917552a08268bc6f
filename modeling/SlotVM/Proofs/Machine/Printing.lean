import SlotVM.Proofs.Machine.Soundness
import Mathlib.Data.Nat.Find

namespace SlotVM

def markers (format : List Char) : Nat := format.count '~'

/-- A format with each marker replaced by the decimal text of the integer of its number. -/
def filled (format : List Char) (ints : Nat → Int) : List Char :=
  format.zipIdx.flatMap fun (c, place) =>
    if c = '~' then (toString (ints (markers (format.take place)))).toList else [c]

theorem markers_cons_marker (format : List Char) : markers ('~' :: format) = markers format + 1 :=
  List.count_cons_self

theorem markers_cons_of_ne {c : Char} (plain : c ≠ '~') (format : List Char) :
    markers (c :: format) = markers format :=
  List.count_cons_of_ne plain

theorem filled_cons_marker (format : List Char) (ints : Nat → Int) :
    filled ('~' :: format) ints =
      (toString (ints 0)).toList ++ filled format fun k => ints (k + 1) := by
  unfold filled
  rw [List.zipIdx_cons, List.flatMap_cons, List.zipIdx_succ, List.flatMap_map]
  simp only [List.take_succ_cons, markers_cons_marker]
  rfl

theorem filled_cons_of_ne {c : Char} (plain : c ≠ '~') (format : List Char) (ints : Nat → Int) :
    filled (c :: format) ints = c :: filled format ints := by
  unfold filled
  rw [List.zipIdx_cons, List.flatMap_cons, List.zipIdx_succ, List.flatMap_map]
  simp only [plain, if_false, List.take_succ_cons, markers_cons_of_ne plain]
  rfl

def intAt? (args : List Value) (k : Nat) : Option Int := args[k]?.bind Value.toInt?

theorem renderFormat_plain {c : Char} (plain : c ≠ '~') (given : Nat) (seen cs : List Char)
    (args : List Value) :
    renderFormat given seen (c :: cs) args = renderFormat given (c :: seen) cs args := by
  conv_lhs => unfold renderFormat
  rw [if_neg plain]

theorem renderFormat_marker {arg : Value} {n : Int} (int : arg.toInt? = some n) (given : Nat)
    (seen cs : List Char) (args : List Value) :
    renderFormat given seen ('~' :: cs) (arg :: args) =
      renderFormat given ((toString n).toList.reverse ++ seen) cs args := by
  rw [renderFormat, if_pos rfl, int]

theorem intAt?_cases {args : List Value} {n : Int} (first : intAt? args 0 = some n) :
    ∃ arg rest, args = arg :: rest ∧ arg.toInt? = some n ∧ ∀ k, intAt? args (k + 1) = intAt? rest k := by
  cases args with
  | nil => cases first
  | cons arg rest => exact ⟨arg, rest, rfl, first, fun _ => rfl⟩

theorem renderFormat_filled (given : Nat) (seen : List Char) {cs : List Char} {args : List Value}
    {ints : Nat → Int} (each : ∀ k < markers cs, intAt? args k = some (ints k)) :
    renderFormat given seen cs args = .ok (String.ofList (seen.reverse ++ filled cs ints)) := by
  induction cs generalizing seen args ints with
  | nil => rw [renderFormat, filled, List.zipIdx_nil, List.flatMap_nil, List.append_nil]
  | cons c cs ih =>
    by_cases marker : c = '~'
    · subst marker
      rw [markers_cons_marker] at each
      obtain ⟨arg, rest, rfl, int, shift⟩ := intAt?_cases (each 0 (by omega))
      have later : ∀ k < markers cs, intAt? rest k = some (ints (k + 1)) := by
        intro k inside
        rw [← shift]
        exact each (k + 1) (by omega)
      rw [renderFormat_marker int, ih _ later, filled_cons_marker]
      simp
    · rw [markers_cons_of_ne marker] at each
      rw [renderFormat_plain marker, ih _ each, filled_cons_of_ne marker]
      simp

def unfit (given : Nat) : Option Value → Except Fault String
  | none => .error (.error (.formatArity given))
  | some v => do .error (.error (.typeMismatch .printf (← orCrash v.typeName)))

theorem renderFormat_unfit (given : Nat) (seen : List Char) {cs : List Char} {args : List Value}
    {k : Nat} (marker : k < markers cs) (earlier : ∀ j < k, (intAt? args j).isSome)
    (none : intAt? args k = none) : renderFormat given seen cs args = unfit given args[k]? := by
  induction cs generalizing seen args k with
  | nil => cases marker
  | cons c cs ih =>
    by_cases here : c = '~'
    · subst here
      rw [markers_cons_marker] at marker
      cases k with
      | zero =>
        cases args with
        | nil => rfl
        | cons arg args =>
          have other : arg.toInt? = .none := none
          rw [renderFormat, if_pos rfl, other]
          rfl
      | succ k =>
        obtain ⟨n, first⟩ := Option.isSome_iff_exists.mp (earlier 0 (by omega))
        obtain ⟨arg, rest, rfl, int, shift⟩ := intAt?_cases first
        rw [renderFormat_marker int]
        apply ih
        · omega
        · intro j before
          rw [← shift]
          exact earlier (j + 1) (by omega)
        · rw [← shift]
          exact none
    · rw [markers_cons_of_ne here] at marker
      rw [renderFormat_plain here]
      exact ih _ marker earlier none

namespace Store

/-- The operand that a marker stands for: of the top `arity`, the deepest has number 0. -/
def argument? (s : Store) (arity k : Nat) : Option Value :=
  if k < arity then s.stack[s.stack.size - arity + k]? else none

def intArgument? (s : Store) (arity k : Nat) : Option Int := (s.argument? arity k).bind Value.toInt?

/-- What printing a format leads to. Every error leaves the store as it was. -/
inductive Prints (s : Store) (format : String) (arity : Nat) : Effect → Prop
  | underflow (few : s.stack.size < arity) : Prints s format arity (.error .stackUnderflow s)
  | formatArity (enough : arity ≤ s.stack.size)
      (earlier : ∀ k < arity, (s.intArgument? arity k).isSome)
      (marker : arity < markers format.toList) :
      Prints s format arity (.error (.formatArity arity) s)
  | typeMismatch {k : Nat} {v : Value} {type : TypeName} (enough : arity ≤ s.stack.size)
      (earlier : ∀ j < k, (s.intArgument? arity j).isSome) (marker : k < markers format.toList)
      (argument : s.argument? arity k = some v) (other : v.toInt? = none)
      (typed : v.typeName = .ok type) :
      Prints s format arity (.error (.typeMismatch .printf type) s)
  | refused {ints : Nat → Int} {text : String} (enough : arity ≤ s.stack.size)
      (each : ∀ k < markers format.toList, s.intArgument? arity k = some (ints k))
      (rendered : text = String.ofList (filled format.toList ints))
      (refused : s.sink.accepts text = false) : Prints s format arity (.error Sink.full s)
  | printed {ints : Nat → Int} {text : String} (enough : arity ≤ s.stack.size)
      (each : ∀ k < markers format.toList, s.intArgument? arity k = some (ints k))
      (rendered : text = String.ofList (filled format.toList ints))
      (accepted : s.sink.accepts text = true) :
      Prints s format arity (.done { s with
        stack := (s.stack.take (s.stack.size - arity)).push .null
        sink := { s.sink with written := s.sink.written ++ text } })

section
variable {s : Store} {format : String} {arity : Nat}

theorem getElem?_toList_top (enough : arity ≤ s.stack.size) (k : Nat) :
    (s.top arity).toList[k]? = s.argument? arity k := by
  unfold argument?
  split
  · rename_i inside
    rw [Array.getElem?_toList, s.getElem?_top enough inside]
  · rename_i outside
    apply List.getElem?_eq_none
    rw [s.length_top enough]
    omega

theorem intAt?_top (enough : arity ≤ s.stack.size) (k : Nat) :
    intAt? (s.top arity).toList k = s.intArgument? arity k := by
  rw [intAt?, getElem?_toList_top enough, intArgument?]

theorem printf_of_error (enough : arity ≤ s.stack.size) {f : Fault}
    (failed : renderFormat arity [] format.toList (s.top arity).toList = .error f) :
    s.printf format arity = .ofFault f s := by
  rw [printf, if_neg (Nat.not_lt.mpr enough), failed]

theorem printf_of_ok (enough : arity ≤ s.stack.size) {text : String}
    (rendered : renderFormat arity [] format.toList (s.top arity).toList = .ok text) :
    s.printf format arity =
      if s.sink.accepts text then
        .done { s with
          stack := (s.stack.take (s.stack.size - arity)).push .null
          sink := { s.sink with written := s.sink.written ++ text } }
      else .error Sink.full s := by
  rw [printf, if_neg (Nat.not_lt.mpr enough), rendered]
  simp only [Sink.write, dropTop, push, Array.shrink_eq_take]

theorem printf_filled (enough : arity ≤ s.stack.size) {ints : Nat → Int}
    (each : ∀ k < markers format.toList, s.intArgument? arity k = some (ints k)) :
    renderFormat arity [] format.toList (s.top arity).toList =
      .ok (String.ofList (filled format.toList ints)) := by
  apply renderFormat_filled
  intro k inside
  rw [intAt?_top enough]
  exact each k inside

theorem printf_unfit (enough : arity ≤ s.stack.size) {k : Nat} (marker : k < markers format.toList)
    (earlier : ∀ j < k, (s.intArgument? arity j).isSome) (none : s.intArgument? arity k = none) :
    renderFormat arity [] format.toList (s.top arity).toList = unfit arity (s.argument? arity k) := by
  rw [← getElem?_toList_top enough]
  apply renderFormat_unfit arity [] marker
  · intro j before
    rw [intAt?_top enough]
    exact earlier j before
  · rw [intAt?_top enough]
    exact none

theorem Prints.printf_eq {outcome : Effect} (prints : s.Prints format arity outcome) :
    s.printf format arity = outcome := by
  cases prints with
  | underflow few => rw [printf, if_pos few]
  | formatArity enough earlier marker =>
    have absent : s.argument? arity arity = none := if_neg (Nat.lt_irrefl arity)
    have rendered := printf_unfit enough marker earlier (by rw [intArgument?, absent]; rfl)
    rw [absent] at rendered
    exact printf_of_error enough rendered
  | typeMismatch enough earlier marker argument other typed =>
    have rendered := printf_unfit enough marker earlier (by rw [intArgument?, argument]; exact other)
    simp only [argument, unfit, typed, orCrash, bind, Except.bind] at rendered
    exact printf_of_error enough rendered
  | refused enough each rendered refused =>
    rw [printf_of_ok enough (printf_filled enough each), ← rendered, refused]
    rfl
  | printed enough each rendered accepted =>
    rw [printf_of_ok enough (printf_filled enough each), ← rendered, accepted]
    rfl

theorem argument?_eq_none_iff (enough : arity ≤ s.stack.size) {k : Nat} :
    s.argument? arity k = none ↔ arity ≤ k := by
  rw [← getElem?_toList_top enough, List.getElem?_eq_none_iff, s.length_top enough]

theorem mem_of_argument? {k : Nat} {v : Value} (argument : s.argument? arity k = some v) :
    v ∈ s.stack := by
  unfold argument? at argument
  split at argument
  · exact Array.mem_of_getElem? argument
  · cases argument

theorem exists_typeName {v : Value} (valid : v.kind?.isSome) : ∃ type, v.typeName = .ok type := by
  unfold Value.typeName
  cases kind : v.kind? with
  | none => simp [kind] at valid
  | some sort => cases sort <;> simp

theorem exists_prints (valid : ∀ v ∈ s.stack, v.kind?.isSome) (format : String) (arity : Nat) :
    ∃ outcome, s.Prints format arity outcome := by
  by_cases few : s.stack.size < arity
  · exact ⟨_, .underflow few⟩
  have enough : arity ≤ s.stack.size := Nat.not_lt.mp few
  -- the least marker without an integer decides, and the one numbered `arity` has none
  by_cases unfit : ∃ k, k < markers format.toList ∧ s.intArgument? arity k = none
  · have marker := (Nat.find_spec unfit).1
    have none := (Nat.find_spec unfit).2
    have earlier : ∀ j < Nat.find unfit, (s.intArgument? arity j).isSome := by
      intro j before
      rw [Option.isSome_iff_ne_none]
      intro absent
      exact Nat.find_min unfit before ⟨by omega, absent⟩
    generalize Nat.find unfit = k at marker none earlier
    cases argument : s.argument? arity k with
    | none =>
      have le := (argument?_eq_none_iff enough).mp argument
      exact ⟨_, .formatArity enough (fun j before => earlier j (by omega)) (by omega)⟩
    | some v =>
      have other : v.toInt? = .none := by simpa [intArgument?, argument] using none
      obtain ⟨type, typed⟩ := exists_typeName (valid v (mem_of_argument? argument))
      exact ⟨_, .typeMismatch enough earlier marker argument other typed⟩
  · have each : ∀ k < markers format.toList,
        s.intArgument? arity k = some ((s.intArgument? arity k).getD 0) := by
      intro k marker
      cases int : s.intArgument? arity k with
      | none => exact absurd ⟨k, marker, int⟩ unfit
      | some n => rfl
    cases accepts : s.sink.accepts (String.ofList (filled format.toList _)) with
    | false => exact ⟨_, .refused enough each rfl accepts⟩
    | true => exact ⟨_, .printed enough each rfl accepts⟩

/-- Printing is all or nothing: its outcome is the one that the first marker without an integer gives,
or the sink if there is none, and an error leaves the operands and the output as they were. -/
theorem printf_all_or_nothing (s : Store) (format : String) (arity : Nat)
    (valid : ∀ v ∈ s.stack, v.kind?.isSome) :
    (∀ outcome, s.printf format arity = outcome ↔ s.Prints format arity outcome) ∧
    ∀ e after, s.printf format arity = .error e after → after = s := by
  have exact : ∀ outcome, s.printf format arity = outcome ↔ s.Prints format arity outcome := by
    intro outcome
    constructor
    · rintro rfl
      obtain ⟨outcome, prints⟩ := exists_prints valid format arity
      rw [prints.printf_eq]
      exact prints
    · exact Prints.printf_eq
  refine ⟨exact, ?_⟩
  intro e after failed
  cases (exact _).mp failed <;> rfl

end

def mixed : Store := ⟨#[.ofInt (-7), .ofAddr 0, .null], #[], ⟨.zero 0, 0, 0, 0, 0, 0⟩, .unbounded⟩

theorem mixed_printf :
    (∀ v ∈ mixed.stack, v.kind?.isSome) ∧
      mixed.printf "~ of ~" 3 = .error (.typeMismatch .printf .object) mixed ∧
      mixed.printf "~ of 9" 3 = .done { mixed with
        stack := #[.null], sink := { mixed.sink with written := "-7 of 9" } } := by
  have valid : ∀ v ∈ mixed.stack, v.kind?.isSome := by decide
  refine ⟨valid, ?_, ?_⟩
  · apply ((printf_all_or_nothing mixed "~ of ~" 3 valid).1 _).mpr
    exact @Prints.typeMismatch _ _ _ 1 (.ofAddr 0) .object (by decide) (by decide) (by decide) rfl
      (by decide) (by decide)
  · apply ((printf_all_or_nothing mixed "~ of 9" 3 valid).1 _).mpr
    exact @Prints.printed mixed "~ of 9" 3 (fun _ => -7) _ (by decide) (by decide) rfl (by decide)

end Store
end SlotVM
