import SlotVM.Json.Reader
import SlotVM.Proofs.Except
import SlotVM.Proofs.Json.Grammar

namespace SlotVM.Json.Reader

theorem skipBlanks_append {before : List Char} (blank : Blank before) (cs : List Char) :
    skipBlanks (before ++ cs) = skipBlanks cs :=
  List.dropWhile_append_of_pos blank

theorem skipBlanks_cons {c : Char} (dark : isBlank c = false) (cs : List Char) :
    skipBlanks (c :: cs) = c :: cs := by
  rw [skipBlanks, List.dropWhile_cons, if_neg (by simp [dark])]

theorem hexDigit?_of_hexDigit {c : Char} {n : Nat} (digit : HexDigit c n) :
    Text.hexDigit? c = some n := by
  have both : ∀ n < 16, Text.hexDigit? (Nat.digitChar n) = some n ∧
      Text.hexDigit? (Nat.digitChar n).toUpper = some n := by decide
  obtain ⟨small, rfl | rfl⟩ := digit
  · exact (both n small).1
  · exact (both n small).2

theorem hex4?_of_hexUnit {n : Nat} {ds : List Char} (unit : HexUnit n ds) :
    ∃ a b c d, ds = [a, b, c, d] ∧ hex4? a b c d = some n := by
  obtain ⟨first, second, third, fourth, value⟩ := unit
  refine ⟨_, _, _, _, rfl, ?_⟩
  simp only [hex4?, Text.hexadecimal?, Text.numeral?, List.foldlM, bind, Option.bind, pure,
    hexDigit?_of_hexDigit first, hexDigit?_of_hexDigit second, hexDigit?_of_hexDigit third,
    hexDigit?_of_hexDigit fourth, Option.map_some, Option.some.injEq]
  omega

theorem no_surrogate (c : Char) : isHighSurrogate c.toNat = false ∧ isLowSurrogate c.toNat = false := by
  have valid : c.toNat < 0xD800 ∨ 0xDFFF < c.toNat ∧ c.toNat < 0x110000 := c.valid
  simp only [isHighSurrogate, isLowSurrogate, Bool.and_eq_false_iff, decide_eq_false_iff_not]
  omega

theorem unicodeEscape_unit (lenient : Bool) {c : Char} {ds : List Char} (unit : HexUnit c.toNat ds)
    (rest : List Char) : unicodeEscape lenient (ds ++ rest) = .ok (c, rest) := by
  obtain ⟨_, _, _, _, rfl, value⟩ := hex4?_of_hexUnit unit
  obtain ⟨high, low⟩ := no_surrogate c
  simp [unicodeEscape, value, high, low]

theorem unicodeEscape_pair {c : Char} {ds es : List Char} (wide : 0x10000 ≤ c.toNat)
    (high : HexUnit (0xD800 + (c.toNat - 0x10000) / 0x400) ds)
    (low : HexUnit (0xDC00 + (c.toNat - 0x10000) % 0x400) es) (rest : List Char) :
    unicodeEscape false (ds ++ '\\' :: 'u' :: (es ++ rest)) = .ok (c, rest) := by
  obtain ⟨_, _, _, _, rfl, high_value⟩ := hex4?_of_hexUnit high
  obtain ⟨_, _, _, _, rfl, low_value⟩ := hex4?_of_hexUnit low
  have valid : c.toNat < 0xD800 ∨ 0xDFFF < c.toNat ∧ c.toNat < 0x110000 := c.valid
  have is_high : isHighSurrogate (0xD800 + (c.toNat - 0x10000) / 0x400) = true := by
    simp only [isHighSurrogate, Bool.and_eq_true, decide_eq_true_eq]
    omega
  have is_low : isLowSurrogate (0xDC00 + (c.toNat - 0x10000) % 0x400) = true := by
    simp only [isLowSurrogate, Bool.and_eq_true, decide_eq_true_eq]
    omega
  have joined : ofSurrogates (0xD800 + (c.toNat - 0x10000) / 0x400)
      (0xDC00 + (c.toNat - 0x10000) % 0x400) = c := by
    rw [ofSurrogates, Nat.add_sub_cancel_left, Nat.add_sub_cancel_left, Nat.add_assoc,
      Nat.div_add_mod', Nat.add_sub_cancel' wide, Char.ofNat_toNat]
  simp [unicodeEscape, lowSurrogate, high_value, low_value, is_high, is_low, joined]

theorem unicodeEscape_lenient {n : Nat} {ds : List Char} (unit : HexUnit n ds) :
    ∃ u, ∀ rest, unicodeEscape true (ds ++ rest) = .ok (u, rest) := by
  obtain ⟨_, _, _, _, rfl, value⟩ := hex4?_of_hexUnit unit
  exact ⟨Char.ofNat n, fun rest => by simp [unicodeEscape, value]⟩

theorem stringFrom_unicode {lenient : Bool} {cs rest : List Char} {u : Char}
    (read : unicodeEscape lenient cs = .ok (u, rest)) (fuel : Nat) (seen : List Char) :
    stringFrom lenient (fuel + 1) seen ('\\' :: 'u' :: cs) =
      stringFrom lenient fuel (u :: seen) rest := by
  simp [stringFrom, read]

theorem unescape?_of_letter {c e : Char} (listed : (c, e) ∈ letters) :
    unescape? e = some c ∧ e ≠ 'u' := by
  have each : ∀ pair ∈ letters, unescape? pair.2 = some pair.1 ∧ pair.2 ≠ 'u' := by decide
  exact each (c, e) listed

/-- A written character is read as itself; a lenient reader may take it for two. -/
theorem stringFrom_char (lenient : Bool) {c : Char} {text : List Char} (writes : CharText c text) :
    ∃ n cs, n ≤ text.length ∧ (lenient = false → cs = [c]) ∧ ∀ fuel seen rest,
      stringFrom lenient (fuel + n) seen (text ++ rest) = stringFrom lenient fuel (cs ++ seen) rest := by
  cases writes with
  | plain quote backslash visible =>
    refine ⟨1, [c], by simp, fun _ => rfl, fun fuel seen rest => ?_⟩
    simp [stringFrom, quote, backslash, Nat.not_lt.mpr visible]
  | letter listed =>
    obtain ⟨read, other⟩ := unescape?_of_letter listed
    refine ⟨1, [c], by simp, fun _ => rfl, fun fuel seen rest => ?_⟩
    simp [stringFrom, read, other]
  | unit digits =>
    refine ⟨1, [c], by simp, fun _ => rfl, fun fuel seen rest => ?_⟩
    exact stringFrom_unicode (unicodeEscape_unit lenient digits rest) fuel seen
  | @pair ds es wide high low =>
    cases lenient with
    | false =>
      refine ⟨1, [c], by simp, fun _ => rfl, fun fuel seen rest => ?_⟩
      have read := unicodeEscape_pair wide high low rest
      rw [List.cons_append, List.cons_append, List.append_assoc, List.cons_append, List.cons_append]
      exact stringFrom_unicode read fuel seen
    | true =>
      obtain ⟨u, first⟩ := unicodeEscape_lenient high
      obtain ⟨v, second⟩ := unicodeEscape_lenient low
      refine ⟨2, [v, u], by simp, nofun, fun fuel seen rest => ?_⟩
      rw [List.cons_append, List.cons_append, List.append_assoc, List.cons_append, List.cons_append]
      exact (stringFrom_unicode (first _) (fuel + 1) seen).trans
        (stringFrom_unicode (second rest) fuel (u :: seen))

theorem stringFrom_parts (lenient : Bool) {cs : List Char} {parts : List (List Char)}
    (each : List.Forall₂ CharText cs parts) :
    ∃ read, (lenient = false → read = cs) ∧ ∀ fuel seen rest, parts.flatten.length < fuel →
      stringFrom lenient fuel seen (parts.flatten ++ '"' :: rest) =
        .ok (String.ofList (seen.reverse ++ read), rest) := by
  -- a reader never spends more fuel on a character than its text is long
  induction each with
  | nil =>
    refine ⟨[], fun _ => rfl, fun fuel seen rest enough => ?_⟩
    obtain ⟨fuel, rfl⟩ : ∃ n, fuel = n + 1 := ⟨fuel - 1, by omega⟩
    simp [stringFrom]
  | @cons c text cs parts here later ih =>
    obtain ⟨n, chars, short, exactly, step⟩ := stringFrom_char lenient here
    obtain ⟨read, same, steps⟩ := ih
    refine ⟨chars.reverse ++ read, ?_, fun fuel seen rest enough => ?_⟩
    · intro strict
      rw [exactly strict, same strict]
      rfl
    · rw [List.flatten_cons, List.length_append] at enough
      obtain ⟨fuel, rfl⟩ : ∃ m, fuel = m + n := ⟨fuel - n, by omega⟩
      rw [List.flatten_cons, List.append_assoc, step, steps fuel _ rest (by omega)]
      simp

theorem string_reads (lenient : Bool) {s : String} {text : List Char} (quoted : Quoted s text) :
    ∃ body read, text = '"' :: body ∧ (lenient = false → read = s) ∧ ∀ size rest,
      body.length ≤ size → string size lenient (body ++ rest) = .ok (read, rest) := by
  obtain ⟨parts, each, rfl⟩ := quoted
  obtain ⟨read, same, reads⟩ := stringFrom_parts lenient each
  refine ⟨_, String.ofList read, rfl, fun strict => ?_, fun size rest enough => ?_⟩
  · rw [same strict, String.ofList_toList]
  · rw [List.length_append, List.length_singleton] at enough
    rw [string, List.append_assoc, List.singleton_append, reads size [] rest (by omega)]
    simp

def Stops (rest : List Char) : Prop :=
  ∀ c ∈ rest.head?, isDigit c = false ∧ c ≠ '.' ∧ c ≠ 'e' ∧ c ≠ 'E'

theorem isDigit_of_mem_toDigits {n : Nat} {c : Char} (here : c ∈ Nat.toDigits 10 n) :
    isDigit c = true :=
  Nat.isDigit_of_mem_toDigits (by decide) (by decide) here

theorem digit?_of_isDigit {c : Char} (digit : isDigit c = true) :
    Text.digit? c = some (c.toNat - '0'.toNat) := by
  simp only [isDigit, Bool.and_eq_true, decide_eq_true_eq] at digit
  exact if_pos digit

theorem foldlM_digits {ds : List Char} (all : ∀ c ∈ ds, isDigit c = true) (init : Nat) :
    ds.foldlM (fun n c => (Text.digit? c).map (10 * n + ·)) init =
      some (Nat.ofDigitChars 10 ds init) := by
  induction ds generalizing init with
  | nil => rfl
  | cons c ds ih =>
    rw [List.foldlM_cons, digit?_of_isDigit (all c List.mem_cons_self), Nat.ofDigitChars_cons]
    exact ih (fun d here => all d (List.mem_cons_of_mem _ here)) _

theorem digitsValue_toDigits (n : Nat) : digitsValue (Nat.toDigits 10 n) = n := by
  have read := foldlM_digits (fun c => isDigit_of_mem_toDigits (n := n) (c := c)) 0
  rw [Nat.ofDigitChars_ten_toDigits] at read
  unfold digitsValue Text.decimal? Text.numeral?
  split
  · next none => exact absurd none Nat.toDigits_ne_nil
  · rw [read]
    rfl

theorem head?_toDigits {n : Nat} (zero : (Nat.toDigits 10 n).head? = some '0') : n = 0 := by
  induction n using Nat.strongRecOn with
  | ind n ih =>
    rw [Nat.toDigits_eq_if (by decide)] at zero
    split at zero
    · exact Nat.digitChar_eq_zero.mp (Option.some.inj zero)
    · have higher : (Nat.toDigits 10 (n / 10)).head? = some '0' := by
        rw [List.head?_append, List.head?_eq_some_head Nat.toDigits_ne_nil, Option.some_or] at zero
        rw [List.head?_eq_some_head Nat.toDigits_ne_nil, zero]
      have := ih (n / 10) (by omega) higher
      omega

theorem digits_append {ds rest : List Char} (lenient : Bool) (some_digit : ds ≠ [])
    (all : ∀ c ∈ ds, isDigit c = true) (stops : Stops rest) :
    digits lenient (ds ++ rest) = .ok (ds, rest) := by
  have run : rest.takeWhile isDigit = [] := by
    cases rest with
    | nil => rfl
    | cons c rest => simp [(stops c rfl).1]
  have left : rest.dropWhile isDigit = rest := by
    cases rest with
    | nil => rfl
    | cons c rest => simp [(stops c rfl).1]
  unfold digits
  simp only [List.takeWhile_append_of_pos all, List.dropWhile_append_of_pos all, run, left]
  simp [some_digit]

theorem fractionPart_of_stops {rest : List Char} (lenient : Bool) (stops : Stops rest) :
    fractionPart lenient rest = .ok (none, rest) := by
  unfold fractionPart
  split
  · next cs => exact absurd rfl (stops '.' rfl).2.1
  · rfl

theorem exponentPart_of_stops {rest : List Char} (lenient : Bool) (stops : Stops rest) :
    exponentPart lenient rest = .ok (none, rest) := by
  unfold exponentPart
  split
  · next c cs =>
    have plain := stops c rfl
    simp [plain.2.2.1, plain.2.2.2]
  · rfl

theorem wholePart_toDigits (lenient : Bool) (n : Nat) {rest : List Char} (stops : Stops rest) :
    wholePart lenient (Nat.toDigits 10 n ++ rest) = .ok (Nat.toDigits 10 n, rest) := by
  have run := digits_append lenient Nat.toDigits_ne_nil (fun c => isDigit_of_mem_toDigits (n := n))
    stops
  have alone : ¬ ((Nat.toDigits 10 n).head? = some '0' ∧ (Nat.toDigits 10 n).length ≠ 1) := by
    rintro ⟨zero, long⟩
    rw [head?_toDigits zero] at long
    exact long rfl
  simp only [wholePart, run, bind, Except.bind, pure, Except.pure]
  rw [if_neg alone]

theorem numeral_toDigits (lenient negative : Bool) (n : Nat) {rest : List Char}
    (stops : Stops rest) :
    numeral lenient ((if negative then ['-'] else []) ++ Nat.toDigits 10 n ++ rest) =
      .ok (⟨negative, Nat.toDigits 10 n, none, none⟩, rest) := by
  have whole := wholePart_toDigits lenient n stops
  have fraction := fractionPart_of_stops lenient stops
  have exponent := exponentPart_of_stops lenient stops
  cases negative with
  | true => simp [numeral, whole, fraction, exponent, bind, Except.bind, pure, Except.pure]
  | false =>
    cases run : Nat.toDigits 10 n with
    | nil => exact absurd run Nat.toDigits_ne_nil
    | cons c cs =>
      have digit : isDigit c = true := isDigit_of_mem_toDigits (run ▸ List.mem_cons_self)
      have plain : c ≠ '-' := by
        intro sign
        rw [sign] at digit
        exact absurd digit (by decide)
      rw [run] at whole
      simp only [List.cons_append] at whole
      simp [numeral, plain, whole, fraction, exponent, bind, Except.bind, pure, Except.pure]

theorem tooLarge_of_digits (negative : Bool) {n : Nat} (small : n < 0x10000000000000000) :
    Numeral.tooLarge ⟨negative, Nat.toDigits 10 n, none, none⟩ = false := by
  -- the number of digits alone keeps it far below the range of a double
  have short : (Nat.toDigits 10 n).length ≤ 20 :=
    (Nat.length_toDigits_le_iff (by decide) (by decide)).mpr (by omega)
  have value : Numeral.significand ⟨negative, Nat.toDigits 10 n, none, none⟩ = n := by
    simp [Numeral.significand, digitsValue_toDigits]
  have scale : Numeral.scale ⟨negative, Nat.toDigits 10 n, none, none⟩ = 0 := rfl
  have length : (toString n).length = (Nat.toDigits 10 n).length := by
    rw [Nat.toString_eq_ofList_toDigits, String.length_ofList]
  unfold Numeral.tooLarge
  simp only [value, scale, length]
  rw [if_pos]
  simp
  omega

theorem numberChars_int (n : Int) :
    numberChars (.int n) = (if decide (n < 0) then ['-'] else []) ++ Nat.toDigits 10 n.natAbs := by
  rw [numberChars, Int.toString_eq_repr, Int.repr_eq_if]
  by_cases negative : n < 0
  · have magnitude : (-n).toNat = n.natAbs := by omega
    rw [if_neg (by omega), magnitude, String.toList_append, Nat.toList_repr]
    simp [negative]
  · have magnitude : n.toNat = n.natAbs := by omega
    rw [if_pos (by omega), magnitude, Nat.toList_repr]
    simp [negative]

def Leads (c : Char) : Prop := c = '-' ∨ isDigit c = true

theorem Leads.apart {c d : Char} (leads : Leads c) (sign : d ≠ '-') (other : isDigit d = false) :
    c ≠ d := by
  rintro rfl
  rcases leads with same | digit
  · exact sign same
  · rw [other] at digit
    cases digit

theorem Leads.dark {c : Char} (leads : Leads c) : isBlank c = false := by
  cases blank : isBlank c with
  | false => rfl
  | true =>
    simp only [isBlank, Bool.or_eq_true, decide_eq_true_eq] at blank
    rcases blank with ((blank | blank) | blank) | blank <;>
      exact absurd blank (leads.apart (by decide) (by decide))

theorem numberChars_begins (n : Int) :
    ∃ c cs, numberChars (.int n) = c :: cs ∧ Leads c := by
  rw [numberChars_int]
  cases negative : decide (n < 0) with
  | true => exact ⟨'-', _, rfl, .inl rfl⟩
  | false =>
    cases run : Nat.toDigits 10 n.natAbs with
    | nil => exact absurd run Nat.toDigits_ne_nil
    | cons c cs => exact ⟨c, cs, rfl, .inr (isDigit_of_mem_toDigits (run ▸ List.mem_cons_self))⟩

theorem number_reads (lenient : Bool) {n : Int} (low : -0x8000000000000000 ≤ n)
    (high : n < 0x10000000000000000) {rest : List Char} (stops : Stops rest) :
    number lenient (numberChars (.int n) ++ rest) = .ok (.int n, rest) := by
  have small : n.natAbs < 0x10000000000000000 := by omega
  have read := numeral_toDigits lenient (decide (n < 0)) n.natAbs stops
  have range := tooLarge_of_digits (decide (n < 0)) small
  have value : Numeral.int? ⟨decide (n < 0), Nat.toDigits 10 n.natAbs, none, none⟩ = some n := by
    simp only [Numeral.int?, digitsValue_toDigits, decide_eq_true_eq]
    by_cases negative : n < 0
    · rw [if_pos negative, if_neg (by omega), Option.some.injEq]
      omega
    · rw [if_neg negative, if_pos small, Option.some.injEq]
      omega
  rw [numberChars_int]
  simp only [number, read, bind, Except.bind, range, value, pure, Except.pure, Bool.false_and,
    Bool.false_eq_true, if_false]

end SlotVM.Json.Reader
