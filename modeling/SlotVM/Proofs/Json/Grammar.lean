import SlotVM.Json.Printer
import SlotVM.Json.Scanner
import Mathlib.Data.List.Forall2

namespace SlotVM.Json

def Reader.Blank (cs : List Char) : Prop := ∀ c ∈ cs, Reader.isBlank c = true

open Reader (Blank)

def HexDigit (c : Char) (n : Nat) : Prop :=
  n < 16 ∧ (c = Nat.digitChar n ∨ c = (Nat.digitChar n).toUpper)

inductive HexUnit (n : Nat) : List Char → Prop where
  | digits {a b c d : Char} {i j k l : Nat} (first : HexDigit a i) (second : HexDigit b j)
      (third : HexDigit c k) (fourth : HexDigit d l)
      (value : n = ((i * 16 + j) * 16 + k) * 16 + l) : HexUnit n [a, b, c, d]

def letters : List (Char × Char) :=
  [('"', '"'), ('\\', '\\'), ('/', '/'), ('\x08', 'b'), ('\x0c', 'f'), ('\n', 'n'), ('\r', 'r'),
    ('\t', 't')]

inductive CharText (c : Char) : List Char → Prop where
  | plain (quote : c ≠ '"') (backslash : c ≠ '\\') (visible : 32 ≤ c.toNat) : CharText c [c]
  | letter {e : Char} (listed : (c, e) ∈ letters) : CharText c ['\\', e]
  | unit {ds : List Char} (digits : HexUnit c.toNat ds) : CharText c ('\\' :: 'u' :: ds)
  | pair {ds es : List Char} (wide : 0x10000 ≤ c.toNat)
      (high : HexUnit (0xD800 + (c.toNat - 0x10000) / 0x400) ds)
      (low : HexUnit (0xDC00 + (c.toNat - 0x10000) % 0x400) es) :
      CharText c ('\\' :: 'u' :: (ds ++ '\\' :: 'u' :: es))

def Quoted (s : String) (text : List Char) : Prop :=
  ∃ parts, List.Forall₂ CharText s.toList parts ∧ text = '"' :: (parts.flatten ++ ['"'])

section
variable {α : Type} (part : α → List Char → Prop) (close : Char)

inductive Further : List α → List Char → Prop where
  | nil {before : List Char} (blank : Blank before) : Further [] (before ++ [close])
  | cons {a : α} {as : List α} {before after text rest : List Char} (before_blank : Blank before)
      (after_blank : Blank after) (here : part a text) (later : Further as rest) :
      Further (a :: as) (before ++ ',' :: (after ++ (text ++ rest)))

inductive Enclosed : List α → List Char → Prop where
  | nil {before : List Char} (blank : Blank before) : Enclosed [] (before ++ [close])
  | cons {a : α} {as : List α} {before text rest : List Char} (blank : Blank before)
      (here : part a text) (later : Further part close as rest) :
      Enclosed (a :: as) (before ++ (text ++ rest))

end

inductive MemberText (value : Json → List Char → Prop) : String × Json → List Char → Prop where
  | mk {name : String} {j : Json} {quoted before after text : List Char} (named : Quoted name quoted)
      (before_blank : Blank before) (after_blank : Blank after) (here : value j text) :
      MemberText value (name, j) (quoted ++ (before ++ ':' :: (after ++ text)))

/-- The texts of a document, without blanks around it. -/
inductive Writes : Json → List Char → Prop where
  | null : Writes .null ['n', 'u', 'l', 'l']
  | yes : Writes (.bool true) ['t', 'r', 'u', 'e']
  | no : Writes (.bool false) ['f', 'a', 'l', 's', 'e']
  | int (n : Int) : Writes (.number (.int n)) (toString n).toList
  | string {s : String} {text : List Char} (quoted : Quoted s text) : Writes (.string s) text
  | array {items : List Json} {text : List Char} (inside : Enclosed Writes ']' items text) :
      Writes (.array items) ('[' :: text)
  | object {members : List (String × Json)} {text : List Char}
      (inside : Enclosed (MemberText Writes) '\x7d' members text) :
      Writes (.object members) ('\x7b' :: text)

def Document (j : Json) (s : String) : Prop :=
  ∃ before text after, Blank before ∧ Writes j text ∧ Blank after ∧
    s.toList = before ++ text ++ after

theorem hexDigit_digitChar {n : Nat} (small : n < 16) : HexDigit (Nat.digitChar n) n :=
  ⟨small, .inl rfl⟩

theorem charText_escape (c : Char) : CharText c (escape c) := by
  unfold escape
  split
  · next quote => exact .letter (by simp [quote, letters])
  split
  · next backslash => exact .letter (by simp [backslash, letters])
  split
  · next newline => exact .letter (by simp [newline, letters])
  split
  · next ret => exact .letter (by simp [ret, letters])
  split
  · next tab => exact .letter (by simp [tab, letters])
  split
  · next backspace => exact .letter (by simp [backspace, letters])
  split
  · next feed => exact .letter (by simp [feed, letters])
  split
  · next control =>
    have zero : HexDigit '0' 0 := hexDigit_digitChar (by decide)
    exact .unit (.digits zero zero (hexDigit_digitChar (by omega)) (hexDigit_digitChar (by omega))
      (by omega))
  · next quote backslash _ _ _ _ _ plain => exact .plain quote backslash (Nat.not_lt.mp plain)

theorem quoted_quote (s : String) : Quoted s (quote s) := by
  refine ⟨s.toList.map escape, ?_, ?_⟩
  · rw [List.forall₂_map_right_iff, List.forall₂_same]
    exact fun c _ => charText_escape c
  · rw [quote, List.flatMap_def]

structure Style.Blank (style : Style) : Prop where
  newline : ∀ depth, Reader.Blank (style.newline depth)
  colon : ∃ before after, style.colon = before ++ ':' :: after ∧ Reader.Blank before ∧
    Reader.Blank after

theorem blank_nil : Blank [] := nofun

theorem Style.compact_blank : Style.compact.Blank where
  newline _ := blank_nil
  colon := ⟨[], [], rfl, blank_nil, blank_nil⟩

theorem Style.pretty_blank : Style.pretty.Blank where
  newline depth := by
    intro c here
    rcases List.mem_cons.mp here with rfl | here
    · rfl
    · rw [(List.mem_replicate.mp here).2]
      rfl
  colon := ⟨[], [' '], rfl, blank_nil, by simp [Reader.Blank, Reader.isBlank]⟩

/-- All integers have 64 bits, and at most `levels` arrays and objects are nested. -/
inductive Fits : Nat → Json → Prop where
  | null {levels : Nat} : Fits levels .null
  | bool {levels : Nat} {b : Bool} : Fits levels (.bool b)
  | int {levels : Nat} {n : Int} (low : -0x8000000000000000 ≤ n) (high : n < 0x10000000000000000) :
      Fits levels (.number (.int n))
  | string {levels : Nat} {s : String} : Fits levels (.string s)
  | array {levels : Nat} {items : List Json} (each : ∀ j ∈ items, Fits levels j) :
      Fits (levels + 1) (.array items)
  | object {levels : Nat} {members : List (String × Json)}
      (each : ∀ member ∈ members, Fits levels member.2) : Fits (levels + 1) (.object members)

section
variable {style : Style} (blank : style.Blank)
include blank

theorem memberText_chars (name : String) {depth : Nat} {j : Json}
    (here : Writes j (chars style depth j)) :
    MemberText Writes (name, j) (quote name ++ (style.colon ++ chars style depth j)) := by
  obtain ⟨before, after, text, before_blank, after_blank⟩ := blank.colon
  rw [text, List.append_assoc, List.cons_append]
  exact .mk (quoted_quote name) before_blank after_blank here

theorem further_itemsChars {depth : Nat} {items : List Json}
    (each : ∀ j ∈ items, Writes j (chars style depth j)) {closing : List Char}
    (closed : Blank closing) :
    Further Writes ']' items (itemsChars style depth items ++ (closing ++ [']'])) := by
  induction items with
  | nil => exact .nil closed
  | cons item items ih =>
    obtain ⟨here, later⟩ := List.forall_mem_cons.mp each
    rw [itemsChars, List.cons_append, List.append_assoc, List.append_assoc]
    exact .cons blank_nil (blank.newline depth) here (ih later)

theorem further_membersChars {depth : Nat} {members : List (String × Json)}
    (each : ∀ member ∈ members, Writes member.2 (chars style depth member.2)) {closing : List Char}
    (closed : Blank closing) :
    Further (MemberText Writes) '\x7d' members
      (membersChars style depth members ++ (closing ++ ['\x7d'])) := by
  induction members with
  | nil => exact .nil closed
  | cons member members ih =>
    obtain ⟨here, later⟩ := List.forall_mem_cons.mp each
    have text : Further (MemberText Writes) '\x7d' (member :: members) _ :=
      .cons blank_nil (blank.newline depth) (memberText_chars blank member.1 here) (ih later)
    rw [membersChars]
    simp only [List.cons_append, List.nil_append, List.append_assoc] at text ⊢
    exact text

theorem writes_chars {levels : Nat} {j : Json} (fits : Fits levels j) (depth : Nat) :
    Writes j (chars style depth j) := by
  induction fits generalizing depth with
  | null =>
    rw [chars]
    exact .null
  | @bool _ b =>
    cases b <;> rw [chars]
    · exact .no
    · exact .yes
  | int low high =>
    rw [chars]
    exact .int _
  | string =>
    rw [chars]
    exact .string (quoted_quote _)
  | @array _ items each ih =>
    cases items with
    | nil =>
      rw [chars]
      exact .array (.nil blank_nil)
    | cons item items =>
      obtain ⟨here, later⟩ := List.forall_mem_cons.mp ih
      rw [chars]
      apply Writes.array
      simp only [List.append_assoc]
      exact .cons (blank.newline (depth + 1)) (here (depth + 1))
        (further_itemsChars blank (fun j there => later j there (depth + 1)) (blank.newline depth))
  | @object _ members each ih =>
    cases members with
    | nil =>
      rw [chars]
      exact .object (.nil blank_nil)
    | cons member members =>
      obtain ⟨here, later⟩ := List.forall_mem_cons.mp ih
      have text : Enclosed (MemberText Writes) '\x7d' (member :: members) _ :=
        .cons (blank.newline (depth + 1)) (memberText_chars blank member.1 (here (depth + 1)))
          (further_membersChars blank (fun m there => later m there (depth + 1))
            (blank.newline depth))
      rw [chars]
      apply Writes.object
      simp only [List.append_assoc] at text ⊢
      exact text

end
end SlotVM.Json
