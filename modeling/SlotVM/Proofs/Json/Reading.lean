import SlotVM.Proofs.Json.Scanning
import Mathlib.Data.List.Forall2

namespace SlotVM.Json

open Reader (Blank Stops)

theorem Writes.begins {j : Json} {text : List Char} (writes : Writes j text) :
    ∃ c cs, text = c :: cs ∧ Reader.isBlank c = false ∧ c ≠ ']' := by
  cases writes with
  | null | yes | no => exact ⟨_, _, rfl, by decide, by decide⟩
  | int n =>
    obtain ⟨c, cs, text, leads⟩ := Reader.numberChars_begins n
    exact ⟨c, cs, text, leads.dark, leads.apart (by decide) (by decide)⟩
  | string quoted =>
    obtain ⟨parts, -, text⟩ := quoted
    exact ⟨_, _, text, by decide, by decide⟩
  | array inside | object inside => exact ⟨_, _, rfl, by decide, by decide⟩

theorem Reader.Stops.cons {c : Char} (plain : isDigit c = false ∧ c ≠ '.' ∧ c ≠ 'e' ∧ c ≠ 'E')
    (rest : List Char) : Stops (c :: rest) := by
  intro d first
  cases first
  exact plain

theorem Reader.Stops.append {before rest : List Char} (blank : Blank before) (stops : Stops rest) :
    Stops (before ++ rest) := by
  cases before with
  | nil => exact stops
  | cons b before =>
    have dark := blank b List.mem_cons_self
    simp only [isBlank, Bool.or_eq_true, decide_eq_true_eq] at dark
    apply Stops.cons
    rcases dark with ((rfl | rfl) | rfl) | rfl <;> decide

section
variable {α : Type} {part : α → List Char → Prop} {close : Char} {as : List α} {text : List Char}

theorem Further.length_lt (further : Further part close as text) : as.length < text.length := by
  induction further with
  | nil => simp
  | cons _ _ _ _ ih =>
    simp only [List.length_append, List.length_cons]
    omega

theorem Further.stops (further : Further part close as text)
    (closing : Reader.isDigit close = false ∧ close ≠ '.' ∧ close ≠ 'e' ∧ close ≠ 'E')
    (rest : List Char) : Stops (text ++ rest) := by
  cases further with
  | nil blank =>
    rw [List.append_assoc]
    exact .append blank (.cons closing rest)
  | cons before_blank =>
    rw [List.append_assoc]
    exact .append before_blank (.cons (by decide) _)

end

namespace Reader

section
variable {α : Type} {size : Nat}

/-- The reader takes exactly the text, and blanks before it, whatever follows. The characters left are
fewer than `size`. -/
def Reads (size : Nat) (reader : Reader α) (text : List Char) (a : α) : Prop :=
  ∀ before rest, Blank before → Stops rest → (before ++ text ++ rest).length < size →
    reader (before ++ text ++ rest) = .ok (a, rest)

def Understands (size : Nat) (reader : Reader α) (j : Json) (a : α) : Prop :=
  ∀ text, Writes j text → Reads size reader text a

theorem Reads.bare {reader : Reader α} {text rest : List Char} {a : α}
    (reads : Reads size reader text a) (stops : Stops rest)
    (room : (text ++ rest).length < size) : reader (text ++ rest) = .ok (a, rest) :=
  reads [] rest blank_nil stops room

theorem itemsAfter_reads {item : Reader α} {js : List Json} {as : List α} {text : List Char}
    (each : List.Forall₂ (Understands size item) js as) (further : Further Writes ']' js text)
    (rest : List Char) {fuel : Nat} (enough : js.length < fuel)
    (room : (text ++ rest).length < size) : itemsAfter item fuel (text ++ rest) = .ok (as, rest) := by
  obtain ⟨fuel, rfl⟩ : ∃ n, fuel = n + 1 := ⟨fuel - 1, by omega⟩
  induction further generalizing as fuel with
  | nil blank =>
    cases each
    rw [List.append_assoc, List.singleton_append, itemsAfter, skipBlanks_append blank,
      skipBlanks_cons (by decide)]
    rfl
  | @cons j js before after text more before_blank after_blank here later ih =>
    obtain ⟨fuel, rfl⟩ : ∃ n, fuel = n + 1 := ⟨fuel - 1, by simp at enough; omega⟩
    cases each with
    | cons first each =>
      simp only [List.append_assoc, List.cons_append, List.length_append, List.length_cons]
        at room ⊢
      have read := (first text here).bare (later.stops (by decide) rest) (by simp; omega)
      have reads := ih each (by simp; omega) fuel (by simpa using enough)
      obtain ⟨c, cs, rfl, dark, inside⟩ := here.begins
      rw [itemsAfter, skipBlanks_append before_blank, skipBlanks_cons (by decide)]
      simp only [skipBlanks_append after_blank]
      simp only [List.cons_append] at read ⊢
      simp only [skipBlanks_cons dark]
      -- no document begins with the bracket that would end the array
      split
      · next none => cases none
      · next bracket => exact absurd (List.cons.inj bracket).1 inside
      · simp only [read, reads, bind, Except.bind, pure, Except.pure]

theorem items_reads {item : Reader α} {js : List Json} {as : List α} {text : List Char}
    (each : List.Forall₂ (Understands size item) js as) (inside : Enclosed Writes ']' js text) :
    Reads size (items size item) text as := by
  intro before rest empty stops room
  rw [List.append_assoc, items, skipBlanks_append empty]
  cases inside with
  | nil blank =>
    cases each
    rw [List.append_assoc, List.singleton_append, skipBlanks_append blank, skipBlanks_cons (by decide)]
    rfl
  | @cons j js blanks text more blank here later =>
    cases each with
    | cons first each =>
      simp only [List.append_assoc, List.length_append] at room ⊢
      have few := later.length_lt
      have read := (first text here).bare (later.stops (by decide) rest) (by simp; omega)
      have reads : itemsAfter item size _ = .ok (_, rest) :=
        itemsAfter_reads each later rest (by omega) (by simp; omega)
      obtain ⟨c, cs, rfl, dark, inside⟩ := here.begins
      rw [skipBlanks_append blank]
      simp only [List.cons_append] at read ⊢
      rw [skipBlanks_cons dark]
      split
      · next none => cases none
      · next bracket => exact absurd (List.cons.inj bracket).1 inside
      · simp only [read, reads, bind, Except.bind, pure, Except.pure]

def Valued (j : Json) (text : List Char) : Prop :=
  ∃ before after inner, Blank before ∧ Blank after ∧ Writes j inner ∧
    text = before ++ ':' :: (after ++ inner)

/-- What the step makes of the members, one after another. -/
inductive Steps {σ : Type} (size : Nat) (step : σ → String → Reader σ) :
    σ → List (String × Json) → σ → Prop where
  | nil {s : σ} : Steps size step s [] s
  | cons {s s' s'' : σ} {name : String} {value : Json} {members : List (String × Json)}
      (here : ∀ text, Valued value text → Reads size (step s name) text s')
      (rest : Steps size step s' members s'') : Steps size step s ((name, value) :: members) s''

theorem steps_gather {σ : Type} {step : σ → String → Reader σ} (next : List (String × Json) → σ)
    {members : List (String × Json)}
    (each : ∀ member ∈ members, ∀ seen text, Valued member.2 text →
      Reads size (step (next seen) member.1) text (next (member :: seen)))
    (seen : List (String × Json)) :
    Steps size step (next seen) members (next (members.reverse ++ seen)) := by
  induction members generalizing seen with
  | nil => exact .nil
  | cons member members ih =>
    rw [List.reverse_cons, List.append_assoc, List.singleton_append]
    exact .cons (each member List.mem_cons_self seen)
      (ih (fun m later => each m (List.mem_cons_of_mem _ later)) (member :: seen))

theorem Steps.append {σ : Type} {step : σ → String → Reader σ} {s s' s'' : σ}
    {before after : List (String × Json)} (first : Steps size step s before s')
    (second : Steps size step s' after s'') : Steps size step s (before ++ after) s'' := by
  induction first with
  | nil => exact second
  | cons here _ ih => exact .cons here (ih second)

theorem membersFrom_member {σ : Type} {step : σ → String → Reader σ} {s s' : σ} {name : String}
    {quoted text tail : List Char} (named : Quoted name quoted)
    (here : Reads size (step s name) text s') (stops : Stops tail)
    (room : (quoted ++ (text ++ tail)).length < size) (fuel : Nat) :
    membersFrom size false step (fuel + 1) s (quoted ++ (text ++ tail)) =
      match skipBlanks tail with
      | [] => .error .ended
      | '\x7d' :: rest => .ok (s', rest)
      | ',' :: rest =>
        match skipBlanks rest with
        | [] => .error .ended
        | rest => membersFrom size false step fuel s' rest
      | _ => .error .grammar := by
  obtain ⟨body, _, rfl, same, reads⟩ := string_reads false named
  rw [same rfl] at reads
  simp only [List.cons_append, List.length_cons, List.length_append] at room ⊢
  have read := here.bare stops (by simp only [List.length_append]; omega)
  rw [membersFrom]
  show (string size false _ >>= _) = _
  rw [reads size _ (by omega)]
  show (step s name (text ++ tail) >>= _) = _
  rw [read]
  rfl

theorem split_member {name : String} {j : Json} {text : List Char}
    (member : MemberText Writes (name, j) text) :
    ∃ body valued, text = '"' :: body ++ valued ∧ Quoted name ('"' :: body) ∧ Valued j valued := by
  cases member with
  | mk named before_blank after_blank here =>
    obtain ⟨body, -, rfl, -, -⟩ := string_reads false named
    exact ⟨body, _, rfl, named, _, _, _, before_blank, after_blank, here, rfl⟩

theorem membersFrom_reads {σ : Type} {step : σ → String → Reader σ} {s s' : σ}
    {member : String × Json} {members : List (String × Json)} {text more : List Char}
    (steps : Steps size step s (member :: members) s') (here : MemberText Writes member text)
    (further : Further (MemberText Writes) '\x7d' members more) (rest : List Char) {fuel : Nat}
    (enough : members.length < fuel) (room : (text ++ (more ++ rest)).length < size) :
    membersFrom size false step fuel s (text ++ (more ++ rest)) = .ok (s', rest) := by
  obtain ⟨fuel, rfl⟩ : ∃ n, fuel = n + 1 := ⟨fuel - 1, by omega⟩
  induction further generalizing s member text fuel with
  | nil blank =>
    cases steps with
    | cons first steps =>
      cases steps
      obtain ⟨body, valued, rfl, named, value⟩ := split_member here
      have closed : Further (MemberText Writes) '\x7d' [] _ := .nil blank
      have stops := closed.stops (by decide) rest
      rw [List.append_assoc] at room ⊢
      rw [membersFrom_member named (first valued value) stops room, List.append_assoc,
        skipBlanks_append blank, List.singleton_append, skipBlanks_cons (by decide)]
      rfl
  | @cons member members before after text more before_blank after_blank next later ih =>
    obtain ⟨fuel, rfl⟩ : ∃ n, fuel = n + 1 := ⟨fuel - 1, by simp at enough; omega⟩
    cases steps with
    | cons first steps =>
      obtain ⟨body, valued, rfl, named, value⟩ := split_member here
      have stops := (Further.cons before_blank after_blank next later).stops (by decide) rest
      rw [List.append_assoc] at room ⊢
      rw [membersFrom_member named (first valued value) stops room]
      simp only [List.append_assoc, List.cons_append, List.length_append, List.length_cons] at room
      have reads := ih steps next (by simp only [List.length_append]; omega) fuel
        (by simpa using enough)
      obtain ⟨body, valued, rfl, -, -⟩ := split_member next
      rw [List.append_assoc, skipBlanks_append before_blank, List.cons_append,
        skipBlanks_cons (by decide)]
      simp only [List.append_assoc, skipBlanks_append after_blank]
      simp only [List.cons_append, List.append_assoc] at reads ⊢
      rw [skipBlanks_cons (by decide)]
      exact reads

theorem members_reads {σ : Type} {step : σ → String → Reader σ} {s s' : σ}
    {members : List (String × Json)} {text : List Char} (steps : Steps size step s members s')
    (inside : Enclosed (MemberText Writes) '\x7d' members text) :
    Reads size (Reader.members size false step s) text s' := by
  intro before rest empty stops room
  rw [List.append_assoc, Reader.members, skipBlanks_append empty]
  cases inside with
  | nil blank =>
    cases steps
    rw [List.append_assoc, skipBlanks_append blank, List.singleton_append, skipBlanks_cons (by decide)]
    rfl
  | @cons member members blanks text more blank here later =>
    have few := later.length_lt
    simp only [List.append_assoc, List.length_append] at room ⊢
    have read : membersFrom size false step size s _ = .ok (s', rest) :=
      membersFrom_reads steps here later rest (by omega) (by simp only [List.length_append]; omega)
    obtain ⟨body, valued, rfl, -, -⟩ := split_member here
    rw [skipBlanks_append blank]
    simp only [List.cons_append, List.append_assoc] at read ⊢
    rw [skipBlanks_cons (by decide)]
    exact read

def afterColon {β : Type} (reader : Reader α) (next : α → β) : Reader β := fun cs => do
  let (a, rest) ← reader (← colon cs)
  return (next a, rest)

theorem afterColon_reads {β : Type} {reader : Reader α} (next : α → β) {j : Json} {a : α}
    (understood : Understands size reader j a) {text : List Char} (valued : Valued j text) :
    Reads size (afterColon reader next) text (next a) := by
  intro before rest empty stops room
  obtain ⟨left, right, inner, left_blank, right_blank, writes, rfl⟩ := valued
  simp only [List.append_assoc, List.cons_append, List.length_append, List.length_cons] at room ⊢
  have marked : colon (before ++ (left ++ ':' :: (right ++ (inner ++ rest)))) =
      .ok (right ++ (inner ++ rest)) := by
    rw [colon, skipBlanks_append empty, skipBlanks_append left_blank, skipBlanks_cons (by decide)]
    rfl
  have value := understood inner writes right rest right_blank stops (by
    simp only [List.append_assoc, List.length_append]
    omega)
  rw [List.append_assoc] at value
  simp only [afterColon, marked, value, bind, Except.bind, pure, Except.pure]

/-- The first character of a text decides what reads the others. -/
theorem reads_of_opens {β : Type} {reader : Reader α} (inner : Reader β) {text : List Char} {a : α}
    {b : β} {c : Char}
    (inside : ∀ rest, Stops rest → (text ++ rest).length < size →
      inner (text ++ rest) = .ok (b, rest))
    (opens : ∀ before cs rest, Blank before → inner cs = .ok (b, rest) →
      reader (before ++ c :: cs) = .ok (a, rest)) : Reads size reader (c :: text) a := by
  intro before rest empty stops room
  rw [List.append_assoc, List.cons_append] at room ⊢
  apply opens before _ _ empty
  apply inside rest stops
  rw [List.length_append, List.length_cons] at room
  omega

theorem understands_int {reader : Reader α} {a : α} {n : Int} (lenient : Bool)
    (low : -0x8000000000000000 ≤ n) (high : n < 0x10000000000000000)
    (opens : ∀ c before cs rest, Leads c → Blank before →
      number lenient (c :: cs) = .ok (.int n, rest) → reader (before ++ c :: cs) = .ok (a, rest)) :
    Understands size reader (.number (.int n)) a := by
  intro text writes
  cases writes
  obtain ⟨c, cs, text, leads⟩ := numberChars_begins n
  change (toString n).toList = c :: cs at text
  rw [text]
  apply reads_of_opens (fun cs => number lenient (c :: cs))
  · intro rest stops room
    rw [← List.cons_append, ← text]
    exact number_reads lenient low high stops
  · exact fun before cs rest => opens c before cs rest leads

theorem understands_string {reader : Reader α} {a : α} {s : String}
    (opens : ∀ before cs rest, Blank before → string size false cs = .ok (s, rest) →
      reader (before ++ '"' :: cs) = .ok (a, rest)) :
    Understands size reader (.string s) a := by
  intro text writes
  cases writes with
  | string quoted =>
    obtain ⟨body, _, rfl, same, reads⟩ := string_reads false quoted
    rw [same rfl] at reads
    apply reads_of_opens (string size false) _ opens
    intro rest stops room
    apply reads
    rw [List.length_append] at room
    omega

theorem understands_array {β : Type} {reader : Reader β} {item : Reader α} {js : List Json}
    {as : List α} {b : β} (each : List.Forall₂ (Understands size item) js as)
    (opens : ∀ before cs rest, Blank before → items size item cs = .ok (as, rest) →
      reader (before ++ '[' :: cs) = .ok (b, rest)) :
    Understands size reader (.array js) b := by
  intro text writes
  cases writes with
  | array inside => exact reads_of_opens _ (fun rest => (items_reads each inside).bare) opens

theorem understands_object {σ : Type} {reader : Reader α} {step : σ → String → Reader σ} {s s' : σ}
    {members : List (String × Json)} {a : α} (steps : Steps size step s members s')
    (opens : ∀ before cs rest, Blank before →
      Reader.members size false step s cs = .ok (s', rest) →
      reader (before ++ '\x7b' :: cs) = .ok (a, rest)) :
    Understands size reader (.object members) a := by
  intro text writes
  cases writes with
  | object inside => exact reads_of_opens _ (fun rest => (members_reads steps inside).bare) opens

theorem value_of_number (size levels : Nat) (lenient : Bool) {c : Char} (leads : Leads c)
    {cs rest : List Char} {n : Number} (read : number lenient (c :: cs) = .ok (n, rest)) :
    value size lenient levels (c :: cs) = .ok (.number n, rest) := by
  have first : (decide (c = '-') || isDigit c) = true := by
    simpa [Leads] using leads
  rw [value.eq_def, skipBlanks_cons leads.dark]
  split <;> rename_i same
  · cases same
  iterate 6 exact absurd (List.cons.inj same).1 (leads.apart (by decide) (by decide))
  · cases same
    simp only [first, if_true, read, bind, Except.bind, pure, Except.pure]

section
variable (size levels : Nat) (lenient : Bool)

theorem value_null : Understands size (value size lenient levels) .null .null := by
  intro text writes before rest empty stops room
  cases writes
  rw [List.append_assoc, value.eq_def, skipBlanks_append empty]
  rfl

theorem value_bool (b : Bool) : Understands size (value size lenient levels) (.bool b) (.bool b) := by
  intro text writes before rest empty stops room
  cases writes <;> rw [List.append_assoc, value.eq_def, skipBlanks_append empty] <;> rfl

theorem value_int {n : Int} (low : -0x8000000000000000 ≤ n) (high : n < 0x10000000000000000) :
    Understands size (value size lenient levels) (.number (.int n)) (.number (.int n)) := by
  apply understands_int lenient low high
  intro c before cs rest leads empty read
  rw [value.eq_def, skipBlanks_append empty, ← value.eq_def]
  exact value_of_number size levels lenient leads read

end

theorem value_understands (size : Nat) {levels : Nat} {j : Json} (fits : Fits levels j) :
    Understands size (value size false levels) j j := by
  induction fits with
  | null => exact value_null size _ false
  | bool => exact value_bool size _ false _
  | int low high => exact value_int size _ false low high
  | string =>
    apply understands_string
    intro before cs rest empty read
    rw [value.eq_def, skipBlanks_append empty, skipBlanks_cons (by decide)]
    simp only [read, bind, Except.bind, pure, Except.pure]
  | array each ih =>
    apply understands_array (List.forall₂_same.mpr ih)
    intro before cs rest empty read
    rw [value.eq_def, skipBlanks_append empty, skipBlanks_cons (by decide)]
    simp only [read, bind, Except.bind, pure, Except.pure]
  | @object levels members each ih =>
    have steps : Steps size
        (fun seen name => afterColon (value size false levels) fun v => (name, v) :: seen)
        [] members (members.reverse ++ []) :=
      steps_gather id (fun member here seen text valued =>
        afterColon_reads (fun v => (member.1, v) :: seen) (ih member here) valued) []
    apply understands_object steps
    intro before cs rest empty read
    rw [value.eq_def, skipBlanks_append empty, skipBlanks_cons (by decide)]
    refine bind_eq_ok.mpr ⟨_, read, ?_⟩
    simp [pure, Except.pure]

def passOver (size : Nat) : Reader Unit := fun cs => do return ((), ← skip size cs)

theorem passOver_of_value {size : Nat} {j v : Json}
    (understood : Understands size (value size true size) j v) : Understands size (passOver size) j () := by
  intro text writes before rest empty stops room
  have read := understood text writes before rest empty stops room
  simp only [passOver, skip, read, bind, Except.bind, pure, Except.pure]

theorem passOver_string (size : Nat) (s : String) : Understands size (passOver size) (.string s) () := by
  intro text writes
  cases writes with
  | string quoted =>
    obtain ⟨body, found, rfl, -, reads⟩ := string_reads true quoted
    apply reads_of_opens (string size true)
    · intro rest stops room
      apply reads
      rw [List.length_append] at room
      omega
    · intro before cs rest empty read
      have passed : value size true size (before ++ '"' :: cs) = .ok (.string found, rest) := by
        rw [value.eq_def, skipBlanks_append empty, skipBlanks_cons (by decide)]
        simp only [read, bind, Except.bind, pure, Except.pure]
      simp only [passOver, skip, passed, bind, Except.bind, pure, Except.pure]

theorem whole_blanks {document : Nat → Reader α} {before text after : List Char} {s : String} {a : α}
    (reads : ∀ size, Reads size (document size) text a) (before_blank : Blank before)
    (after_blank : Blank after) (split : s.toList = before ++ text ++ after) :
    whole document s = .ok a := by
  have last : Stops [] := nofun
  have stops : Stops after := by
    rw [← List.append_nil after]
    exact .append after_blank last
  have left : skipBlanks after = [] := by
    rw [← List.append_nil after, skipBlanks_append after_blank]
    rfl
  have read := reads _ before after before_blank stops (Nat.lt_succ_self _)
  simp only [whole, split, read, left, bind, Except.bind, pure, Except.pure]
  rfl

theorem whole_reads {document : Nat → Reader α} {text : List Char} {a : α}
    (reads : ∀ size, Reads size (document size) text a) :
    whole document (String.ofList text) = .ok a :=
  whole_blanks reads blank_nil blank_nil (by simp)

end
end Reader
end SlotVM.Json
