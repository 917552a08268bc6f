import SlotVM.Program.Reader
import SlotVM.Proofs.Json.Reading
import SlotVM.Proofs.Pointwise
import SlotVM.Proofs.Program.Records

namespace SlotVM

open Json Json.Reader Record

theorem fits_ofIndex {levels : Nat} (n : UInt64) : Fits levels (.ofIndex n) := by
  have small := n.toNat_lt
  exact .int (by omega) (by omega)

theorem fits_ofCount {levels : Nat} (n : UInt32) : Fits levels (.ofCount n) := by
  have small := n.toNat_lt
  exact .int (by omega) (by omega)

theorem fits_ofLiteral {levels : Nat} (n : Int32) : Fits levels (.ofInt n.toInt) := by
  have low := n.le_toInt
  have high := n.toInt_lt
  exact .int (by omega) (by omega)

theorem fits_indices {levels : Nat} (ns : List UInt64) :
    Fits (levels + 1) (.array (ns.map Json.ofIndex)) := by
  apply Fits.array
  intro j here
  obtain ⟨n, -, rfl⟩ := List.mem_map.mp here
  exact fits_ofIndex n

theorem Json.Scalar.fits {levels : Nat} {j : Json} (scalar : j.Scalar) : Fits levels j := by
  cases scalar with
  | null => exact .null
  | bool => exact .bool
  | int low high => exact .int low high
  | string => exact .string

theorem Record.Spells.fits {levels : Nat} {given : List (String × Json)} {j : Json}
    (spells : Record.Spells given j) (each : ∀ member ∈ given, Fits levels member.2) :
    Fits (levels + 1) j := by
  cases spells with
  | object extra order foreign scalar =>
    apply Fits.object
    intro member here
    rcases List.mem_append.mp (order.mem_iff.mp here) with own | other
    · exact each member own
    · exact (scalar member other).fits
  | array =>
    apply Fits.array
    intro j here
    obtain ⟨member, there, rfl⟩ := List.mem_map.mp here
    exact each member there

theorem Ins.Spells.fits {levels : Nat} {i : Ins} {j : Json} (spells : i.Spells j) :
    Fits (levels + 1) j := by
  have each : ∀ member ∈ i.fields, Fits levels member.2 := by
    cases i <;> simp [fields, fits_ofIndex, fits_ofCount]
  exact Record.Spells.fits spells (List.forall_mem_cons.mpr ⟨.string, each⟩)

theorem Constant.Told.fits {c : Constant} {fields : List (String × Json)} (told : c.Told fields) :
    ∀ member ∈ fields, Fits constantLevels member.2 := by
  cases told with
  | @method m code each =>
    have body : Fits constantLevels (.array code) := by
      apply Fits.array
      intro j here
      obtain ⟨i, -, spells⟩ : ∃ i ∈ m.code, i.Spells j := mem_forall₂ (.flip each) here
      exact spells.fits
    simp [fits_ofIndex, fits_ofCount, body]
  | other other =>
    cases c with
    | method m => exact absurd rfl (other m)
    | int value | null | str value | slot name | classDef slots =>
      have indices (ns : List UInt64) : Fits constantLevels (.array (ns.map Json.ofIndex)) :=
        fits_indices ns
      simp [Constant.fields, fits_ofIndex, fits_ofLiteral, Fits.string, indices]

theorem Constant.Spells.fits {c : Constant} {j : Json} (spells : c.Spells j) :
    Fits (constantLevels + 1) j := by
  obtain ⟨fields, told, record⟩ := spells
  exact record.fits (List.forall_mem_cons.mpr ⟨.string, told.fits⟩)

theorem Program.Spells.fits {p : Program} {j : Json} (spells : p.Spells j) :
    Json.Fits (constantLevels + 3) j := by
  obtain ⟨values, each, record⟩ := spells
  have pool : Json.Fits (constantLevels + 2) (.array values) := by
    apply Fits.array
    intro j here
    obtain ⟨c, -, spells⟩ : ∃ c ∈ p.values.toList, c.Spells j := mem_forall₂ (.flip each) here
    exact spells.fits
  apply record.fits
  simp [fits_ofIndex, pool, fits_indices]

namespace Constant

theorem readTag_understands (size : Nat) {name : String} (listed : name ∈ tags) :
    Understands size (readTag size) (.string name) name := by
  have known : variant tags name = .ok name := if_pos listed
  apply understands_string
  intro before cs rest empty read
  rw [readTag, skipBlanks_append empty, skipBlanks_cons (by decide)]
  simp only [read, known, bind, Except.bind, pure, Except.pure]

section
variable (size : Nat)

theorem readMember_others {members : List (String × Json)}
    (others : ∀ member ∈ members, member.1 ≠ "tag")
    (fits : ∀ member ∈ members, Fits constantLevels member.2) (found : Option String)
    (seen : List (String × Json)) :
    Steps size (readMember size) (found, seen) members (found, members.reverse ++ seen) := by
  apply steps_gather fun seen => (found, seen)
  intro member here seen text valued
  have understood := value_understands size (fits member here)
  have step : readMember size (found, seen) member.1 =
      afterColon (value size false constantLevels) fun j => (found, (member.1, j) :: seen) := by
    funext cs
    exact if_neg (others member here)
  rw [step]
  exact afterColon_reads (fun j => (found, (member.1, j) :: seen)) understood valued

theorem readMember_tag {name : String} (listed : name ∈ tags) (seen : List (String × Json))
    {text : List Char} (valued : Valued (.string name) text) :
    Reads size (readMember size (none, seen) "tag") text (some name, seen) :=
  afterColon_reads (fun name => (some name, seen)) (readTag_understands size listed) valued

variable {c : Constant} {fields : List (String × Json)}

theorem Told.read_object (told : c.Told fields) (before : List (String × Json))
    {after : List (String × Json)} (others : ∀ member ∈ before ++ after, member.1 ≠ "tag")
    (fits : ∀ member ∈ before ++ after, Fits constantLevels member.2)
    (each : ∀ member ∈ fields, named member.1 (before ++ after) = [member]) :
    Understands size (read size) (.object (before ++ ("tag", .string c.tag) :: after)) c := by
  have first := readMember_others size (fun m here => others m (List.mem_append_left _ here))
    (fun m here => fits m (List.mem_append_left _ here)) none []
  have last := readMember_others size (fun m here => others m (List.mem_append_right _ here))
    (fun m here => fits m (List.mem_append_right _ here)) (some c.tag) (before.reverse ++ [])
  -- members before the tag are gathered under no name, those behind it under the constant's
  have steps := first.append
    (.cons (fun _ valued => readMember_tag size c.tag_mem_tags _ valued) last)
  have body : ofBody c.tag (.object (before ++ after)) = .ok c := told.ofBody_object each
  apply understands_object steps
  intro left cs rest empty found
  rw [read, skipBlanks_append empty, skipBlanks_cons (by decide)]
  simp [found, body, bind, Except.bind, pure, Except.pure]

theorem Told.read_array (told : c.Told fields) :
    Understands size (read size) (.array (.string c.tag :: fields.map (·.2))) c := by
  have each : List.Forall₂ (Understands size (value size false constantLevels))
      (fields.map (·.2)) (fields.map (·.2)) := by
    rw [List.forall₂_same]
    intro j here
    obtain ⟨member, there, rfl⟩ := List.mem_map.mp here
    exact value_understands size (told.fits member there)
  intro text writes
  cases writes with
  | array inside =>
    cases inside with
    | @cons _ _ blanks tag more blank here later =>
      apply reads_of_opens (b := c) fun cs => read size ('[' :: cs)
      · intro rest stops room
        simp only [List.append_assoc, List.length_append] at room ⊢
        have few := later.length_lt
        have name := (readTag_understands size c.tag_mem_tags tag here).bare
          (later.stops (by decide) rest) (by simp only [List.length_append]; omega)
        have items : itemsAfter (value size false constantLevels) size _ = .ok (_, rest) :=
          itemsAfter_reads each later rest (by omega) (by simp only [List.length_append]; omega)
        have body := told.ofBody_array
        obtain ⟨first, cs, rfl, dark, inside⟩ := here.begins
        rw [read, skipBlanks_cons (by decide)]
        simp only [List.cons_append] at name ⊢
        rw [skipBlanks_append blank, skipBlanks_cons dark]
        split
        · next none => cases none
        · next bracket => exact absurd (List.cons.inj bracket).1 inside
        · simp only [name, items, body, bind, Except.bind, pure, Except.pure]
      · intro before cs rest empty found
        rw [read, skipBlanks_append empty]
        exact found

theorem Spells.read {j : Json} (spells : c.Spells j) : Understands size (read size) j c := by
  obtain ⟨fields, told, record⟩ := spells
  cases record with
  | object extra order foreign scalar =>
    obtain ⟨before, after, rfl, rest, others, each⟩ :=
      split_tagged order foreign told.gives.distinct told.apart
    have fits : ∀ member ∈ before ++ after, Fits constantLevels member.2 := by
      intro member here
      rcases List.mem_append.mp (rest.mem_iff.mp here) with own | other
      · exact told.fits member own
      · exact (scalar member other).fits
    exact told.read_object size before others fits each
  | array => exact told.read_array size

end
end Constant

theorem Json.Scalar.passed (size : Nat) {j : Json} (scalar : j.Scalar) :
    Understands size (passOver size) j () := by
  cases scalar with
  | null => exact passOver_of_value (value_null size size true)
  | bool b => exact passOver_of_value (value_bool size size true b)
  | int low high => exact passOver_of_value (value_int size size true low high)
  | string s => exact passOver_string size s

namespace Program

section
variable (size : Nat)

theorem readList_understands {α : Type} {item : Json.Reader α} {js : List Json} {as : List α}
    (each : List.Forall₂ (Understands size item) js as) :
    Understands size (readList size item) (.array js) as := by
  apply understands_array each
  intro before cs rest empty read
  rw [readList, skipBlanks_append empty, skipBlanks_cons (by decide)]
  exact read

theorem readIndex_understands (n : UInt64) :
    Understands size (readIndex size) (.ofIndex n) n := by
  have small := n.toNat_lt
  have index : Record.index (.number (.int n.toNat)) = .ok n := Record.index_ofIndex n
  apply understands_int false (by omega) (by omega)
  intro c before cs rest leads empty read
  have first : (decide (c = '-') || isDigit c) = true := by
    simpa [Leads] using leads
  rw [readIndex, skipBlanks_append empty, skipBlanks_cons leads.dark]
  simp only [first, if_true, read, index, bind, Except.bind, pure, Except.pure]

theorem readIndices_understands (ns : List UInt64) :
    Understands size (readList size (readIndex size)) (.array (ns.map Json.ofIndex)) ns := by
  apply readList_understands size
  rw [List.forall₂_map_left_iff, List.forall₂_same]
  exact fun n _ => readIndex_understands size n

theorem readMember_other {name : String} (values : name ≠ "values") (slots : name ≠ "slots")
    (entry : name ≠ "entry") (found : Partial) :
    readMember size found name = afterColon (passOver size) fun _ => found := by
  funext cs
  unfold readMember
  split
  · exact absurd rfl values
  · exact absurd rfl slots
  · exact absurd rfl entry
  · cases marked : colon cs with
    | error e => simp only [afterColon, marked, bind, Except.bind]
    | ok rest =>
      cases passed : skip size rest with
      | error e => simp only [afterColon, passOver, marked, passed, bind, Except.bind]
      | ok rest => simp only [afterColon, passOver, marked, passed, bind, Except.bind, pure, Except.pure]

theorem steps_of_awaits {p : Program} {members : List (String × Json)} {found : Partial}
    (values : Awaits found.values members "values"
      (Understands size (readList size (Constant.read size)) · p.values.toList) p.values.toList)
    (slots : Awaits found.slots members "slots"
      (Understands size (readList size (readIndex size)) · p.slots) p.slots)
    (entry : Awaits found.entry members "entry" (Understands size (readIndex size) · p.entry) p.entry)
    (others : ∀ member ∈ members, member.1 ≠ "values" → member.1 ≠ "slots" → member.1 ≠ "entry" →
      member.2.Scalar) :
    Steps size (readMember size) found members ⟨some p.values.toList, some p.slots, some p.entry⟩ := by
  induction members generalizing found with
  | nil =>
    rw [← values.done, ← slots.done, ← entry.done]
    exact .nil
  | cons member members ih =>
    obtain ⟨name, j⟩ := member
    have later := fun member here => others member (List.mem_cons_of_mem _ here)
    obtain ⟨seenValues, seenSlots, seenEntry⟩ := found
    by_cases isValues : name = "values"
    · subst isValues
      obtain ⟨rfl, understood, values⟩ := values.take
      exact .cons (fun text valued =>
          afterColon_reads (fun cs => Partial.mk (some cs) seenSlots seenEntry) understood valued)
        (ih values (slots.pass (by decide)) (entry.pass (by decide)) later)
    by_cases isSlots : name = "slots"
    · subst isSlots
      obtain ⟨rfl, understood, slots⟩ := slots.take
      exact .cons (fun text valued =>
          afterColon_reads (fun ns => Partial.mk seenValues (some ns) seenEntry) understood valued)
        (ih (values.pass isValues) slots (entry.pass (by decide)) later)
    by_cases isEntry : name = "entry"
    · subst isEntry
      obtain ⟨rfl, understood, entry⟩ := entry.take
      exact .cons (fun text valued =>
          afterColon_reads (fun n => Partial.mk seenValues seenSlots (some n)) understood valued)
        (ih (values.pass isValues) (slots.pass isSlots) entry later)
    · refine .cons ?_ (ih (values.pass isValues) (slots.pass isSlots) (entry.pass isEntry) later)
      rw [readMember_other size isValues isSlots isEntry]
      have scalar : j.Scalar := others (name, j) List.mem_cons_self isValues isSlots isEntry
      exact fun text valued => afterColon_reads _ (scalar.passed size) valued

theorem read_object {p : Program} {values : List Json} {extra members : List (String × Json)}
    (pool : Understands size (readList size (Constant.read size)) (.array values) p.values.toList)
    (order : members.Perm ([("values", .array values), ("slots", .array (p.slots.map Json.ofIndex)),
      ("entry", .ofIndex p.entry)] ++ extra))
    (foreign : ∀ member ∈ extra, member.1 ∉ ["values", "slots", "entry"])
    (scalar : ∀ member ∈ extra, member.2.Scalar) :
    Understands size (read size) (.object members) p := by
  have each := named_of_perm order (by simp) foreign
  simp only [List.forall_mem_cons] at each
  obtain ⟨values, slots, entry, -⟩ := each
  have others : ∀ member ∈ members, member.1 ≠ "values" → member.1 ≠ "slots" →
      member.1 ≠ "entry" → member.2.Scalar := by
    intro member here isValues isSlots isEntry
    have listed := order.mem_iff.mp here
    simp only [List.cons_append, List.nil_append, List.mem_cons] at listed
    rcases listed with rfl | rfl | rfl | other
    · exact absurd rfl isValues
    · exact absurd rfl isSlots
    · exact absurd rfl isEntry
    · exact scalar member other
  have steps : Steps size (readMember size) ⟨none, none, none⟩ members _ :=
    steps_of_awaits size (.inr ⟨rfl, _, values, pool⟩)
      (.inr ⟨rfl, _, slots, readIndices_understands size p.slots⟩)
      (.inr ⟨rfl, _, entry, readIndex_understands size p.entry⟩) others
  apply understands_object steps
  intro before cs rest empty found
  rw [read, skipBlanks_append empty, skipBlanks_cons (by decide)]
  simp [found, Partial.complete, required, bind, Except.bind, pure, Except.pure]

theorem nextField_further {j : Json} {js : List Json} {text : List Char}
    (further : Further Writes ']' (j :: js) text) :
    ∃ inner more, Writes j inner ∧ Further Writes ']' js more ∧
      (inner ++ more).length < text.length ∧
      ∀ rest, nextField (text ++ rest) = .ok (inner ++ (more ++ rest)) := by
  cases further with
  | @cons _ _ before after inner more before_blank after_blank here later =>
    refine ⟨inner, more, here, later, ?_, fun rest => ?_⟩
    · simp only [List.length_append, List.length_cons]
      omega
    · obtain ⟨c, cs, rfl, dark, inside⟩ := here.begins
      simp only [List.append_assoc, List.cons_append]
      rw [nextField, skipBlanks_append before_blank, skipBlanks_cons (by decide)]
      simp only [skipBlanks_append after_blank, skipBlanks_cons dark]
      split
      · next none => cases none
      · next bracket => exact absurd (List.cons.inj bracket).1 inside
      · rfl

theorem read_array {p : Program} {values : List Json}
    (pool : Understands size (readList size (Constant.read size)) (.array values) p.values.toList) :
    Understands size (read size)
      (.array [.array values, .array (p.slots.map Json.ofIndex), .ofIndex p.entry]) p := by
  intro text writes
  cases writes with
  | array inside =>
    cases inside with
    | @cons _ _ blanks first more blank here later =>
      apply reads_of_opens (readFields size)
      · intro rest stops room
        obtain ⟨second, more', writes', later', shorter', next'⟩ := nextField_further later
        obtain ⟨third, more'', writes'', later'', shorter'', next''⟩ := nextField_further later'
        simp only [List.append_assoc, List.length_append] at room shorter' shorter'' ⊢
        have values := (pool first here).bare (later.stops (by decide) rest)
          (by simp only [List.length_append]; omega)
        have slots := (readIndices_understands size p.slots second writes').bare
          (later'.stops (by decide) rest) (by simp only [List.length_append]; omega)
        have entry := (readIndex_understands size p.entry third writes'').bare
          (later''.stops (by decide) rest) (by simp only [List.length_append]; omega)
        obtain ⟨c, cs, rfl, dark, inside⟩ := here.begins
        simp only [List.cons_append] at values ⊢
        rw [readFields, skipBlanks_append blank, skipBlanks_cons dark]
        split
        · next none => cases none
        · next bracket => exact absurd (List.cons.inj bracket).1 inside
        cases later'' with
        | nil closing =>
          simp only [values, next', slots, next'', entry, bind, Except.bind]
          rw [List.append_assoc, skipBlanks_append closing, List.singleton_append,
            skipBlanks_cons (by decide)]
          rfl
      · intro before cs rest empty found
        rw [read, skipBlanks_append empty, skipBlanks_cons (by decide)]
        exact found

theorem Spells.read {p : Program} {j : Json} (spells : p.Spells j) :
    Understands size (read size) j p := by
  obtain ⟨values, each, record⟩ := spells
  have pool : Understands size (readList size (Constant.read size)) (.array values)
      p.values.toList :=
    readList_understands size (.flip (each.imp fun _ _ spells => spells.read size))
  cases record with
  | object extra order foreign scalar => exact read_object size pool order foreign scalar
  | array => exact read_array size pool

theorem read_toJson {style : Style} (blank : style.Blank) (p : Program) :
    Reads size (read size) (chars style 0 p.toJson) p :=
  p.spells_toJson.read size _ (writes_chars blank p.spells_toJson.fits 0)

end

/-- Every program has a text, and reading it gives the program back. -/
theorem parse_render (p : Program) : parse p.render = .ok p :=
  whole_reads fun size => read_toJson size Style.pretty_blank p

/-- A program is read from every text of every document that spells it. -/
theorem parse_spelled {p : Program} {j : Json} {s : String} (spells : p.Spells j)
    (document : j.Document s) : parse s = .ok p := by
  obtain ⟨before, text, after, before_blank, writes, after_blank, split⟩ := document
  exact whole_blanks (fun size => spells.read size text writes) before_blank after_blank split

def mixed : Program := ⟨#[.str "m", .method ⟨0, 0, 0, [.lit 2, .ret]⟩, .int (-1)], [], 1⟩

/-- A document of `mixed`: its members are out of order and among others, and its method and one of the
instructions are arrays. -/
def mixedJson : Json :=
  .object [("entry", .ofInt 1), ("note", .null),
    ("values", .array [.object [("value", .string "m"), ("tag", .string "str"), ("arity", .ofInt 7)],
      .array [.string "method", .ofInt 0, .ofInt 0, .ofInt 0,
        .array [.object [("idx", .ofInt 2), ("op", .string "lit")], .array [.string "return"]]],
      .object [("tag", .string "int"), ("value", .ofInt (-1))]]),
    ("slots", .array [])]

theorem spells_mixedJson : mixed.Spells mixedJson := by
  have lit : (Ins.lit 2).Spells (.object [("idx", .ofInt 2), ("op", .string "lit")]) :=
    .object [] (.swap _ _ _) (by simp) (by simp)
  have code : List.Forall₂ Ins.Spells [.lit 2, .ret] _ := .cons lit (.cons .array .nil)
  have text : (Constant.str "m").Spells
      (.object [("value", .string "m"), ("tag", .string "str"), ("arity", .ofInt 7)]) :=
    ⟨_, .other nofun, .object [("arity", .ofInt 7)] (.swap _ _ _) (by simp [Constant.fields])
      (by simpa using .int (by decide) (by decide))⟩
  have method : (Constant.method ⟨0, 0, 0, [.lit 2, .ret]⟩).Spells _ := ⟨_, .method code, .array⟩
  have literal := Constant.spells_toJson (.int (-1))
  have order (values slots : Json) := @List.perm_append_comm (String × Json)
    [("entry", .ofIndex 1), ("note", .null)] [("values", values), ("slots", slots)]
  exact ⟨_, .cons text (.cons method (.cons literal .nil)),
    .object [("note", .null)] (order _ _) (by simp) (by simpa using .null)⟩

theorem parse_spelled_mixed : mixed.Spells mixedJson ∧ parse mixedJson.compact = .ok mixed := by
  have writes := writes_chars Style.compact_blank spells_mixedJson.fits 0
  have document : mixedJson.Document mixedJson.compact :=
    ⟨[], _, [], blank_nil, writes, blank_nil, by simp [compact]⟩
  exact ⟨spells_mixedJson, parse_spelled spells_mixedJson document⟩

end Program
end SlotVM
