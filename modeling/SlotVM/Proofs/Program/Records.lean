import SlotVM.Program.Record
import SlotVM.Proofs.Except
import SlotVM.Proofs.Program.Spelling

namespace SlotVM

namespace Record

theorem integer_ok (type : String) {low high n : Int} (above : low ≤ n) (below : n ≤ high) :
    integer type low high (.number (.int n)) = .ok n :=
  if_pos ⟨above, below⟩

theorem index_ofIndex (n : UInt64) : index (.ofIndex n) = .ok n := by
  have small := n.toNat_lt
  have read : integer "usize" 0 0xFFFFFFFFFFFFFFFF (.ofIndex n) = .ok (n.toNat : Int) :=
    integer_ok _ (by omega) (by omega)
  have back : UInt64.ofInt (n.toNat : Int) = n := by
    have same : ((n.toNat : Int) % 2 ^ 64).toNat = n.toNat := by omega
    rw [UInt64.ofInt, same, UInt64.ofNat_toNat]
  simp only [index, read, bind, Except.bind, back]
  rfl

theorem count_ofCount (n : UInt32) : count (.ofCount n) = .ok n := by
  have small := n.toNat_lt
  have read : integer "u32" 0 0xFFFFFFFF (.ofCount n) = .ok (n.toNat : Int) :=
    integer_ok _ (by omega) (by omega)
  have back : UInt32.ofInt (n.toNat : Int) = n := by
    have same : ((n.toNat : Int) % 2 ^ 32).toNat = n.toNat := by omega
    rw [UInt32.ofInt, same, UInt32.ofNat_toNat]
  simp only [count, read, bind, Except.bind, back]
  rfl

theorem literal_ofInt (n : Int32) : literal (.ofInt n.toInt) = .ok n := by
  have low := n.minValue_le_toInt
  have high := n.toInt_lt
  have read : integer "i32" (-0x80000000) 0x7FFFFFFF (.ofInt n.toInt) = .ok n.toInt :=
    integer_ok _ low (by omega)
  simp only [literal, read, bind, Except.bind, Int32.ofInt_toInt]
  rfl

theorem list_ok {α : Type} {item : Json → Except Malformed α} {as : List α} {js : List Json}
    (each : List.Forall₂ (fun a j => item j = .ok a) as js) : list item (.array js) = .ok as := by
  show js.mapM item = .ok as
  induction each with
  | nil => rfl
  | cons here _ ih =>
    rw [List.mapM_cons, here, ih]
    rfl

theorem list_map {α : Type} {item : Json → Except Malformed α} {toJson : α → Json}
    (each : ∀ a, item (toJson a) = .ok a) (as : List α) :
    list item (.array (as.map toJson)) = .ok as := by
  apply list_ok
  rw [List.forall₂_map_right_iff, List.forall₂_same]
  exact fun a _ => each a

def named (name : String) (members : List (String × Json)) : List (String × Json) :=
  members.filter fun member => member.1 = name

theorem named_cons_self (name : String) (j : Json) (members : List (String × Json)) :
    named name ((name, j) :: members) = (name, j) :: named name members := by
  simp [named]

theorem named_cons_ne {name other : String} (apart : name ≠ other) (j : Json)
    (members : List (String × Json)) :
    named other ((name, j) :: members) = named other members := by
  simp [named, apart]

section
variable {α : Type} {fields : Fields α} {members : List (String × Json)}

theorem lookup_cons_ne {name other : String} (apart : name ≠ other) (a : α)
    (seen : List (String × α)) : ((name, a) :: seen).lookup other = seen.lookup other := by
  have differs : (other == name) = false := by simpa using apart.symm
  rw [List.lookup_cons, differs]

/-- A field was found and no member of its name is left, or it was not and one is left that tells the
value `a`. -/
def Awaits (found : Option α) (members : List (String × Json)) (name : String) (tells : Json → Prop)
    (a : α) : Prop :=
  found = some a ∧ named name members = [] ∨
    found = none ∧ ∃ j, named name members = [(name, j)] ∧ tells j

section
variable {found : Option α} {name other : String} {tells : Json → Prop} {j : Json} {a : α}

theorem Awaits.pass (apart : other ≠ name) (awaits : Awaits found ((other, j) :: members) name tells a) :
    Awaits found members name tells a := by
  rw [Awaits, named_cons_ne apart] at awaits
  exact awaits

theorem Awaits.take (awaits : Awaits found ((name, j) :: members) name tells a) :
    found = none ∧ tells j ∧ Awaits (some a) members name tells a := by
  rw [Awaits, named_cons_self] at awaits
  rcases awaits with ⟨-, none⟩ | ⟨unseen, j', sole, told⟩
  · cases none
  · obtain ⟨same, last⟩ := List.cons.inj sole
    cases same
    exact ⟨unseen, told, .inl ⟨rfl, last⟩⟩

theorem Awaits.done (awaits : Awaits found [] name tells a) : found = some a := by
  rcases awaits with ⟨seen, -⟩ | ⟨-, j, sole, -⟩
  · exact seen
  · cases sole

end

theorem collect_of_awaits {known seen : List (String × α)}
    (awaits : ∀ name field, fields.lookup name = some field → ∃ a, known.lookup name = some a ∧
      Awaits (seen.lookup name) members name (fun j => field j = .ok a) a) :
    ∃ seen', collect fields seen members = .ok seen' ∧ ∀ name field,
      fields.lookup name = some field → seen'.lookup name = known.lookup name := by
  -- what was seen and what is left together hold every field once, member after member
  induction members generalizing seen with
  | nil =>
    refine ⟨seen, rfl, fun name field declared => ?_⟩
    obtain ⟨a, value, waits⟩ := awaits name field declared
    rw [waits.done, value]
  | cons member members ih =>
    obtain ⟨name, j⟩ := member
    unfold collect
    cases declared : fields.lookup name with
    | none =>
      apply ih
      intro other field declared'
      have apart : name ≠ other := by
        rintro rfl
        rw [declared] at declared'
        cases declared'
      obtain ⟨a, value, waits⟩ := awaits other field declared'
      exact ⟨a, value, waits.pass apart⟩
    | some field =>
      obtain ⟨a, value, waits⟩ := awaits name field declared
      obtain ⟨unseen, read, done⟩ := waits.take
      simp only [unseen, Option.isSome_none, Bool.false_eq_true, if_false, read, bind, Except.bind]
      apply ih
      intro other field' declared'
      obtain ⟨b, value', waits'⟩ := awaits other field' declared'
      by_cases apart : name = other
      · subst apart
        rw [declared] at declared'
        cases declared'
        rw [List.lookup_cons_self]
        exact ⟨a, value, done⟩
      · rw [lookup_cons_ne apart]
        exact ⟨b, value', waits'.pass apart⟩

theorem arrange_of_lookup {seen : List (String × α)} {names : List String} {values : List α}
    (each : List.Forall₂ (fun name a => seen.lookup name = some a) names values) :
    arrange seen names = .ok values := by
  induction each with
  | nil => rfl
  | cons found _ ih =>
    simp only [arrange, found, ih, bind, Except.bind]
    rfl

theorem lookup_zip {names : List String} {values : List α} (distinct : names.Nodup)
    (same : names.length = values.length) :
    List.Forall₂ (fun name a => (names.zip values).lookup name = some a) names values := by
  induction names generalizing values with
  | nil =>
    cases values with
    | nil => exact .nil
    | cons a values => cases same
  | cons name names ih =>
    cases values with
    | nil => cases same
    | cons a values =>
      obtain ⟨fresh, distinct⟩ := List.nodup_cons.mp distinct
      rw [List.zip_cons_cons]
      refine .cons (by simp) ?_
      obtain ⟨length, later⟩ := List.forall₂_iff_zip.mp (ih distinct (Nat.succ.inj same))
      refine List.forall₂_iff_zip.mpr ⟨length, fun {other b} here => ?_⟩
      have apart : name ≠ other := by
        rintro rfl
        exact fresh (List.of_mem_zip here).1
      rw [lookup_cons_ne apart]
      exact later here

theorem exists_lookup {name : String} (here : name ∈ fields.map (·.1)) :
    ∃ field, fields.lookup name = some field := by
  induction fields with
  | nil => cases here
  | cons first fields ih =>
    obtain ⟨first_name, field⟩ := first
    by_cases same : first_name = name
    · subst same
      exact ⟨field, by simp⟩
    · rw [lookup_cons_ne same]
      exact ih ((List.mem_cons.mp here).resolve_left (Ne.symm same))

theorem read_object {values : List α} (distinct : (fields.map (·.1)).Nodup)
    (each : List.Forall₂ (fun field a => ∃ j, named field.1 members = [(field.1, j)] ∧
      field.2 j = .ok a) fields values) : read fields (.object members) = .ok values := by
  have awaits : ∀ name field, fields.lookup name = some field →
      ∃ a, ((fields.map (·.1)).zip values).lookup name = some a ∧
        Awaits (([] : List (String × α)).lookup name) members name (fun j => field j = .ok a) a := by
    intro name field declared
    clear distinct
    induction each with
    | nil => cases declared
    | @cons first a fields values here each ih =>
      obtain ⟨first_name, first_field⟩ := first
      rw [List.map_cons, List.zip_cons_cons]
      by_cases same : first_name = name
      · subst same
        simp only [List.lookup_cons_self, Option.some.injEq] at declared
        subst declared
        obtain ⟨j, sole, read⟩ := here
        exact ⟨a, by simp, .inr ⟨rfl, j, sole, read⟩⟩
      · rw [lookup_cons_ne same] at declared ⊢
        exact ih declared
  obtain ⟨seen, collected, found⟩ := collect_of_awaits awaits
  have arranged : arrange seen (fields.map (·.1)) = .ok values := by
    apply arrange_of_lookup
    have same : (fields.map (·.1)).length = values.length := by
      rw [List.length_map, each.length_eq]
    obtain ⟨length, listed⟩ := List.forall₂_iff_zip.mp (lookup_zip distinct same)
    refine List.forall₂_iff_zip.mpr ⟨length, fun {name a} here => ?_⟩
    obtain ⟨field, declared⟩ := exists_lookup (List.of_mem_zip here).1
    rw [found name field declared]
    exact listed here
  exact bind_eq_ok.mpr ⟨seen, collected, arranged⟩

end

/-- The members given are the fields, in declaration order and with the values. -/
structure Gives {α : Type} (fields : Fields α) (given : List (String × Json)) (values : List α) :
    Prop where
  names : fields.map (·.1) = given.map (·.1)
  distinct : (given.map (·.1)).Nodup
  zipped : zip fields (given.map (·.2)) = .ok values

theorem zip_given {α : Type} {fields : Fields α} {given members : List (String × Json)}
    {values : List α} (names : fields.map (·.1) = given.map (·.1))
    (zipped : zip fields (given.map (·.2)) = .ok values)
    (each : ∀ member ∈ given, named member.1 members = [member]) :
    List.Forall₂ (fun field a => ∃ j, named field.1 members = [(field.1, j)] ∧
      field.2 j = .ok a) fields values := by
  induction fields generalizing given values with
  | nil =>
    cases given with
    | nil =>
      cases zipped
      exact .nil
    | cons member given => cases names
  | cons field fields ih =>
    cases given with
    | nil => cases names
    | cons member given =>
      obtain ⟨name, field⟩ := field
      obtain ⟨name', j⟩ := member
      rw [List.map_cons, List.map_cons] at names
      obtain ⟨rfl, rest⟩ := List.cons.inj names
      obtain ⟨a, here, more⟩ := bind_eq_ok.mp zipped
      obtain ⟨as, later, done⟩ := bind_eq_ok.mp more
      cases done
      exact .cons ⟨j, each (name, j) List.mem_cons_self, here⟩
        (ih rest later fun m there => each m (List.mem_cons_of_mem _ there))

theorem Gives.read_object {α : Type} {fields : Fields α} {given members : List (String × Json)}
    {values : List α} (gives : Gives fields given values)
    (each : ∀ member ∈ given, named member.1 members = [member]) :
    read fields (.object members) = .ok values :=
  Record.read_object (gives.names ▸ gives.distinct) (zip_given gives.names gives.zipped each)

theorem named_of_distinct {given : List (String × Json)} (distinct : (given.map (·.1)).Nodup) :
    ∀ member ∈ given, named member.1 given = [member] := by
  intro member here
  induction given with
  | nil => cases here
  | cons first given ih =>
    obtain ⟨fresh, distinct⟩ := List.nodup_cons.mp distinct
    rcases List.mem_cons.mp here with rfl | here
    · have none : named member.1 given = [] := by
        apply List.filter_eq_nil_iff.mpr
        intro other there same
        exact fresh (List.mem_map.mpr ⟨other, there, of_decide_eq_true same⟩)
      rw [named_cons_self, none]
    · have apart : first.1 ≠ member.1 := by
        intro same
        exact fresh (List.mem_map.mpr ⟨member, here, same.symm⟩)
      rw [named_cons_ne apart]
      exact ih distinct here

/-- Neither the order of the members nor others of other names hide a field. -/
theorem named_of_perm {given extra members : List (String × Json)}
    (order : members.Perm (given ++ extra)) (distinct : (given.map (·.1)).Nodup)
    (foreign : ∀ member ∈ extra, member.1 ∉ given.map (·.1)) :
    ∀ member ∈ given, named member.1 members = [member] := by
  intro member here
  have own : named member.1 given = [member] := named_of_distinct distinct member here
  have none : named member.1 extra = [] := by
    apply List.filter_eq_nil_iff.mpr
    intro other there same
    have same : other.1 = member.1 := of_decide_eq_true same
    exact foreign other there (same ▸ List.mem_map_of_mem here)
  have all : named member.1 (given ++ extra) = [member] := by
    rw [named, List.filter_append]
    change named member.1 given ++ named member.1 extra = [member]
    rw [own, none, List.append_nil]
  have found : (named member.1 members).Perm [member] := all ▸ order.filter _
  exact found.eq_singleton

theorem tag_string {known : List String} {name : String} (listed : name ∈ known) :
    tag known (.string name) = .ok name :=
  if_pos listed

theorem splitMembers_other (key : String) (known : List String) (found : Option String)
    {before : List (String × Json)} (others : ∀ member ∈ before, member.1 ≠ key)
    (seen after : List (String × Json)) :
    splitMembers key known found seen (before ++ after) =
      splitMembers key known found (before.reverse ++ seen) after := by
  induction before generalizing seen with
  | nil => rfl
  | cons member before ih =>
    obtain ⟨other, j⟩ := member
    have apart : other ≠ key := others (other, j) List.mem_cons_self
    rw [List.cons_append, splitMembers, if_neg apart,
      ih fun m later => others m (List.mem_cons_of_mem _ later)]
    simp

theorem tagged_object {key name : String} {known : List String} (listed : name ∈ known)
    {before after : List (String × Json)} (others : ∀ member ∈ before ++ after, member.1 ≠ key) :
    tagged key known (.object (before ++ (key, .string name) :: after)) =
      .ok (name, .object (before ++ after)) := by
  have outside : ∀ member ∈ before, member.1 ≠ key :=
    fun member here => others member (List.mem_append_left _ here)
  have behind : ∀ member ∈ after, member.1 ≠ key :=
    fun member here => others member (List.mem_append_right _ here)
  have last := splitMembers_other key known (some name) behind before.reverse []
  rw [List.append_nil] at last
  rw [tagged, splitMembers_other key known none outside, List.append_nil, splitMembers, if_pos rfl]
  simp [tag_string listed, bind, Except.bind, last, splitMembers]

theorem tagged_array (key : String) {name : String} {known : List String} (listed : name ∈ known)
    (items : List Json) :
    tagged key known (.array (.string name :: items)) = .ok (name, .array items) := by
  simp [tagged, tag_string listed, bind, Except.bind, pure, Except.pure]

theorem split_tagged {key : String} {tag : Json} {fields extra members : List (String × Json)}
    (order : members.Perm (((key, tag) :: fields) ++ extra))
    (foreign : ∀ member ∈ extra, member.1 ∉ ((key, tag) :: fields).map (·.1))
    (distinct : (fields.map (·.1)).Nodup) (apart : ∀ member ∈ fields, member.1 ≠ key) :
    ∃ before after, members = before ++ (key, tag) :: after ∧
      (before ++ after).Perm (fields ++ extra) ∧ (∀ member ∈ before ++ after, member.1 ≠ key) ∧
      ∀ member ∈ fields, named member.1 (before ++ after) = [member] := by
  obtain ⟨before, after, rfl⟩ := List.append_of_mem (order.mem_iff.mpr List.mem_cons_self)
  have order : (before ++ after).Perm (fields ++ extra) :=
    (List.perm_middle.symm.trans order).cons_inv
  have others : ∀ member ∈ extra, member.1 ≠ key ∧ member.1 ∉ fields.map (·.1) := by
    intro member here
    simpa using foreign member here
  refine ⟨before, after, rfl, order, fun member here => ?_, ?_⟩
  · rcases List.mem_append.mp (order.mem_iff.mp here) with field | other
    · exact apart member field
    · exact (others member other).1
  · exact named_of_perm order distinct fun member here => (others member here).2

end Record

open Record

namespace Ins

def values : Ins → List Operand
  | .label name | .slot name | .setSlot name | .setGlobal name | .getGlobal name
  | .branch name | .goto name => [.index name]
  | .lit idx => [.index idx]
  | .printf format arity => [.index format, .count arity]
  | .object index => [.index index]
  | .callSlot name arity | .call name arity => [.index name, .count arity]
  | .setLocal idx | .getLocal idx => [.count idx]
  | .array | .ret | .drop => []

theorem tag_mem_tags (i : Ins) : i.tag ∈ tags := by
  cases i <;> simp [tag, tags]

theorem ofOperands?_values (i : Ins) : ofOperands? i.tag i.values = some i := by
  cases i <;> rfl

theorem gives (i : Ins) : Gives (operands i.tag) i.fields i.values where
  names := by cases i <;> rfl
  distinct := by cases i <;> simp [fields]
  zipped := by
    cases i <;> simp [operands, tag, fields, values, zip, indexField, countField, index_ofIndex,
      count_ofCount, bind, Except.bind, pure, Except.pure]

theorem fields_apart (i : Ins) : ∀ member ∈ i.fields, member.1 ≠ "op" := by
  cases i <;> simp [fields]

theorem ofJson_object (i : Ins) (before : List (String × Json)) {after : List (String × Json)}
    (others : ∀ member ∈ before ++ after, member.1 ≠ "op")
    (each : ∀ member ∈ i.fields, named member.1 (before ++ after) = [member]) :
    ofJson (.object (before ++ ("op", .string i.tag) :: after)) = .ok i := by
  have split := tagged_object i.tag_mem_tags others
  have read := i.gives.read_object each
  simp only [ofJson, split, read, bind, Except.bind, ofOperands?_values]

theorem ofJson_array (i : Ins) :
    ofJson (.array (.string i.tag :: i.fields.map (·.2))) = .ok i := by
  have split := tagged_array "op" i.tag_mem_tags (i.fields.map (·.2))
  have read : read (operands i.tag) (.array (i.fields.map (·.2))) = .ok i.values := i.gives.zipped
  simp only [ofJson, split, read, bind, Except.bind, ofOperands?_values]

theorem Spells.ofJson {i : Ins} {j : Json} (spells : i.Spells j) : ofJson j = .ok i := by
  cases spells with
  | object extra order foreign scalar =>
    obtain ⟨before, after, rfl, -, others, each⟩ :=
      split_tagged order foreign i.gives.distinct i.fields_apart
    exact ofJson_object i before others each
  | array => exact ofJson_array i

end Ins

namespace Constant

def values : Constant → List Field
  | .int value => [.literal value]
  | .null => []
  | .str value => [.text value]
  | .method m => [.index m.name, .count m.nargs, .count m.nlocals, .code m.code]
  | .slot name => [.index name]
  | .classDef slots => [.indices slots]

theorem tag_mem_tags (c : Constant) : c.tag ∈ tags := by
  cases c <;> simp [tag, tags]

theorem ofFields?_values (c : Constant) : ofFields? c.tag c.values = some c := by
  cases c <;> rfl

theorem Told.gives {c : Constant} {fields : List (String × Json)} (told : c.Told fields) :
    Gives (fieldsOf c.tag) fields c.values := by
  cases told with
  | @method m code each =>
    have body : list Ins.ofJson (.array code) = .ok m.code :=
      list_ok (each.imp fun _ _ spells => spells.ofJson)
    refine ⟨rfl, by simp, ?_⟩
    simp [fieldsOf, tag, values, zip, index_ofIndex, count_ofCount, body, bind, Except.bind, pure,
      Except.pure]
  | other other =>
    refine ⟨?_, ?_, ?_⟩
    · cases c <;> rfl
    · cases c <;> simp [Constant.fields]
    · cases c with
      | method m => exact absurd rfl (other m)
      | int value | null | str value | slot name | classDef slots =>
        simp [fieldsOf, tag, Constant.fields, values, zip, literal_ofInt, Record.text, index_ofIndex,
          list_map index_ofIndex, bind, Except.bind, pure, Except.pure]

theorem Told.apart {c : Constant} {fields : List (String × Json)} (told : c.Told fields) :
    ∀ member ∈ fields, member.1 ≠ "tag" := by
  cases told with
  | method each => simp
  | other other => cases c <;> simp [Constant.fields]

section
variable {c : Constant} {fields : List (String × Json)}

theorem Told.ofBody_object (told : c.Told fields) {members : List (String × Json)}
    (each : ∀ member ∈ fields, named member.1 members = [member]) :
    ofBody c.tag (.object members) = .ok c := by
  have read := told.gives.read_object each
  simp only [ofBody, read, bind, Except.bind, ofFields?_values]

theorem Told.ofBody_array (told : c.Told fields) :
    ofBody c.tag (.array (fields.map (·.2))) = .ok c := by
  have read : read (fieldsOf c.tag) (.array (fields.map (·.2))) = .ok c.values := told.gives.zipped
  simp only [ofBody, read, bind, Except.bind, ofFields?_values]

end
end Constant
end SlotVM
