import SlotVM.Proofs.Link.Obligations

namespace SlotVM

theorem bind_total {ε α β : Type} {first : Except ε α} {rest : α → Except ε β} {a : α}
    (here : first = .ok a) (next : ∃ b, rest a = .ok b) : ∃ b, (first >>= rest) = .ok b := by
  obtain ⟨b, next⟩ := next
  exact ⟨b, bind_eq_ok.mpr ⟨a, here, next⟩⟩

theorem mapM_total {ε α β : Type} {f : α → Except ε β} {l : List α}
    (each : ∀ a ∈ l, ∃ b, f a = .ok b) : ∃ results, l.mapM f = .ok results := by
  induction l with
  | nil => exact ⟨[], rfl⟩
  | cons a l ih =>
    obtain ⟨⟨b, first⟩, each⟩ := List.forall_mem_cons.mp each
    obtain ⟨results, others⟩ := ih each
    rw [List.mapM_cons]
    exact bind_total first (bind_total others ⟨_, rfl⟩)

namespace Draft

section
variable {p : Program} {d d' : Draft}

theorem intern_total {index : UInt64} (string : (p.string? index).isSome) :
    ∃ d₁ symbol, d.intern p index = .ok (d₁, symbol) := by
  obtain ⟨text, string⟩ := Option.isSome_iff_exists.mp string
  exact ⟨_, _, bind_eq_ok.mpr ⟨text, Program.string_eq_ok_iff.mpr string, rfl⟩⟩

theorem format_total {index : UInt64} (string : (p.string? index).isSome) :
    ∃ d₁ place, d.format p index = .ok (d₁, place) := by
  obtain ⟨text, string⟩ := Option.isSome_iff_exists.mp string
  unfold Draft.format
  cases d.formats.findIdx? (·.1 = index) with
  | some known => exact ⟨d, known.toUInt64, rfl⟩
  | none => exact ⟨_, _, bind_eq_ok.mpr ⟨text, Program.string_eq_ok_iff.mpr string, rfl⟩⟩

theorem define_total {key : Key} (fresh : d.find? key = none) (entry : Entry) :
    ∃ d₁, d.define p key entry = .ok d₁ := by
  rw [Draft.define, fresh]
  exact ⟨_, rfl⟩

theorem Denotes.functional {key : Key} {sort sort' : String ⊕ UInt64} (first : d.Denotes key sort)
    (second : d.Denotes key sort') : sort = sort' := by
  cases key <;> cases sort <;> cases sort' <;> simp only [Denotes] at first second
  · rw [Option.some.inj (first.symm.trans second)]
  · rw [← first, ← second]

theorem Defines.denotes {offset classes : Nat} {task : Task} {key : Key} {entry : Entry}
    (defines : Defines p d offset classes task key entry) :
    ∃ sort, task.defines? p = some sort ∧ d.Denotes key sort := by
  cases defines with
  | method index m => exact ⟨.inr index, rfl, rfl⟩
  | label scene named =>
    obtain ⟨text, string, named⟩ := named
    exact ⟨.inl text, by simp [Task.defines?, Program.labelText?, string], named⟩
  | classDef index slots => exact ⟨.inr index, rfl, rfl⟩
  | function method named _ =>
    obtain ⟨text, string, named⟩ := named
    exact ⟨.inl text, by simp [Task.defines?, Program.methodName?, method, string], named⟩

namespace Tracks

variable {done rest : List Task} {task : Task} {d₁ : Draft}

theorem widens (tracks : Tracks p done d) (wider : Widens p d d₁) : Tracks p done d₁ := by
  have grown := wider.grows
  refine ⟨tracks.sound.grows grown, wider.offset.trans tracks.offset, ?_, ?_, ?_, tracks.once, ?_, ?_⟩
  · rw [wider.body]
    exact tracks.body.imp fun _ _ sketched => sketched.grows grown
  · intro key entry found
    rw [wider.find?] at found
    simpa using (tracks.entries key entry found).grows grown []
  · intro sort member
    obtain ⟨key, denotes, defined⟩ := tracks.defined sort member
    exact ⟨key, denotes.grows grown, by rwa [wider.find?]⟩
  · rw [wider.classes]
    exact tracks.classes.imp fun _ _ laid => laid.grows grown
  · rw [wider.globals]
    exact tracks.globals.imp fun _ _ named => grown.name? named

theorem fresh (tracks : Tracks p done d) {key : Key} {sort : String ⊕ UInt64}
    (denotes : d.Denotes key sort) (absent : sort ∉ done.filterMap (Task.defines? p)) :
    d.find? key = none := by
  cases found : d.find? key with
  | none => rfl
  | some entry =>
    obtain ⟨before, task, after, rfl, defines⟩ := tracks.entries key entry found
    obtain ⟨sort', sorted, denotes'⟩ := defines.denotes
    obtain rfl := denotes.functional denotes'
    exact absurd (List.mem_filterMap.mpr ⟨task, by simp, sorted⟩) absent

theorem isSome (tracks : Tracks p done d) {key : Key} {sort : String ⊕ UInt64}
    (denotes : d.Denotes key sort) (member : sort ∈ done.filterMap (Task.defines? p)) :
    (d.find? key).isSome := by
  obtain ⟨key', denotes', defined⟩ := tracks.defined sort member
  rwa [denotes.unique tracks.sound.symbols denotes']

end Tracks
end
end Draft

namespace Draft.Tracks

variable {p : Program} {d d₁ : Draft} {done rest : List Task} {task : Task}

theorem method_found (tracks : Tracks p done d) (small : p.values.size < 2 ^ 32)
    (split : Task.all p = done ++ rest) {index : UInt64} {m : Method} (listed : .method index m ∈ done) :
    ∃ offset nargs, d.find? (.constant index) = some (.method offset nargs) := by
  have sorted : Sum.inr index ∈ done.filterMap (Task.defines? p) :=
    List.mem_filterMap.mpr ⟨.method index m, listed, rfl⟩
  have denotes : d.Denotes (.constant index) (.inr index) := rfl
  obtain ⟨entry, found⟩ := Option.isSome_iff_exists.mp (tracks.isSome denotes sorted)
  obtain ⟨before, task, after, rfl, defines⟩ := tracks.entries _ _ found
  cases defines with
  | method index m' => exact ⟨_, _, found⟩
  | classDef index slots =>
    obtain ⟨before', after', parts⟩ := List.append_of_mem (List.mem_append_left rest listed)
    have method := (Task.all_split_method small (split.trans parts)).1
    rw [List.append_assoc, List.cons_append] at split
    have stored := (Task.all_split_class small split).1
    rw [Program.method?_eq_some_iff, stored] at method
    cases method

theorem declare_total (tracks : Tracks p done d) (small : p.values.size < 2 ^ 32)
    (methods : ∀ index m, p.method? index = some m → .method index m ∈ done)
    (split : Task.all p = done ++ rest) {index : UInt64} (member : p.IsMember index) :
    ∃ declared, d.declare p index = .ok declared := by
  rcases member.cases with ⟨name, text, stored, string⟩ | ⟨m, text, stored, string⟩
  · obtain ⟨d₁, symbol, interned⟩ := intern_total (d := d) (Option.isSome_of_eq_some string)
    exact bind_total (Program.constant_eq_ok_iff.mpr stored) (bind_total interned ⟨_, rfl⟩)
  · obtain ⟨d₁, symbol, interned⟩ := intern_total (d := d) (Option.isSome_of_eq_some string)
    have tracks' := tracks.widens (intern_ok tracks.sound small interned).1
    obtain ⟨offset, nargs, found⟩ := tracks'.method_found small split
      (methods index m (Program.method?_eq_some_iff.mpr stored))
    have resolved : d₁.resolve p (.constant index) = .ok (.method offset nargs) := by
      rw [Draft.resolve, found]
    refine bind_total (Program.constant_eq_ok_iff.mpr stored) (bind_total interned ?_)
    exact bind_total resolved ⟨_, rfl⟩

theorem declareAll_total (tracks : Tracks p done d) (small : p.values.size < 2 ^ 32)
    (methods : ∀ index m, p.method? index = some m → .method index m ∈ done)
    (split : Task.all p = done ++ rest) {slots : List UInt64}
    (members : ∀ index ∈ slots, p.IsMember index) :
    ∃ declared, d.declareAll p slots = .ok declared := by
  induction slots generalizing d with
  | nil => exact ⟨(d, []), rfl⟩
  | cons index slots ih =>
    obtain ⟨member, members⟩ := List.forall_mem_cons.mp members
    obtain ⟨⟨d₁, decl⟩, first⟩ := tracks.declare_total small methods split member
    obtain ⟨_, others⟩ := ih (tracks.widens (declare_ok tracks.sound small first).1) members
    exact bind_total first (bind_total others ⟨_, rfl⟩)

theorem addClass_total (tracks : Tracks p done d) (small : p.values.size < 2 ^ 32)
    (methods : ∀ index m, p.method? index = some m → .method index m ∈ done)
    (split : Task.all p = done ++ rest) {index : UInt64} {slots : List UInt64}
    (members : ∀ index ∈ slots, p.IsMember index)
    (absent : Sum.inr index ∉ done.filterMap (Task.defines? p)) :
    ∃ d', d.addClass p index slots = .ok d' := by
  obtain ⟨⟨d₁, decls⟩, declared⟩ := tracks.declareAll_total small methods split members
  have tracks' := tracks.widens (declareAll_ok tracks.sound small declared).1
  have denotes : d₁.Denotes (.constant index) (.inr index) := rfl
  have free : d₁.find? (.constant index) = none := tracks'.fresh denotes absent
  exact bind_total declared
    (define_total (d := { d₁ with classes := d₁.classes.push (.ofDecls decls) }) free _)

theorem define_name_total (tracks : Tracks p done d) (small : p.values.size < 2 ^ 32)
    {index : UInt64} {text : String} (string : p.string? index = some text)
    (absent : Sum.inl text ∉ done.filterMap (Task.defines? p)) (entry : Draft → Entry) :
    ∃ d', (do let (d, symbol) ← d.intern p index; d.define p (.name symbol) (entry d)) = .ok d' := by
  obtain ⟨d₁, symbol, interned⟩ := intern_total (d := d) (Option.isSome_of_eq_some string)
  obtain ⟨wider, text', string', named⟩ := intern_ok tracks.sound small interned
  obtain rfl : text = text' := Option.some.inj (string.symm.trans string')
  have denotes : d₁.Denotes (.name symbol) (.inl text) := named
  have free : d₁.find? (.name symbol) = none := (tracks.widens wider).fresh denotes absent
  exact bind_total interned (define_total free _)

theorem addGlobal_total (tracks : Tracks p done d) (small : p.values.size < 2 ^ 32)
    (methods : ∀ index m, p.method? index = some m → .method index m ∈ done)
    (split : Task.all p = done ++ rest) {index : UInt64} (member : p.IsMember index)
    (absent : ∀ text, p.methodName? index = some text →
      Sum.inl text ∉ done.filterMap (Task.defines? p)) :
    ∃ d', d.addGlobal p index = .ok d' := by
  rcases member.cases with ⟨name, text, stored, string⟩ | ⟨m, text, stored, string⟩
  · obtain ⟨d₁, symbol, interned⟩ := intern_total (d := d) (Option.isSome_of_eq_some string)
    exact bind_total (Program.constant_eq_ok_iff.mpr stored) (bind_total interned ⟨_, rfl⟩)
  · have method := Program.method?_eq_some_iff.mpr stored
    obtain ⟨offset, nargs, found⟩ := tracks.method_found small split (methods index m method)
    have resolved : d.resolve p (.constant index) = .ok (.method offset nargs) := by
      rw [Draft.resolve, found]
    have absent := absent text (Program.methodName?_eq_some_iff.mpr ⟨m, method, string⟩)
    refine bind_total (Program.constant_eq_ok_iff.mpr stored) (bind_total resolved ?_)
    exact tracks.define_name_total small string absent fun _ => .method offset nargs

theorem quicken_total (tracks : Tracks p done d) (small : p.values.size < 2 ^ 32) {scene : Scene}
    {ins : Ins} (fits : p.Fits scene.frameSize.toNat ins)
    (absent : ∀ text, p.labelText? ins = some text →
      Sum.inl text ∉ done.filterMap (Task.defines? p)) :
    ∃ d', d.quicken p scene ins = .ok d' := by
  cases ins with
  | label name =>
    obtain ⟨text, string⟩ := Option.isSome_iff_exists.mp fits
    exact tracks.define_name_total small string (absent text string) fun d => .label d.offset
  | lit idx =>
    obtain ⟨c, stored, literal⟩ := fits
    have read : p.constant idx "literal" = .ok c := Program.constant_eq_ok_iff.mpr stored
    cases c with
    | int _ | null => exact bind_total read ⟨_, rfl⟩
    | _ => cases literal
  | printf format arity =>
    obtain ⟨d₁, place, formatted⟩ := format_total (d := d) fits
    exact bind_total formatted ⟨_, rfl⟩
  | setLocal idx | getLocal idx =>
    have checked : d.checkLocal p scene idx = .ok () := if_pos fits
    exact bind_total checked ⟨_, rfl⟩
  | array | object index | ret | drop => exact ⟨_, rfl⟩
  | _ =>
    obtain ⟨d₁, symbol, interned⟩ := intern_total (d := d) fits
    exact bind_total interned ⟨_, rfl⟩

theorem perform_total (tracks : Tracks p done d) (small : p.values.size < 2 ^ 32)
    (once : ((Task.all p).filterMap (Task.defines? p)).Nodup)
    (split : Task.all p = done ++ task :: rest) (fine : task.Fine p) :
    ∃ d', d.perform p task = .ok d' := by
  have absent {sort : String ⊕ UInt64} (sorted : task.defines? p = some sort) :
      sort ∉ done.filterMap (Task.defines? p) := Task.fresh_of_split once split sorted
  cases task with
  | method index m =>
    have denotes : d.Denotes (.constant index) (.inr index) := rfl
    obtain ⟨d₁, defined⟩ := define_total (tracks.fresh denotes (absent rfl)) (.method d.offset m.nargs)
    exact bind_total defined ⟨_, rfl⟩
  | ins scene step =>
    refine tracks.quicken_total small fine fun text labelled => absent ?_
    rw [Task.defines?, labelled]
    rfl
  | classDef index slots =>
    have late : Task.classDef index slots ∉ Task.ofMethods p.pool := by
      intro member
      rcases Task.mem_ofMethods member with ⟨_, _, same⟩ | ⟨_, _, same⟩ <;> cases same
    exact tracks.addClass_total small (fun _ _ => Task.methods_before small split late) split fine
      (absent rfl)
  | global index =>
    have late : Task.global index ∉ Task.ofMethods p.pool := by
      intro member
      rcases Task.mem_ofMethods member with ⟨_, _, same⟩ | ⟨_, _, same⟩ <;> cases same
    refine tracks.addGlobal_total small (fun _ _ => Task.methods_before small split late) split fine
      fun text named => absent ?_
    rw [Task.defines?, named]
    rfl

theorem performAll_total (small : p.values.size < 2 ^ 32)
    (once : ((Task.all p).filterMap (Task.defines? p)).Nodup)
    (fine : ∀ task ∈ Task.all p, task.Fine p) (tracks : Tracks p done d)
    (split : Task.all p = done ++ rest) : ∃ d', d.performAll p rest = .ok d' := by
  induction rest generalizing done d with
  | nil => exact ⟨d, rfl⟩
  | cons task rest ih =>
    have member : task ∈ Task.all p := by rw [split]; simp
    obtain ⟨d₁, first⟩ := tracks.perform_total small once split (fine task member)
    have next := tracks.step (perform_step tracks.sound small first)
    obtain ⟨d', others⟩ := ih next (by rw [split, List.append_assoc]; rfl)
    refine ⟨d', ?_⟩
    rw [Draft.performAll, first]
    exact others

theorem distinct (tracks : Tracks p (Task.all p) d) (small : p.values.size < 2 ^ 32) :
    (p.labelNames ++ p.functionNames).Nodup :=
  (Task.once_iff small).mp tracks.once

theorem label_total_iff (tracks : Tracks p (Task.all p) d) (small : p.values.size < 2 ^ 32)
    {symbol : Symbol} {text : String} (named : d.symbols.name? symbol = some text) :
    (∃ target, d.label p symbol = .ok target) ↔ text ∈ p.labelNames := by
  constructor
  · rintro ⟨target, found⟩
    obtain ⟨offset, found, -⟩ := label_ok found
    rcases tracks.name_entry small named found with ⟨pos, label, -⟩ | ⟨_, _, _, _, same⟩
    · have labelled := (tracks.label?_eq_some_iff small).mp label
      exact (Program.mem_labelNames_iff small).mpr ⟨pos, labelled⟩
    · cases same
  · intro member
    obtain ⟨⟨_, pos⟩, listed, rfl⟩ := List.mem_map.mp member
    have sorted := (Task.labels_sublist p).subset (List.mem_map.mpr ⟨_, listed, rfl⟩)
    have denotes : d.Denotes (.name symbol) (.inl _) := named
    obtain ⟨entry, found⟩ := Option.isSome_iff_exists.mp (tracks.isSome denotes sorted)
    have resolved : d.resolve p (.name symbol) = .ok entry := by rw [Draft.resolve, found]
    rcases tracks.name_entry small named found with ⟨_, _, rfl⟩ | ⟨index, _, function, _, _⟩
    · exact bind_total resolved ⟨_, rfl⟩
    · -- a function of the same name would define it twice
      have defined := tracks.function?_eq_some_iff.mp function
      have shared := List.mem_filterMap.mpr ⟨index, defined⟩
      exact absurd shared (List.disjoint_of_nodup_append (tracks.distinct small) member)

theorem function_total_iff (tracks : Tracks p (Task.all p) d) (small : p.values.size < 2 ^ 32)
    {symbol : Symbol} {text : String} {arity : UInt32} (named : d.symbols.name? symbol = some text) :
    (∃ target, d.function p symbol arity = .ok target) ↔ ∃ index ∈ p.slots,
      p.methodName? index = some text ∧ ∃ m ∈ p.method? index, m.nargs = arity := by
  constructor
  · rintro ⟨target, found⟩
    obtain ⟨offset, found, -⟩ := function_ok found
    rcases tracks.name_entry small named found with ⟨_, _, same⟩ | ⟨index, m, function, method, same⟩
    · cases same
    · cases same
      obtain ⟨listed, name⟩ := tracks.function?_eq_some_iff.mp function
      exact ⟨index, listed, name, m, method, rfl⟩
  · rintro ⟨index, listed, name, m, method, rfl⟩
    have shared : text ∈ p.functionNames := List.mem_filterMap.mpr ⟨index, listed, name⟩
    have sorted := (Task.functions_sublist p).subset (List.mem_map.mpr ⟨text, shared, rfl⟩)
    have denotes : d.Denotes (.name symbol) (.inl text) := named
    obtain ⟨entry, found⟩ := Option.isSome_iff_exists.mp (tracks.isSome denotes sorted)
    have resolved : d.resolve p (.name symbol) = .ok entry := by rw [Draft.resolve, found]
    rcases tracks.name_entry small named found with ⟨pos, label, -⟩ | ⟨index', m', function, method', rfl⟩
    · have labelled := (tracks.label?_eq_some_iff small).mp label
      have member : text ∈ p.labelNames := (Program.mem_labelNames_iff small).mpr ⟨pos, labelled⟩
      exact absurd shared (List.disjoint_of_nodup_append (tracks.distinct small) member)
    · have same := function.symm.trans (tracks.function?_eq_some_iff.mpr ⟨listed, name⟩)
      cases same
      cases method.symm.trans method'
      exact bind_total resolved ⟨_, if_pos rfl⟩

theorem globalPlace_total_iff (tracks : Tracks p (Task.all p) d) {symbol : Symbol} {text : String}
    (named : d.symbols.name? symbol = some text) :
    (∃ place, d.globalPlace symbol = .ok place) ↔ text ∈ p.globalNames := by
  have place := tracks.global_place named
  constructor
  · rintro ⟨_, found⟩
    obtain ⟨n, found, -⟩ := globalPlace_ok found
    rw [place] at found
    obtain ⟨inside, same, -⟩ := List.idxOf?_eq_some_iff.mp found
    rw [← same]
    exact List.getElem_mem inside
  · intro member
    cases found : d.globals.idxOf? symbol with
    | none =>
      rw [place, Program.globalPlace?, List.idxOf?_eq_none_iff] at found
      exact absurd member found
    | some n => exact ⟨n.toUInt32, by rw [Draft.globalPlace, found]⟩

theorem classPlace_total_iff (tracks : Tracks p (Task.all p) d) (small : p.values.size < 2 ^ 32)
    {index : UInt64} : (∃ place, d.classPlace p index = .ok place) ↔
      ∃ c ∈ p.constant? index, c.classSlots?.isSome := by
  constructor
  · rintro ⟨place, found⟩
    obtain ⟨-, slots, stored⟩ := tracks.class_entry small (classPlace_ok found)
    exact ⟨_, stored, rfl⟩
  · rintro ⟨c, stored, isClass⟩
    cases c with
    | classDef slots =>
      have listed : Task.classDef index slots ∈ Task.all p := by
        refine List.mem_append_left _ (List.mem_append_right _ ?_)
        exact Task.mem_ofClasses_iff.mpr ⟨index, slots, (Program.mem_pool_iff small).mpr stored, rfl⟩
      have sorted : Sum.inr index ∈ (Task.all p).filterMap (Task.defines? p) :=
        List.mem_filterMap.mpr ⟨_, listed, rfl⟩
      have denotes : d.Denotes (.constant index) (.inr index) := rfl
      obtain ⟨entry, found⟩ := Option.isSome_iff_exists.mp (tracks.isSome denotes sorted)
      have resolved : d.resolve p (.constant index) = .ok entry := by rw [Draft.resolve, found]
      rcases tracks.constant_entry small found with ⟨m, method, -⟩ | ⟨_, _, rfl⟩
      · rw [Program.method?_eq_some_iff, stored] at method
        cases method
      · exact bind_total resolved ⟨_, rfl⟩
    | _ => cases isClass

theorem entry_total_iff (tracks : Tracks p (Task.all p) d) (small : p.values.size < 2 ^ 32) :
    (∃ entry, d.entry p = .ok entry) ↔ (p.method? p.entry).isSome := by
  constructor
  · rintro ⟨entry, found⟩
    obtain ⟨nargs, found⟩ := entry_ok found
    rcases tracks.constant_entry small found with ⟨m, method, -⟩ | ⟨_, _, same⟩
    · rw [method]
      rfl
    · cases same
  · intro isMethod
    obtain ⟨m, method⟩ := Option.isSome_iff_exists.mp isMethod
    have pooled := (Program.mem_pool_iff small).mpr (Program.method?_eq_some_iff.mp method)
    have listed : Task.method p.entry m ∈ Task.all p := by
      refine List.mem_append_left _ (List.mem_append_left _ ?_)
      exact Task.mem_ofMethods_iff.mpr ⟨p.entry, m, pooled, List.mem_cons_self⟩
    obtain ⟨offset, nargs, found⟩ := tracks.method_found small (List.append_nil _).symm listed
    exact ⟨offset, by rw [Draft.entry, found]⟩

theorem close_total_iff (tracks : Tracks p (Task.all p) d) (small : p.values.size < 2 ^ 32)
    {ins : Ins} {sketch : Sketch} (sketched : Sketched p d (.ins ins) sketch) :
    (∃ instr, d.close p sketch = .ok instr) ↔ p.Resolves ins := by
  have ready (instr : Instr) : ∃ i, d.close p (.ready instr) = .ok i := ⟨instr, rfl⟩
  have bound {α : Type} {first : Except LinkError α} {make : α → Instr} :
      (∃ instr, (first >>= fun a => pure (make a)) = .ok instr) ↔ ∃ a, first = .ok a := by
    cases first <;> simp [bind, Except.bind, pure, Except.pure]
  cases sketched with
  | object index => exact bound.trans (tracks.classPlace_total_iff small)
  | call arity named =>
    obtain ⟨text, string, named⟩ := named
    refine bound.trans ((tracks.function_total_iff small named).trans ?_)
    simp [Program.Resolves, string]
  | setGlobal named | getGlobal named =>
    obtain ⟨text, string, named⟩ := named
    refine bound.trans ((tracks.globalPlace_total_iff named).trans ?_)
    simp [Program.Resolves, string]
  | branch named | goto named =>
    obtain ⟨text, string, named⟩ := named
    refine bound.trans ((tracks.label_total_iff small named).trans ?_)
    simp [Program.Resolves, string]
  | _ => exact iff_of_true (ready _) trivial

theorem closeAll_total_iff (tracks : Tracks p (Task.all p) d) (small : p.values.size < 2 ^ 32) :
    (∃ instrs, d.closeAll p = .ok instrs) ↔ ∀ m ∈ p.methods, ∀ ins ∈ m.code, p.Resolves ins := by
  have body := tracks.body
  rw [Task.lines_all] at body
  constructor
  · rintro ⟨instrs, closed⟩ m member ins listed
    cases emits : p.emits (.ins ins) with
    | false => exact Program.resolves_of_silent emits
    | true =>
      have line : Line.ins ins ∈ p.lines.filter p.emits := by
        refine List.mem_filter.mpr ⟨Program.mem_lines_iff.mpr ⟨m, member, ?_⟩, emits⟩
        exact List.mem_cons_of_mem _ (List.mem_map_of_mem listed)
      obtain ⟨sketch, drawn, sketched⟩ := mem_forall₂ body line
      obtain ⟨instr, -, closed⟩ := mem_forall₂ (mapM_ok closed) drawn
      exact (tracks.close_total_iff small sketched).mp ⟨instr, closed⟩
  · intro resolves
    refine mapM_total fun sketch drawn => ?_
    obtain ⟨line, listed, sketched⟩ := mem_forall₂ body.flip drawn
    obtain ⟨m, member, inside⟩ := Program.mem_lines_iff.mp (List.mem_of_mem_filter listed)
    rcases List.mem_cons.mp inside with rfl | inside
    · cases sketched
      exact ⟨_, rfl⟩
    · obtain ⟨ins, coded, rfl⟩ := List.mem_map.mp inside
      exact (tracks.close_total_iff small sketched).mpr (resolves m member ins coded)

end Draft.Tracks

section
variable {p : Program} {image : Image}

theorem Program.WellFormed.of_link (small : p.values.size < 2 ^ 32) (linked : link p = .ok image) :
    p.WellFormed := by
  obtain ⟨d, instrs, entry, performed, closed, entered, -⟩ := link_eq_ok_iff.mp linked
  have tracks : Draft.Tracks p (Task.all p) d := (Draft.empty_tracks p).performAll small performed
  have fine := Draft.performAll_fine small (Draft.empty_sound p) performed
  obtain ⟨operands, members, globals⟩ := (Task.forall_fine_iff small).mp fine
  exact ⟨operands, members, globals, tracks.distinct small,
    (tracks.closeAll_total_iff small).mp ⟨instrs, closed⟩,
    (tracks.entry_total_iff small).mp ⟨entry, entered⟩⟩

theorem Program.WellFormed.links (formed : p.WellFormed) (small : p.values.size < 2 ^ 32) :
    ∃ image, link p = .ok image := by
  have fine := (Task.forall_fine_iff small).mpr ⟨formed.operands, formed.members, formed.globals⟩
  have once := (Task.once_iff small).mpr formed.distinct
  obtain ⟨d, performed⟩ := (Draft.empty_tracks p).performAll_total small once fine rfl
  have tracks : Draft.Tracks p (Task.all p) d := (Draft.empty_tracks p).performAll small performed
  obtain ⟨instrs, closed⟩ := (tracks.closeAll_total_iff small).mpr formed.references
  obtain ⟨entry, entered⟩ := (tracks.entry_total_iff small).mpr formed.entry
  exact ⟨_, link_eq_ok_iff.mpr ⟨d, instrs, entry, performed, closed, entered, rfl⟩⟩

/-- Linking gives an image for the well-formed programs and a reason for all others. -/
theorem link_accepts_iff (small : p.values.size < 2 ^ 32) :
    ((∃ image, link p = .ok image) ↔ p.WellFormed) ∧
      ((∃ e, link p = .error (.error e)) ↔ ¬ p.WellFormed) := by
  have accepts : (∃ image, link p = .ok image) ↔ p.WellFormed :=
    ⟨fun ⟨_, linked⟩ => .of_link small linked, fun formed => formed.links small⟩
  refine ⟨accepts, ?_⟩
  rw [← accepts]
  cases linked : link p with
  | ok image => simp
  | error fault =>
    obtain ⟨e, rfl⟩ := link_eq_error linked
    simp

/-- A class may list a method twice; a label may not share its name with a function. -/
theorem link_getter_accepts :
    (∃ image, link Program.getter = .ok image) ∧
    (∃ image, link { Program.getter with values := Program.getter.values.set! 7 (.classDef [6, 8, 8]) } =
      .ok image) ∧
    ∃ e, link { Program.getter with values := Program.getter.values.set! 1 (.str "main") } =
      .error (.error e) := by
  refine ⟨(link_accepts_iff ?_).1.mpr ?_, (link_accepts_iff ?_).1.mpr ?_, (link_accepts_iff ?_).2.mpr ?_⟩
  all_goals decide +kernel

end
end SlotVM
