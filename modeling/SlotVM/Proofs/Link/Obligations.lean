import SlotVM.Proofs.Link.Listing
import SlotVM.Proofs.Source.WellFormed

namespace SlotVM

namespace Program

variable {p : Program}

theorem constant_eq_ok_iff {index : UInt64} {expected : String} {c : Constant} :
    p.constant index expected = .ok c ↔ p.constant? index = some c := by
  refine ⟨constant_ok, fun found => ?_⟩
  rw [constant, found]

theorem string_eq_ok_iff {index : UInt64} {text : String} :
    p.string index = .ok text ↔ p.string? index = some text := by
  refine ⟨string_ok, fun found => ?_⟩
  rw [string?_eq_some_iff] at found
  exact bind_eq_ok.mpr ⟨.str text, constant_eq_ok_iff.mpr found, rfl⟩

end Program

theorem Draft.toNat_frameSize (index : UInt64) (m : Method) :
    (Draft.scene index m).frameSize.toNat = m.frameSize := by
  have bound := Nat.min_le_right (m.nargs.toNat + m.nlocals.toNat) (2 ^ 32 - 1)
  exact toNat_toUInt32 (by omega)

/-- The part of well-formedness that a task looks at by itself. -/
def Task.Fine (p : Program) : Task → Prop
  | .method _ _ => True
  | .ins scene step => p.Fits scene.frameSize.toNat step
  | .classDef _ slots => ∀ index ∈ slots, p.IsMember index
  | .global index => p.IsMember index

namespace Draft

section
variable {p : Program} {d d' : Draft}

theorem Names.isSome {symbol : Symbol} {index : UInt64} (named : Names p d symbol index) :
    (p.string? index).isSome := by
  obtain ⟨text, string, -⟩ := named
  rw [string]
  rfl

theorem intern_isSome (sound : d.Sound p) (small : p.values.size < 2 ^ 32) {index : UInt64} {α : Type}
    {a : α} {rest : Draft × Symbol → Except LinkError α} (done : (d.intern p index >>= rest) = .ok a) :
    (p.string? index).isSome := by
  obtain ⟨⟨d₁, symbol⟩, interned, -⟩ := bind_eq_ok.mp done
  exact (intern_ok sound small interned).2.isSome

theorem checkLocal_ok {scene : Scene} {index : UInt32} {u : Unit}
    (checked : d.checkLocal p scene index = .ok u) : index.toNat < scene.frameSize.toNat := by
  unfold checkLocal at checked
  split at checked
  · assumption
  · cases checked

theorem quicken_fits (sound : d.Sound p) (small : p.values.size < 2 ^ 32) {scene : Scene} {ins : Ins}
    (quickened : d.quicken p scene ins = .ok d') : p.Fits scene.frameSize.toNat ins := by
  cases ins with
  | lit idx =>
    obtain ⟨c, constant, quickened⟩ := bind_eq_ok.mp quickened
    refine ⟨c, p.constant_ok constant, ?_⟩
    cases c with
    | int _ | null => rfl
    | _ => cases quickened
  | printf format arity =>
    obtain ⟨⟨d₁, place⟩, formatted, -⟩ := bind_eq_ok.mp quickened
    obtain ⟨-, text, string, -⟩ := format_ok sound small formatted
    exact Option.isSome_iff_exists.mpr ⟨text, string⟩
  | setLocal idx | getLocal idx =>
    obtain ⟨_, checked, -⟩ := bind_eq_ok.mp quickened
    exact checkLocal_ok checked
  | array | object index | ret | drop => trivial
  | _ => exact intern_isSome sound small quickened

theorem Declares.isMember {index : UInt64} {decl : SlotDecl} (declares : Declares p d index decl) :
    p.IsMember index := by
  cases declares with
  | var slot named =>
    obtain ⟨text, string, -⟩ := named
    exact Program.isMember_of_variable slot string
  | method method named _ =>
    obtain ⟨text, string, -⟩ := named
    exact Program.isMember_of_method (Program.method?_eq_some_iff.mp method) string

theorem addGlobal_isMember (sound : d.Sound p) (small : p.values.size < 2 ^ 32) {index : UInt64}
    (added : d.addGlobal p index = .ok d') : p.IsMember index := by
  obtain ⟨c, constant, added⟩ := bind_eq_ok.mp added
  have stored := p.constant_ok constant
  cases c with
  | method m =>
    obtain ⟨entry, -, added⟩ := bind_eq_ok.mp added
    obtain ⟨text, string⟩ := Option.isSome_iff_exists.mp (intern_isSome sound small added)
    exact Program.isMember_of_method stored string
  | slot name =>
    obtain ⟨text, string⟩ := Option.isSome_iff_exists.mp (intern_isSome sound small added)
    exact Program.isMember_of_variable stored string
  | _ => cases added

theorem perform_fine (sound : d.Sound p) (small : p.values.size < 2 ^ 32) {task : Task}
    (performed : d.perform p task = .ok d') : task.Fine p := by
  cases task with
  | method index m => trivial
  | ins scene ins => exact quicken_fits sound small performed
  | classDef index slots =>
    obtain ⟨⟨d₁, decls⟩, declared, -⟩ := bind_eq_ok.mp performed
    obtain ⟨-, declares⟩ := declareAll_ok sound small declared
    intro member listed
    obtain ⟨decl, -, declared⟩ := mem_forall₂ declares listed
    exact declared.isMember
  | global index => exact addGlobal_isMember sound small performed

theorem performAll_fine (small : p.values.size < 2 ^ 32) {tasks : List Task} (sound : d.Sound p)
    (performed : d.performAll p tasks = .ok d') : ∀ task ∈ tasks, task.Fine p := by
  induction tasks generalizing d with
  | nil => simp
  | cons task tasks ih =>
    unfold Draft.performAll at performed
    cases first : d.perform p task with
    | error e => simp [first] at performed
    | ok d₁ =>
      rw [first] at performed
      have sound' := sound.grows (perform_step sound small first).grows
      exact List.forall_mem_cons.mpr ⟨perform_fine sound small first, ih sound' performed⟩

end
end Draft

theorem nodup_iff_sides {α β : Type} {l : List (α ⊕ β)} :
    l.Nodup ↔ (l.filterMap Sum.getLeft?).Nodup ∧ (l.filterMap Sum.getRight?).Nodup := by
  constructor
  · intro nodup
    refine ⟨nodup.filterMap ?_, nodup.filterMap ?_⟩
    · intro a a' b first second
      rw [Sum.getLeft?_eq_some_iff.mp first, Sum.getLeft?_eq_some_iff.mp second]
    · intro a a' b first second
      rw [Sum.getRight?_eq_some_iff.mp first, Sum.getRight?_eq_some_iff.mp second]
  · rintro ⟨left, right⟩
    induction l with
    | nil => exact List.nodup_nil
    | cons side l ih =>
      cases side with
      | inl a =>
        obtain ⟨absent, left⟩ := List.nodup_cons.mp left
        refine List.nodup_cons.mpr ⟨fun member => absent ?_, ih left right⟩
        exact List.mem_filterMap.mpr ⟨.inl a, member, rfl⟩
      | inr b =>
        obtain ⟨absent, right⟩ := List.nodup_cons.mp right
        refine List.nodup_cons.mpr ⟨fun member => absent ?_, ih left right⟩
        exact List.mem_filterMap.mpr ⟨.inr b, member, rfl⟩

theorem Program.nodup_pool {p : Program} (small : p.values.size < 2 ^ 32) :
    (p.pool.map (·.1)).Nodup := by
  have indices : p.pool.map (·.1) = (List.range p.values.size).map Nat.toUInt64 := by
    rw [pool, List.map_map, List.range_eq_range', ← Array.length_toList, ← List.zipIdx_map_snd,
      List.map_map]
    rfl
  rw [indices]
  refine List.Nodup.map_on ?_ List.nodup_range
  intro a inside b inside' same
  rw [List.mem_range] at inside inside'
  rw [← toNat_toUInt64 (n := a) (by omega), same, toNat_toUInt64 (by omega)]

namespace Task

variable {p : Program}

theorem mem_ofMethods_iff {pool : List (UInt64 × Constant)} {task : Task} :
    task ∈ ofMethods pool ↔ ∃ index m, (index, .method m) ∈ pool ∧ task ∈ ofMethod index m := by
  induction pool with
  | nil => simp [ofMethods]
  | cons entry pool ih =>
    obtain ⟨index, c⟩ := entry
    cases c <;> simp [ofMethods, ih, or_and_right, exists_or]

theorem mem_ofClasses_iff {pool : List (UInt64 × Constant)} {task : Task} :
    task ∈ ofClasses pool ↔ ∃ index slots, (index, .classDef slots) ∈ pool ∧ task = .classDef index slots := by
  induction pool with
  | nil => simp [ofClasses]
  | cons entry pool ih =>
    obtain ⟨index, c⟩ := entry
    cases c <;> simp [ofClasses, ih, or_and_right, exists_or]

theorem forall_fine_iff (small : p.values.size < 2 ^ 32) : (∀ task ∈ all p, task.Fine p) ↔
    (∀ m ∈ p.methods, ∀ step ∈ m.code, p.Fits m.frameSize step) ∧
    (∀ slots ∈ p.classes, ∀ index ∈ slots, p.IsMember index) ∧ ∀ index ∈ p.slots, p.IsMember index := by
  have methods : (∀ task ∈ ofMethods p.pool, task.Fine p) ↔
      ∀ m ∈ p.methods, ∀ step ∈ m.code, p.Fits m.frameSize step := by
    constructor
    · intro fine m member step listed
      obtain ⟨index, found⟩ := (Program.mem_methods_iff small).mp member
      have pooled := (Program.mem_pool_iff small).mpr (Program.method?_eq_some_iff.mp found)
      have task := fine (.ins (Draft.scene index m) step)
        (mem_ofMethods_iff.mpr ⟨index, m, pooled, by simp [ofMethod, listed]⟩)
      rwa [Fine, Draft.toNat_frameSize] at task
    · intro fits task member
      obtain ⟨index, m, pooled, listed⟩ := mem_ofMethods_iff.mp member
      have found := Program.method?_eq_some_iff.mpr ((Program.mem_pool_iff small).mp pooled)
      rcases List.mem_cons.mp listed with rfl | listed
      · trivial
      · obtain ⟨step, inside, rfl⟩ := List.mem_map.mp listed
        rw [Fine, Draft.toNat_frameSize]
        exact fits m ((Program.mem_methods_iff small).mpr ⟨index, found⟩) step inside
  have classes : (∀ task ∈ ofClasses p.pool, task.Fine p) ↔
      ∀ slots ∈ p.classes, ∀ index ∈ slots, p.IsMember index := by
    constructor
    · intro fine slots member
      obtain ⟨index, stored⟩ := (Program.mem_classes_iff small).mp member
      exact fine (.classDef index slots)
        (mem_ofClasses_iff.mpr ⟨index, slots, (Program.mem_pool_iff small).mpr stored, rfl⟩)
    · intro members task member
      obtain ⟨index, slots, pooled, rfl⟩ := mem_ofClasses_iff.mp member
      exact members slots
        ((Program.mem_classes_iff small).mpr ⟨index, (Program.mem_pool_iff small).mp pooled⟩)
  rw [all, List.forall_mem_append, List.forall_mem_append, List.forall_mem_map, methods, classes,
    and_assoc]
  rfl

def name? (p : Program) (task : Task) : Option String := (task.defines? p).bind Sum.getLeft?

def constant? (p : Program) (task : Task) : Option UInt64 := (task.defines? p).bind Sum.getRight?

theorem names_ofMethod (index : UInt64) (m : Method) :
    (ofMethod index m).filterMap (name? p) = (p.methodLabels index m).map (·.1) := by
  have texts : (p.methodLabels index m).map (·.1) = m.code.filterMap p.labelText? := by
    conv_rhs => rw [← List.zipIdx_map_fst 0 m.code, List.filterMap_map]
    rw [Program.methodLabels, List.map_filterMap]
    congr 1
    funext entry
    simp [Function.comp_def]
  rw [texts, ofMethod, List.filterMap_cons_none rfl, List.filterMap_map]
  congr 1
  funext step
  cases labelled : p.labelText? step <;> simp [name?, defines?, labelled]

theorem names_ofMethods (pool : List (UInt64 × Constant)) :
    (ofMethods pool).filterMap (name? p) = (pool.flatMap p.constantLabels).map (·.1) := by
  induction pool with
  | nil => rfl
  | cons entry pool ih =>
    obtain ⟨index, c⟩ := entry
    cases c with
    | method m =>
      rw [ofMethods, List.filterMap_append, names_ofMethod, ih, List.flatMap_cons, List.map_append]
      rfl
    | _ => exact ih

theorem names_all (p : Program) :
    (all p).filterMap (name? p) = p.labelNames ++ p.functionNames := by
  have functions : (p.slots.map Task.global).filterMap (name? p) = p.functionNames := by
    rw [List.filterMap_map, Program.functionNames]
    congr 1
    funext index
    cases named : p.methodName? index <;> simp [name?, defines?, named]
  rw [all, List.filterMap_append, List.filterMap_append, names_ofMethods,
    filterMap_ofClasses _ fun _ _ => rfl, functions, List.append_nil]
  rfl

theorem constants_ofMethods (pool : List (UInt64 × Constant)) :
    ((ofMethods pool).filterMap (constant? p)).Sublist (pool.map (·.1)) := by
  induction pool with
  | nil => exact List.Sublist.slnil
  | cons entry pool ih =>
    obtain ⟨index, c⟩ := entry
    cases c with
    | method m =>
      have own : (ofMethod index m).filterMap (constant? p) = [index] := by
        have head : constant? p (.method index m) = some index := rfl
        rw [ofMethod, List.filterMap_cons_some head, List.filterMap_map, List.filterMap_eq_nil_iff.mpr]
        intro step _
        cases labelled : p.labelText? step <;> simp [constant?, defines?, labelled]
      rw [ofMethods, List.filterMap_append, own]
      exact ih.cons_cons index
    | _ => exact ih.cons index

theorem constants_ofClasses (pool : List (UInt64 × Constant)) :
    ((ofClasses pool).filterMap (constant? p)).Sublist (pool.map (·.1)) := by
  induction pool with
  | nil => exact List.Sublist.slnil
  | cons entry pool ih =>
    obtain ⟨index, c⟩ := entry
    cases c with
    | classDef slots => exact ih.cons_cons index
    | _ => exact ih.cons index

theorem nodup_constants (small : p.values.size < 2 ^ 32) :
    ((all p).filterMap (constant? p)).Nodup := by
  have pool := Program.nodup_pool small
  have functions : (p.slots.map Task.global).filterMap (constant? p) = [] := by
    refine filterMap_globals _ fun index => ?_
    cases named : p.methodName? index <;> simp [constant?, defines?, named]
  rw [all, List.filterMap_append, List.filterMap_append, functions, List.append_nil]
  refine (pool.sublist (constants_ofMethods _)).append (pool.sublist (constants_ofClasses _)) ?_
  -- no constant is both a method and a class
  intro index first second
  obtain ⟨task, member, defined⟩ := List.mem_filterMap.mp first
  obtain ⟨task', member', defined'⟩ := List.mem_filterMap.mp second
  obtain ⟨index', m, pooled, listed⟩ := mem_ofMethods_iff.mp member
  obtain ⟨_, slots, pooled', rfl⟩ := mem_ofClasses_iff.mp member'
  cases defined'
  rcases List.mem_cons.mp listed with rfl | listed
  · cases defined
    rw [Program.mem_pool_iff small] at pooled pooled'
    rw [pooled] at pooled'
    cases pooled'
  · obtain ⟨step, -, rfl⟩ := List.mem_map.mp listed
    cases labelled : p.labelText? step <;> simp [constant?, defines?, labelled] at defined

theorem once_iff (small : p.values.size < 2 ^ 32) :
    ((all p).filterMap (defines? p)).Nodup ↔ (p.labelNames ++ p.functionNames).Nodup := by
  rw [nodup_iff_sides, List.filterMap_filterMap, List.filterMap_filterMap, ← names_all]
  exact and_iff_left (nodup_constants small)

theorem fresh_of_split {done rest : List Task} {task : Task} {sort : String ⊕ UInt64}
    (once : ((all p).filterMap (defines? p)).Nodup) (split : all p = done ++ task :: rest)
    (sorted : task.defines? p = some sort) : sort ∉ done.filterMap (defines? p) := by
  rw [split, List.filterMap_append, List.filterMap_cons_some sorted] at once
  intro member
  exact (List.disjoint_of_nodup_append once) member List.mem_cons_self

theorem methods_before {done rest : List Task} {task : Task} (small : p.values.size < 2 ^ 32)
    (split : all p = done ++ task :: rest) (late : task ∉ ofMethods p.pool) {index : UInt64}
    {m : Method} (method : p.method? index = some m) : .method index m ∈ done := by
  rw [all, List.append_assoc] at split
  obtain ⟨between, rfl, -⟩ := split_right split late
  have pooled := (Program.mem_pool_iff small).mpr (Program.method?_eq_some_iff.mp method)
  have first : Task.method index m ∈ ofMethod index m := List.mem_cons_self
  exact List.mem_append_left _ (mem_ofMethods_iff.mpr ⟨index, m, pooled, first⟩)

end Task

end SlotVM
