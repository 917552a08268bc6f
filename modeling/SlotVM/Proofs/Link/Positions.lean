import SlotVM.Proofs.Link.Sketching

namespace SlotVM

section
variable {α : Type} {left right before after : List α} {a : α}

theorem split_left (split : left ++ right = before ++ a :: after) (absent : a ∉ right) :
    ∃ rest, left = before ++ a :: rest := by
  rcases List.append_eq_append_iff.mp split with ⟨mid, -, parts⟩ | ⟨mid, parts, tail⟩
  · exact absurd (by rw [parts]; simp) absent
  · cases mid with
    | nil => exact absurd (by rw [← List.nil_append right, ← tail]; simp) absent
    | cons b mid =>
      rw [List.cons_append, List.cons.injEq] at tail
      exact ⟨mid, tail.1 ▸ parts⟩

theorem split_right (split : left ++ right = before ++ a :: after) (absent : a ∉ left) :
    ∃ rest, before = left ++ rest ∧ right = rest ++ a :: after := by
  rcases List.append_eq_append_iff.mp split with ⟨mid, parts, tail⟩ | ⟨mid, parts, tail⟩
  · exact ⟨mid, parts, tail⟩
  · cases mid with
    | nil => exact ⟨[], by simpa using parts.symm, by simpa using tail.symm⟩
    | cons b mid =>
      rw [List.cons_append, List.cons.injEq] at tail
      exact absurd (by rw [parts, tail.1]; simp) absent

end

namespace Program

theorem map_pool (p : Program) : p.pool.map (·.2) = p.values.toList := by
  rw [pool, List.map_map]
  exact List.zipIdx_map_fst 0 _

theorem pool_split {p : Program} (small : p.values.size < 2 ^ 32)
    {earlier later : List (UInt64 × Constant)} {index : UInt64} {c : Constant}
    (split : p.pool = earlier ++ (index, c) :: later) :
    p.constant? index = some c ∧ earlier.map (·.2) = p.values.toList.take index.toNat := by
  have member : (index, c) ∈ p.pool := by rw [split]; simp
  have here : p.pool[earlier.length]? = some (index, c) := by rw [split]; simp
  have inside := (List.getElem?_eq_some_iff.mp here).1
  have length : p.pool.length = p.values.size := by simp [pool]
  have place : index.toNat = earlier.length := by
    simp only [pool, List.getElem?_map, List.getElem?_zipIdx, Option.map_map,
      Option.map_eq_some_iff] at here
    obtain ⟨_, -, same⟩ := here
    have same : (0 + earlier.length).toUInt64 = index := (Prod.mk.inj same).1
    rw [← same, Nat.zero_add, toNat_toUInt64 (by omega)]
  refine ⟨(mem_pool_iff small).mp member, ?_⟩
  rw [← map_pool, split, place, List.map_append, List.take_left' (by simp)]

end Program

namespace Task

theorem lines_ofMethod (index : UInt64) (m : Method) (count : Nat) :
    ((ofMethod index m).take count).filterMap line? = m.lines.take count := by
  have each : line? ∘ Task.ins (Draft.scene index m) = some ∘ Line.ins := rfl
  cases count with
  | zero => rfl
  | succ count =>
    rw [ofMethod, Method.lines, List.take_succ_cons, List.take_succ_cons, ← List.map_take,
      ← List.map_take, List.filterMap_cons, List.filterMap_map, each, List.filterMap_eq_map]
    rfl

theorem lines_ofMethods (pool : List (UInt64 × Constant)) :
    (ofMethods pool).filterMap line? = (pool.map (·.2)).flatMap Constant.lines := by
  induction pool with
  | nil => rfl
  | cons entry pool ih =>
    obtain ⟨index, c⟩ := entry
    cases c with
    | method m =>
      have lines := lines_ofMethod index m (ofMethod index m).length
      rw [List.take_length, List.take_of_length_le (by simp [ofMethod, Method.lines])] at lines
      simp [ofMethods, List.filterMap_append, lines, ih, Constant.lines]
    | _ => simpa [ofMethods, Constant.lines] using ih

theorem mem_ofMethods {pool : List (UInt64 × Constant)} {task : Task} (member : task ∈ ofMethods pool) :
    (∃ index m, task = .method index m) ∨ ∃ scene ins, task = .ins scene ins := by
  induction pool with
  | nil => cases member
  | cons entry pool ih =>
    obtain ⟨index, c⟩ := entry
    cases c with
    | method m =>
      simp only [ofMethods, ofMethod, List.cons_append, List.mem_cons, List.mem_append,
        List.mem_map] at member
      rcases member with rfl | ⟨ins, -, rfl⟩ | member
      · exact .inl ⟨index, m, rfl⟩
      · exact .inr ⟨_, ins, rfl⟩
      · exact ih member
    | _ => exact ih member

theorem mem_ofClasses {pool : List (UInt64 × Constant)} {task : Task} (member : task ∈ ofClasses pool) :
    ∃ index slots, task = .classDef index slots := by
  induction pool with
  | nil => cases member
  | cons entry pool ih =>
    obtain ⟨index, c⟩ := entry
    cases c with
    | classDef slots =>
      rcases List.mem_cons.mp member with rfl | member
      · exact ⟨index, slots, rfl⟩
      · exact ih member
    | _ => exact ih member

theorem classes_ofClasses (pool : List (UInt64 × Constant)) :
    (ofClasses pool).filterMap class? = (pool.map (·.2)).filterMap Constant.classSlots? := by
  induction pool with
  | nil => rfl
  | cons entry pool ih =>
    obtain ⟨index, c⟩ := entry
    cases c with
    | classDef slots => exact congrArg (slots :: ·) ih
    | _ => exact ih

theorem ofMethods_split {pool : List (UInt64 × Constant)} {before after : List Task} {task : Task}
    (split : ofMethods pool = before ++ task :: after) :
    ∃ earlier index m later count, pool = earlier ++ (index, .method m) :: later ∧
      before = ofMethods earlier ++ (ofMethod index m).take count ∧
      (ofMethod index m)[count]? = some task := by
  induction pool generalizing before with
  | nil => simp [ofMethods] at split
  | cons entry pool ih =>
    obtain ⟨index, c⟩ := entry
    cases c with
    | method m =>
      by_cases inside : before.length < (ofMethod index m).length
      · refine ⟨[], index, m, pool, before.length, rfl, ?_, ?_⟩
        · have head := congrArg (List.take before.length) split
          rw [ofMethods, List.take_append_of_le_length (by omega), List.take_left] at head
          exact head.symm
        · have here := congrArg (·[before.length]?) split
          simpa [ofMethods, List.getElem?_append_left inside] using here
      · have head := congrArg (List.take (ofMethod index m).length) split
        have tail := congrArg (List.drop (ofMethod index m).length) split
        rw [ofMethods, List.take_left, List.take_append_of_le_length (by omega)] at head
        rw [ofMethods, List.drop_left, List.drop_append_of_le_length (by omega)] at tail
        obtain ⟨earlier, index', m', later, count, rfl, rest, here⟩ := ih tail
        refine ⟨(index, .method m) :: earlier, index', m', later, count, rfl, ?_, here⟩
        have whole := List.take_append_drop (ofMethod index m).length before
        rw [← head, rest] at whole
        rw [ofMethods, List.append_assoc, whole]
    | _ =>
      obtain ⟨earlier, index', m', later, count, rfl, rest, here⟩ := ih split
      exact ⟨_ :: earlier, index', m', later, count, rfl, rest, here⟩

theorem ofClasses_split {pool : List (UInt64 × Constant)} {before after : List Task} {task : Task}
    (split : ofClasses pool = before ++ task :: after) :
    ∃ earlier index slots later, pool = earlier ++ (index, .classDef slots) :: later ∧
      before = ofClasses earlier ∧ task = .classDef index slots := by
  induction pool generalizing before with
  | nil => simp [ofClasses] at split
  | cons entry pool ih =>
    obtain ⟨index, c⟩ := entry
    cases c with
    | classDef slots =>
      cases before with
      | nil =>
        obtain ⟨same, -⟩ := List.cons.inj split
        exact ⟨[], index, slots, pool, rfl, rfl, same.symm⟩
      | cons first before =>
        obtain ⟨same, split⟩ := List.cons.inj split
        obtain ⟨earlier, index', slots', later, rfl, rfl, rfl⟩ := ih split
        exact ⟨(index, .classDef slots) :: earlier, index', slots', later, rfl, same ▸ rfl, rfl⟩
    | _ =>
      obtain ⟨earlier, index', slots', later, rfl, rest, same⟩ := ih split
      exact ⟨_ :: earlier, index', slots', later, rfl, rest, same⟩

section
variable {p : Program}

theorem filterMap_ofMethods {β : Type} {f : Task → Option β} (pool : List (UInt64 × Constant))
    (method : ∀ index m, f (.method index m) = none) (ins : ∀ scene ins, f (.ins scene ins) = none) :
    (ofMethods pool).filterMap f = [] := by
  rw [List.filterMap_eq_nil_iff]
  intro task member
  rcases mem_ofMethods member with ⟨index, m, rfl⟩ | ⟨scene, step, rfl⟩
  · exact method index m
  · exact ins scene step

theorem filterMap_ofClasses {β : Type} {f : Task → Option β} (pool : List (UInt64 × Constant))
    (classDef : ∀ index slots, f (.classDef index slots) = none) :
    (ofClasses pool).filterMap f = [] := by
  rw [List.filterMap_eq_nil_iff]
  intro task member
  obtain ⟨index, slots, rfl⟩ := mem_ofClasses member
  exact classDef index slots

theorem filterMap_globals {β : Type} {f : Task → Option β} (slots : List UInt64)
    (global : ∀ index, f (.global index) = none) : (slots.map Task.global).filterMap f = [] := by
  simp [global]

theorem lines_all (p : Program) : (all p).filterMap line? = p.lines := by
  rw [all, List.filterMap_append, List.filterMap_append, filterMap_ofClasses _ fun _ _ => rfl,
    filterMap_globals _ fun _ => rfl, lines_ofMethods, Program.map_pool]
  simp [Program.lines]

theorem classes_all (p : Program) : (all p).filterMap class? = p.classes := by
  rw [all, List.filterMap_append, List.filterMap_append,
    filterMap_ofMethods _ (fun _ _ => rfl) fun _ _ => rfl, filterMap_globals _ fun _ => rfl,
    classes_ofClasses, Program.map_pool]
  simp [Program.classes]

theorem globals_all (p : Program) : (all p).filterMap (global? p) = p.globalNames := by
  rw [all, List.filterMap_append, List.filterMap_append,
    filterMap_ofMethods _ (fun _ _ => rfl) fun _ _ => rfl, filterMap_ofClasses _ fun _ _ => rfl,
    List.filterMap_map]
  rfl

theorem all_split {before after : List Task} {task : Task} (small : p.values.size < 2 ^ 32)
    (split : all p = before ++ task :: after) (lined : task.line?.isSome) :
    ∃ index m count, p.method? index = some m ∧ (ofMethod index m)[count]? = some task ∧
      before.filterMap line? = p.linesBefore index ++ m.lines.take count := by
  have absent : task ∉ p.slots.map Task.global := by
    intro member
    obtain ⟨index, -, rfl⟩ := List.mem_map.mp member
    cases lined
  have absent' : task ∉ ofClasses p.pool := by
    intro member
    obtain ⟨index, slots, rfl⟩ := mem_ofClasses member
    cases lined
  obtain ⟨_, split⟩ := split_left split absent
  obtain ⟨_, split⟩ := split_left split absent'
  obtain ⟨earlier, index, m, later, count, pool, rfl, here⟩ := ofMethods_split split
  obtain ⟨stored, taken⟩ := Program.pool_split small pool
  refine ⟨index, m, count, Program.method?_eq_some_iff.mpr stored, here, ?_⟩
  rw [List.filterMap_append, lines_ofMethod, lines_ofMethods, taken]
  rfl

theorem all_split_method {before after : List Task} {index : UInt64} {m : Method}
    (small : p.values.size < 2 ^ 32) (split : all p = before ++ .method index m :: after) :
    p.method? index = some m ∧ p.endOffset 0 (before.filterMap line?) = p.start index := by
  obtain ⟨index', m', count, found, here, lines⟩ := all_split small split rfl
  cases count with
  | zero =>
    cases here
    refine ⟨found, ?_⟩
    rw [lines]
    simp [Program.start]
  | succ count => simp [ofMethod] at here

theorem all_split_ins {before after : List Task} {scene : Scene} {ins : Ins}
    (small : p.values.size < 2 ^ 32) (split : all p = before ++ .ins scene ins :: after) :
    ∃ pos, p.ins? pos = some ins ∧ p.endOffset 0 (before.filterMap line?) = p.place pos := by
  obtain ⟨index, m, count, found, here, lines⟩ := all_split small split rfl
  cases count with
  | zero => simp [ofMethod] at here
  | succ count =>
    have at_line : m.code[count]? = some ins := by
      simp only [ofMethod, List.getElem?_cons_succ, List.getElem?_map, Option.map_eq_some_iff] at here
      obtain ⟨_, at_line, same⟩ := here
      cases same
      exact at_line
    refine ⟨⟨index, count⟩, Program.ins?_eq_some_iff.mpr ⟨m, found, at_line⟩, ?_⟩
    rw [Program.place_eq found, lines]

theorem all_split_class {before after : List Task} {index : UInt64} {slots : List UInt64}
    (small : p.values.size < 2 ^ 32) (split : all p = before ++ .classDef index slots :: after) :
    p.constant? index = some (.classDef slots) ∧
      (before.filterMap class?).length = p.classRank index := by
  have absent : Task.classDef index slots ∉ p.slots.map Task.global := by simp
  have absent' : Task.classDef index slots ∉ ofMethods p.pool := by
    intro member
    rcases mem_ofMethods member with ⟨_, _, same⟩ | ⟨_, _, same⟩ <;> cases same
  obtain ⟨_, split⟩ := split_left split absent
  obtain ⟨rest, rfl, classes⟩ := split_right split absent'
  obtain ⟨earlier, _, _, later, pool, rfl, same⟩ := ofClasses_split classes
  cases same
  obtain ⟨stored, taken⟩ := Program.pool_split small pool
  refine ⟨stored, ?_⟩
  rw [List.filterMap_append, filterMap_ofMethods _ (fun _ _ => rfl) fun _ _ => rfl,
    classes_ofClasses, taken]
  rfl

end
end Task
end SlotVM
