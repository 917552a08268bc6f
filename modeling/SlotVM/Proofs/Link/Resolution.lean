import SlotVM.Proofs.Link.Positions
import SlotVM.Proofs.Link.Tracking

namespace SlotVM

theorem eq_of_nodup_filterMap {α β : Type} {f : α → Option β} {l : List α} {a b : α} {c : β}
    (nodup : (l.filterMap f).Nodup) (first : a ∈ l) (second : b ∈ l) (left : f a = some c)
    (right : f b = some c) : a = b := by
  induction l with
  | nil => cases first
  | cons x l ih =>
    have absent {y : α} (member : y ∈ l) (shared : f y = some c) (head : f x = some c) : False := by
      rw [List.filterMap_cons_some head] at nodup
      exact (List.nodup_cons.mp nodup).1 (List.mem_filterMap.mpr ⟨y, member, shared⟩)
    rcases List.mem_cons.mp first with rfl | tail <;> rcases List.mem_cons.mp second with rfl | tail'
    · rfl
    · exact (absent tail' right left).elim
    · exact (absent tail left right).elim
    · exact ih (nodup.sublist ((List.sublist_cons_self x l).filterMap f)) tail tail'

namespace Task

variable {p : Program}

theorem labels_sublist_ofMethod (index : UInt64) (m : Method) :
    ((p.methodLabels index m).map (Sum.inl ·.1)).Sublist
      ((ofMethod index m).filterMap (defines? p)) := by
  have texts : (p.methodLabels index m).map (Sum.inl (β := UInt64) ·.1) =
      m.code.filterMap fun step => (p.labelText? step).map .inl := by
    conv_rhs => rw [← List.zipIdx_map_fst 0 m.code, List.filterMap_map]
    rw [Program.methodLabels, List.map_filterMap]
    congr 1
    funext entry
    cases entry with
    | mk step line => simp [Function.comp_def]
  rw [texts, ofMethod, List.filterMap_cons, List.filterMap_map]
  exact List.sublist_cons_self _ _

theorem labels_sublist (p : Program) :
    (p.labels.map (Sum.inl ·.1)).Sublist ((all p).filterMap (defines? p)) := by
  have methods (pool : List (UInt64 × Constant)) :
      ((pool.flatMap p.constantLabels).map (Sum.inl ·.1)).Sublist
        ((ofMethods pool).filterMap (defines? p)) := by
    induction pool with
    | nil => exact List.Sublist.slnil
    | cons entry pool ih =>
      obtain ⟨index, c⟩ := entry
      cases c with
      | method m =>
        rw [List.flatMap_cons, List.map_append, ofMethods, List.filterMap_append]
        exact (labels_sublist_ofMethod index m).append ih
      | _ => exact ih
  rw [all, List.append_assoc, List.filterMap_append]
  exact (methods p.pool).trans (List.sublist_append_left _ _)

theorem functions_sublist (p : Program) :
    ((p.slots.filterMap p.methodName?).map Sum.inl).Sublist ((all p).filterMap (defines? p)) := by
  rw [all, List.filterMap_append, List.filterMap_map, List.map_filterMap]
  exact List.sublist_append_right _ _

end Task

namespace Draft.Tracks

variable {p : Program} {d : Draft}

theorem label?_eq_some_iff (tracks : Tracks p (Task.all p) d) (small : p.values.size < 2 ^ 32)
    {text : String} {pos : Position} :
    p.label? text = some pos ↔ p.labelName? pos = some text := by
  have nodup : (p.labels.map (·.1)).Nodup := by
    have once := tracks.once.sublist (Task.labels_sublist p)
    have split : p.labels.map (Sum.inl (β := UInt64) ·.1) = (p.labels.map (·.1)).map .inl := by
      rw [List.map_map]
      rfl
    rw [split] at once
    exact once.of_map _
  rw [← Program.mem_labels_iff small, Program.label?]
  constructor
  · intro found
    obtain ⟨before, after, same, -⟩ := List.lookup_eq_some_iff.mp found
    rw [same]
    simp
  · intro member
    cases found : p.labels.lookup text with
    | none => simpa using List.lookup_eq_none_iff.mp found _ member
    | some other =>
      obtain ⟨before, after, same, -⟩ := List.lookup_eq_some_iff.mp found
      have member' : (text, other) ∈ p.labels := by rw [same]; simp
      have unique := List.inj_on_of_nodup_map nodup member' member rfl
      rw [(Prod.mk.inj unique).2]

theorem function?_eq_some_iff (tracks : Tracks p (Task.all p) d) {text : String} {index : UInt64} :
    p.function? text = some index ↔ index ∈ p.slots ∧ p.methodName? index = some text := by
  have nodup : (p.slots.filterMap p.methodName?).Nodup :=
    (tracks.once.sublist (Task.functions_sublist p)).of_map _
  constructor
  · intro found
    exact ⟨List.mem_of_find?_eq_some found, by simpa using List.find?_some found⟩
  · rintro ⟨member, named⟩
    cases found : p.function? text with
    | none => simpa [named] using List.find?_eq_none.mp found index member
    | some other =>
      have named' : p.methodName? other = some text := by simpa using List.find?_some found
      rw [eq_of_nodup_filterMap nodup (List.mem_of_find?_eq_some found) member named' named]

theorem constant_entry (tracks : Tracks p (Task.all p) d) (small : p.values.size < 2 ^ 32)
    {index : UInt64} {entry : Entry} (found : d.find? (.constant index) = some entry) :
    (∃ m, p.method? index = some m ∧ entry = .method (p.start index) m.nargs) ∨
      ∃ slots, p.constant? index = some (.classDef slots) ∧ entry = .classDef (p.classRank index) := by
  obtain ⟨before, task, after, split, defines⟩ := tracks.entries _ _ found
  cases defines with
  | method index m =>
    obtain ⟨method, start⟩ := Task.all_split_method small split
    exact .inl ⟨m, method, by rw [start]⟩
  | classDef index slots =>
    obtain ⟨stored, rank⟩ := Task.all_split_class small split
    exact .inr ⟨slots, stored, by rw [rank]⟩

theorem method_entry (tracks : Tracks p (Task.all p) d) (small : p.values.size < 2 ^ 32)
    {index : UInt64} {m : Method} (method : p.method? index = some m) {entry : Entry}
    (found : d.find? (.constant index) = some entry) : entry = .method (p.start index) m.nargs := by
  rcases tracks.constant_entry small found with ⟨m', method', rfl⟩ | ⟨slots, stored, rfl⟩
  · rw [method, Option.some.injEq] at method'
    rw [method']
  · rw [Program.method?_eq_some_iff, stored] at method
    cases method

theorem class_entry (tracks : Tracks p (Task.all p) d) (small : p.values.size < 2 ^ 32)
    {index : UInt64} {place : Nat} (found : d.find? (.constant index) = some (.classDef place)) :
    place = p.classRank index ∧ ∃ slots, p.constant? index = some (.classDef slots) := by
  rcases tracks.constant_entry small found with ⟨m, -, same⟩ | ⟨slots, stored, same⟩
  · cases same
  · cases same
    exact ⟨rfl, slots, stored⟩

theorem name_entry (tracks : Tracks p (Task.all p) d) (small : p.values.size < 2 ^ 32)
    {symbol : Symbol} {text : String} {entry : Entry} (named : d.symbols.name? symbol = some text)
    (found : d.find? (.name symbol) = some entry) :
    (∃ pos, p.label? text = some pos ∧ entry = .label (p.place pos)) ∨
      ∃ index m, p.function? text = some index ∧ p.method? index = some m ∧
        entry = .method (p.start index) m.nargs := by
  obtain ⟨before, task, after, split, defines⟩ := tracks.entries _ _ found
  cases defines with
  | label scene named' =>
    obtain ⟨text', string, named'⟩ := named'
    obtain rfl : text = text' := Option.some.inj (named.symm.trans named')
    obtain ⟨pos, here, place⟩ := Task.all_split_ins small split
    refine .inl ⟨pos, (tracks.label?_eq_some_iff small).mpr ?_, by rw [place]⟩
    simp [Program.labelName?, here, Program.labelText?, string]
  | @function index m _ _ method named' found' =>
    obtain ⟨text', string, named'⟩ := named'
    obtain rfl : text = text' := Option.some.inj (named.symm.trans named')
    have listed : Task.global index ∈ Task.all p := by rw [split]; simp
    refine .inr ⟨index, m, tracks.function?_eq_some_iff.mpr ⟨?_, ?_⟩, method, ?_⟩
    · simp only [Task.all, List.mem_append, List.mem_map] at listed
      rcases listed with (listed | listed) | ⟨_, listed, same⟩
      · rcases Task.mem_ofMethods listed with ⟨_, _, same⟩ | ⟨_, _, same⟩ <;> cases same
      · obtain ⟨_, _, same⟩ := Task.mem_ofClasses listed
        cases same
      · cases same
        exact listed
    · simp [Program.methodName?, method, string]
    · exact tracks.method_entry small method found'

theorem global_place (tracks : Tracks p (Task.all p) d) {symbol : Symbol} {text : String}
    (named : d.symbols.name? symbol = some text) :
    d.globals.idxOf? symbol = p.globalPlace? text := by
  have names := tracks.globals
  rw [Task.globals_all] at names
  have listed : d.globals.idxOf? symbol = d.globals.toList.idxOf? symbol := by
    rw [← List.idxOf?_toArray]
  rw [listed, Program.globalPlace?]
  generalize p.globalNames = texts at names
  generalize d.globals.toList = symbols at names
  induction names with
  | nil => rfl
  | @cons first other _ _ here _ ih =>
    have same : (other == symbol) = (first == text) := by
      rw [Bool.eq_iff_iff, beq_iff_eq, beq_iff_eq]
      constructor
      · rintro rfl
        exact Option.some.inj (here.symm.trans named)
      · rintro rfl
        exact tracks.sound.symbols.symbol_unique here named
    rw [List.idxOf?_cons, List.idxOf?_cons, same, ih]

theorem class_laid (tracks : Tracks p (Task.all p) d) {index : UInt64} {slots : List UInt64}
    (stored : p.constant? index = some (.classDef slots)) :
    ∃ layout, d.classes.get? (p.classRank index) = some layout ∧ Laid p d slots layout := by
  have laid := tracks.classes
  rw [Task.classes_all] at laid
  obtain ⟨inside, here⟩ := List.getElem?_eq_some_iff.mp (Program.classes_classRank stored)
  have inside' := laid.length_eq ▸ inside
  refine ⟨d.classes.classes.toList[p.classRank index], ?_, ?_⟩
  · rw [ClassTable.get?, ← Array.getElem?_toList, List.getElem?_eq_getElem inside']
  · have pair := (List.forall₂_iff_get.mp laid).2 (p.classRank index) inside inside'
    simpa [here] using pair

end Draft.Tracks

theorem Draft.Laid.nvars {p : Program} {d : Draft} {slots : List UInt64} {layout : ClassLayout}
    (laid : Laid p d slots layout) : layout.nvars = slots.countP p.isVariable := by
  obtain ⟨decls, rfl, declared⟩ := laid
  change decls.countP SlotDecl.isVar = _
  induction declared with
  | nil => rfl
  | cons declares _ ih =>
    rw [List.countP_cons, List.countP_cons, ih]
    cases declares with
    | var slot => simp [SlotDecl.isVar, Program.isVariable, slot]
    | method method =>
      simp [SlotDecl.isVar, Program.isVariable, Program.method?_eq_some_iff.mp method]
end SlotVM
