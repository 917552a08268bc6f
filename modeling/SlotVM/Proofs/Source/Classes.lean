import SlotVM.Proofs.Link.Listing
import SlotVM.Proofs.Source.Machine

namespace SlotVM

section
variable {τ σ : Type}

def Member.map (f : τ → σ) : Member τ → Member σ
  | .var index => .var index
  | .code target => .code (f target)

def Selector.map (f : τ → σ) (slot : Selector τ) : Selector σ where
  name := slot.name
  declares index := (slot.declares index).map (Member.map f)

@[simp] theorem Selector.map_name (f : τ → σ) (slot : Selector τ) :
    (slot.map f).name = slot.name := rfl

def Store.Called.map (f : τ → σ) : Store.Called τ → Store.Called σ
  | .effect e => .effect e
  | .enter target => .enter (f target)

namespace Heap

theorem lookupFrom_map (h : Heap) (slot : Selector τ) (f : τ → σ) (fuel : Nat) (object : Value) :
    h.lookupFrom (slot.map f) fuel object =
      (h.lookupFrom slot fuel object).map fun (owner, member) => (owner, member.map f) := by
  induction fuel generalizing object with
  | zero => rfl
  | succ fuel ih =>
    unfold lookupFrom
    cases h.shape? object with
    | error c => rfl
    | ok shape =>
      cases shape with
      | none =>
        simp only [wrongType]
        cases orCrash (h.typeName object) <;> rfl
      | some shape =>
        cases shape with
        | array len =>
          simp only [wrongType]
          cases orCrash (h.typeName object) <;> rfl
        | object index =>
          simp only [Selector.map]
          cases slot.declares index with
          | some member => rfl
          | none =>
            cases h.parent object with
            | error c => rfl
            | ok parent =>
              by_cases null : parent.isNull
              · simp [null, Except.map]
              · simp only [null, Option.map_none, Bool.false_eq_true, if_false]
                exact ih parent

theorem lookup_map (h : Heap) (receiver : Value) (slot : Selector τ) (f : τ → σ) :
    h.lookup receiver (slot.map f) =
      (h.lookup receiver slot).map fun (owner, member) => (owner, member.map f) := by
  unfold lookup
  by_cases null : receiver.isNull
  · simp [null, Selector.map, Except.map]
  · simp only [null, Bool.false_eq_true, if_false]
    exact h.lookupFrom_map slot f _ receiver

theorem declares_of_lookupFrom {h : Heap} {slot : Selector τ} {fuel : Nat} {object owner : Value}
    {member : Member τ} (found : h.lookupFrom slot fuel object = .ok (owner, member)) :
    ∃ index, slot.declares index = some member := by
  induction fuel generalizing object with
  | zero => cases found
  | succ fuel ih =>
    have wrong (usage : Usage) (v : Value) : h.wrongType usage v ≠ .ok (owner, member) := by
      unfold wrongType
      cases orCrash (h.typeName v) <;> exact nofun
    unfold lookupFrom at found
    cases shape : h.shape? object with
    | error c => simp [shape] at found
    | ok o =>
      cases o with
      | none => exact absurd (by simpa [shape] using found) (wrong _ _)
      | some shape' =>
        cases shape' with
        | array len => exact absurd (by simpa [shape] using found) (wrong _ _)
        | object index =>
          cases declares : slot.declares index with
          | some here =>
            simp only [shape, declares, Except.ok.injEq, Prod.mk.injEq] at found
            obtain ⟨rfl, rfl⟩ := found
            exact ⟨index, declares⟩
          | none =>
            cases parent : h.parent object with
            | error c => simp [shape, declares, parent] at found
            | ok above =>
              by_cases null : above.isNull
              · simp [shape, declares, parent, null] at found
              · simp only [shape, declares, parent, null, Bool.false_eq_true, if_false] at found
                exact ih found

theorem declares_of_lookup {h : Heap} {slot : Selector τ} {receiver owner : Value}
    {member : Member τ} (found : h.lookup receiver slot = .ok (owner, member)) :
    ∃ index, slot.declares index = some member := by
  unfold lookup at found
  by_cases null : receiver.isNull
  · simp [null] at found
  · simp only [null, Bool.false_eq_true, if_false] at found
    exact declares_of_lookupFrom found

theorem declares_of_findMethod {h : Heap} {slot : Selector τ} {receiver : Value} {target : τ}
    (found : h.findMethod receiver slot = .ok target) :
    ∃ index, slot.declares index = some (.code target) := by
  unfold findMethod at found
  cases looked : h.lookup receiver slot with
  | error f => simp [looked, bind, Except.bind] at found
  | ok pair =>
    obtain ⟨owner, member⟩ := pair
    cases member with
    | var place => simp [looked, bind, Except.bind] at found
    | code target' =>
      simp only [looked, bind, Except.bind, pure, Except.pure, Except.ok.injEq] at found
      subst found
      exact declares_of_lookup looked

theorem findVar_map (h : Heap) (receiver : Value) (slot : Selector τ) (f : τ → σ) :
    h.findVar receiver (slot.map f) = h.findVar receiver slot := by
  unfold findVar
  rw [lookup_map]
  cases h.lookup receiver slot with
  | error e => rfl
  | ok found =>
    obtain ⟨owner, member⟩ := found
    cases member <;> rfl

theorem findMethod_map (h : Heap) (receiver : Value) (slot : Selector τ) (f : τ → σ) :
    h.findMethod receiver (slot.map f) = (h.findMethod receiver slot).map f := by
  unfold findMethod
  rw [lookup_map]
  cases h.lookup receiver slot with
  | error e => rfl
  | ok found =>
    obtain ⟨owner, member⟩ := found
    cases member <;> rfl

end Heap

namespace Store

theorem getSlot_map (s : Store) (slot : Selector τ) (f : τ → σ) :
    s.getSlot (slot.map f) = s.getSlot slot := by
  unfold getSlot
  simp only [Heap.findVar_map]

theorem setSlot_map (s : Store) (slot : Selector τ) (f : τ → σ) :
    s.setSlot (slot.map f) = s.setSlot slot := by
  unfold setSlot
  simp only [Heap.findVar_map]

theorem callSlot_map (s : Store) (arity : Nat) (slot : Selector τ) (f : τ → σ) :
    s.callSlot arity (slot.map f) = (s.callSlot arity slot).map f := by
  unfold callSlot
  simp only [Heap.findMethod_map, Selector.map_name]
  by_cases zero : arity = 0
  · simp [zero, Called.map]
  · simp only [zero, if_false]
    cases s.peek? (arity - 1) with
    | none => rfl
    | some receiver =>
      cases kind : receiver.kind? with
      | none => simp [kind, Called.map]
      | some k =>
        cases k with
        | int => simp [kind, Called.map]
        | null => simp [kind, Called.map]
        | object =>
          simp only [kind]
          cases s.heap.shape? receiver with
          | error c => rfl
          | ok shape =>
            cases s.heap.findMethod receiver slot with
            | error e => rcases shape with _ | _ | _ <;> rfl
            | ok target => rcases shape with _ | _ | _ <;> rfl

theorem declares_of_callSlot {s : Store} {arity : Nat} {slot : Selector τ} {target : τ}
    (called : s.callSlot arity slot = .enter target) :
    ∃ index, slot.declares index = some (.code target) := by
  unfold callSlot at called
  split at called
  · cases called
  · split at called
    · cases called
    · split at called
      · cases called
      · cases called
      · cases called
      · split at called
        · cases called
        · cases called
        · split at called
          · cases called
          · rename_i found
            cases called
            exact Heap.declares_of_findMethod found

end Store
end

theorem Program.method_of_member? {p : Program} {name : String} {next : Nat} {members : List UInt64}
    {index : UInt64} (found : p.member? name next members = some (.code index)) :
    ∃ m, p.method? index = some m := by
  fun_induction p.member? name next members with
  | case1 => cases found
  | case2 => cases found
  | case3 _ _ _ _ _ _ ih => exact ih found
  | case4 _ _ _ _ stored =>
    cases found
    exact ⟨_, Program.method?_eq_some_iff.mpr stored⟩
  | case5 _ _ _ _ _ _ ih => exact ih found
  | case6 _ _ _ _ _ ih => exact ih found

theorem Program.method_of_selector {p : Program} {name : String} {index : Nat} {method : UInt64}
    (declares : (p.selector name).declares index = some (.code method)) :
    ∃ m, p.method? method = some m := by
  obtain ⟨members, -, found⟩ := Option.bind_eq_some_iff.mp declares
  exact method_of_member? found

theorem Program.place_lt_of_member? {p : Program} {name : String} {next place : Nat}
    {members : List UInt64} (found : p.member? name next members = some (.var place)) :
    place < next + members.countP p.isVariable := by
  fun_induction p.member? name next members with
  | case1 => cases found
  | case2 next index members _ stored =>
    have counted : p.isVariable index = true := by simp [isVariable, stored]
    cases found
    rw [List.countP_cons_of_pos counted]
    omega
  | case3 next index members _ stored _ ih =>
    have counted : p.isVariable index = true := by simp [isVariable, stored]
    rw [List.countP_cons_of_pos counted]
    have bound := ih found
    omega
  | case4 => cases found
  | case5 next index members _ stored _ ih =>
    have method : ¬ p.isVariable index = true := by simp [isVariable, stored]
    rw [List.countP_cons_of_neg method]
    exact ih found
  | case6 next index members _ _ ih =>
    have bound := ih found
    rw [List.countP_cons]
    omega

theorem Program.nvars_shapes (p : Program) (index : Nat) :
    p.shapes.nvars index = (p.classes[index]?.map (·.countP p.isVariable)).getD 0 := by
  have stored : p.shapes.get? index = p.classes[index]?.map fun members =>
      ⟨members.countP p.isVariable, []⟩ := by
    simp [shapes, ClassTable.get?]
  rw [ClassTable.nvars, stored]
  cases p.classes[index]? <;> rfl

@[simp] theorem Program.size_shapes (p : Program) : p.shapes.size = p.classes.length := by
  simp [shapes, ClassTable.size]

section
variable {p : Program} {image : Image}

theorem Linked.find?_number (linked : Linked p image) {symbol : Symbol} {text : String}
    (named : image.symbols.name? symbol = some text) {members : List UInt64} {decls : List SlotDecl}
    (declared : List.Forall₂ (Declared p image) members decls) (next : Nat) :
    ((ClassLayout.number next decls).find? (·.name = symbol)).map (·.kind) =
      (p.member? text next members).map (Member.map p.start) := by
  induction declared generalizing next with
  | nil => rfl
  | cons here _ ih =>
    cases here with
    | @var name text' symbol' slot string named' =>
      have same : symbol' = symbol ↔ text' = text := by
        constructor
        · rintro rfl
          exact Option.some.inj (named'.symm.trans named)
        · rintro rfl
          exact linked.symbols.symbol_unique named' named
      by_cases found : text' = text
      · simp [ClassLayout.number, Program.member?, slot, string, same, found, Member.map]
      · simp [ClassLayout.number, Program.member?, slot, string, same, found, ih]
    | @method m text' symbol' method string named' =>
      have stored := Program.method?_eq_some_iff.mp method
      have same : symbol' = symbol ↔ text' = text := by
        constructor
        · rintro rfl
          exact Option.some.inj (named'.symm.trans named)
        · rintro rfl
          exact linked.symbols.symbol_unique named' named
      by_cases found : text' = text
      · simp [ClassLayout.number, Program.member?, stored, string, same, found, Member.map]
      · simp [ClassLayout.number, Program.member?, stored, string, same, found, ih]

theorem Linked.class_pair (linked : Linked p image) (index : Nat) :
    (p.classes[index]? = none ∧ image.classes.get? index = none) ∨
      ∃ members decls, p.classes[index]? = some members ∧
        image.classes.get? index = some (.ofDecls decls) ∧
        List.Forall₂ (Declared p image) members decls := by
  have pairs := linked.classes
  rw [ClassTable.get?, ← Array.getElem?_toList]
  generalize p.classes = members at pairs
  generalize image.classes.classes.toList = layouts at pairs
  induction pairs generalizing index with
  | nil => exact .inl ⟨rfl, rfl⟩
  | cons here _ ih =>
    cases index with
    | zero =>
      obtain ⟨decls, rfl, declared⟩ := here
      exact .inr ⟨_, decls, rfl, rfl, declared⟩
    | succ index => simpa using ih index

theorem Linked.selector_eq (linked : Linked p image) {symbol : Symbol} {text : String}
    (named : image.symbols.name? symbol = some text) :
    image.selector symbol = (p.selector text).map p.start := by
  have name : image.symbols.nameOf symbol = text := by rw [Symbols.nameOf, named, Option.getD_some]
  have declares (index : Nat) : (image.selector symbol).declares index =
      ((p.selector text).map p.start).declares index := by
    simp only [Image.selector, Selector.map, Program.selector]
    rcases linked.class_pair index with ⟨source, target⟩ | ⟨members, decls, source, target, declared⟩
    · rw [source, target]
      rfl
    · rw [source, target]
      exact linked.find?_number named declared 0
  rw [Image.selector, name]
  exact congrArg _ (funext declares)

theorem Declared.isVar {index : UInt64} {decl : SlotDecl} (declared : Declared p image index decl) :
    decl.isVar = p.isVariable index := by
  cases declared with
  | var slot string named => simp [SlotDecl.isVar, Program.isVariable, slot]
  | method method string named =>
    simp [SlotDecl.isVar, Program.isVariable, Program.method?_eq_some_iff.mp method]

theorem Declared.countP {members : List UInt64} {decls : List SlotDecl}
    (declared : List.Forall₂ (Declared p image) members decls) :
    decls.countP SlotDecl.isVar = members.countP p.isVariable := by
  induction declared with
  | nil => rfl
  | cons here _ ih => rw [List.countP_cons, List.countP_cons, ih, here.isVar]

theorem Linked.nvars_eq (linked : Linked p image) (index : Nat) :
    image.classes.nvars index = p.shapes.nvars index := by
  rw [ClassTable.nvars, Program.nvars_shapes]
  rcases linked.class_pair index with ⟨source, target⟩ | ⟨members, decls, source, target, declared⟩
  · rw [source, target]
    rfl
  · rw [source, target]
    exact Declared.countP declared

end

namespace Heap

section
variable {classes classes' : ClassTable} (same : ∀ index, classes.nvars index = classes'.nvars index)
include same

theorem extent_sizes (h : Heap) (addr : Nat) : h.extent classes addr = h.extent classes' addr := by
  simp only [extent, same]

theorem forward_sizes (h : Heap) (v : Value) : h.forward classes v = h.forward classes' v := by
  simp only [forward, extent_sizes same]

theorem forwardAll_sizes (h : Heap) (seen vs : List Value) :
    forwardAll classes h seen vs = forwardAll classes' h seen vs := by
  induction vs generalizing h seen with
  | nil => rfl
  | cons v vs ih => simp only [forwardAll, forward_sizes same, ih]

theorem forwardFields_sizes (count addr : Nat) (h : Heap) :
    forwardFields classes count addr h = forwardFields classes' count addr h := by
  induction count generalizing addr h with
  | zero => rfl
  | succ count ih => simp only [forwardFields, forward_sizes same, ih]

theorem scan_sizes (fuel addr : Nat) (h : Heap) :
    scan classes fuel addr h = scan classes' fuel addr h := by
  induction fuel generalizing addr h with
  | zero => rfl
  | succ fuel ih => simp only [scan, extent_sizes same, forwardFields_sizes same, ih]

end

theorem length_forwardAll {classes : ClassTable} {h h' : Heap} {seen vs values : List Value}
    (run : forwardAll classes h seen vs = .ok (values, h')) :
    values.length = seen.length + vs.length := by
  induction vs generalizing h seen with
  | nil =>
    simp only [forwardAll, Except.ok.injEq, Prod.mk.injEq] at run
    rw [← run.1, List.length_reverse, List.length_nil, Nat.add_zero]
  | cons v vs ih =>
    rw [forwardAll] at run
    cases first : h.forward classes v with
    | error c => simp [first] at run
    | ok moved =>
      simp only [first] at run
      rw [ih run, List.length_cons, List.length_cons]
      omega

end Heap
end SlotVM
