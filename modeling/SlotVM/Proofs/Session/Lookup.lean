import SlotVM.Proofs.Session.Invariant

namespace SlotVM

def Image.slot? (image : Image) (name : Symbol) (index : Nat) : Option Slot :=
  (image.classes.get? index).bind (·.find? name)

def Image.Lacks (image : Image) (name : Symbol) (chain : List (Value × Nat)) : Prop :=
  ∀ link ∈ chain, image.slot? name link.2 = none

/-- The nearest instance along a chain whose class has a slot of the name, and what the slot holds. -/
def Image.Nearest (image : Image) (name : Symbol) (chain : List (Value × Nat)) (owner : Value)
    (member : SlotKind) : Prop :=
  ∃ before index after slot, chain = before ++ (owner, index) :: after ∧
    image.Lacks name before ∧ image.slot? name index = some slot ∧ slot.kind = member

/-- An instance, laid out for the variables of its class, has a variable at a place. -/
def Heap.HasPlace (h : Heap) (classes : ClassTable) (owner : Value) (place : Nat) : Prop :=
  ∃ a index layout, owner.addr? = some a ∧ h.shape? owner = .ok (some (.object index)) ∧
    classes.get? index = some layout ∧ h.sizeAt classes a = Heap.blockSize layout.nvars ∧
    place < layout.nvars

/-- What looking up a name from `v` comes to, where `chain` are the instances from `v` on along their
parents and `last` is the value at the end. -/
structure Heap.LooksUp (h : Heap) (image : Image) (name : Symbol) (v : Value)
    (chain : List (Value × Nat)) (last : Value) : Prop where
  found : ∀ owner member, h.lookup v (image.selector name) = .ok (owner, member) ↔
    image.Nearest name chain owner member
  place : ∀ owner place, h.lookup v (image.selector name) = .ok (owner, .var place) →
    h.HasPlace image.classes owner place
  nullReceiver : h.lookup v (image.selector name) =
    .error (.error (.nullReceiver (image.symbols.nameOf name))) ↔ v = .null
  slotNotFound : h.lookup v (image.selector name) =
    .error (.error (.slotNotFound (image.symbols.nameOf name))) ↔
      v ≠ .null ∧ image.Lacks name chain ∧ last = .null
  typeMismatch : ∀ type, h.lookup v (image.selector name) =
    .error (.error (.typeMismatch .slotLookup type)) ↔
      image.Lacks name chain ∧
        (last.isInt = true ∧ type = .int ∨
          (∃ len, h.shape? last = .ok (some (.array len))) ∧ type = .array)
  ends : (∃ found, h.lookup v (image.selector name) = .ok found) ∨
    ∃ e, h.lookup v (image.selector name) = .error (.error e) ∧
      (e = .nullReceiver (image.symbols.nameOf name) ∨
        e = .slotNotFound (image.symbols.nameOf name) ∨
        ∃ type, e = .typeMismatch .slotLookup type)

theorem ClassLayout.var_lt_of_mem_number {next place : Nat} {decls : List SlotDecl} {slot : Slot}
    (member : slot ∈ ClassLayout.number next decls) (kind : slot.kind = .var place) :
    place < next + decls.countP SlotDecl.isVar := by
  induction decls generalizing next with
  | nil => cases member
  | cons decl decls ih =>
    cases decl with
    | var name =>
      rw [List.countP_cons_of_pos rfl]
      rcases List.mem_cons.mp member with rfl | member
      · cases kind
        omega
      · have bound := ih member
        omega
    | method name offset =>
      rw [List.countP_cons_of_neg Bool.false_ne_true]
      rcases List.mem_cons.mp member with rfl | member
      · cases kind
      · exact ih member

theorem Linked.selector_fits {p : Program} {image : Image} (linked : Linked p image) (name : Symbol) :
    (image.selector name).Fits image.classes := by
  intro index place declares
  rcases Option.map_eq_some_iff.mp declares with ⟨slot, found, kind⟩
  rcases Option.bind_eq_some_iff.mp found with ⟨layout, stored, found⟩
  rcases linked.class_pair index with ⟨-, unknown⟩ | ⟨members, decls, -, known, -⟩
  · rw [stored] at unknown
    cases unknown
  · rw [ClassTable.nvars, known]
    rw [stored] at known
    cases known
    have bound := ClassLayout.var_lt_of_mem_number (List.mem_of_find?_eq_some found) kind
    rwa [Nat.zero_add] at bound

section
variable {h : Heap} {image : Image} {name : Symbol} {v last : Value} {chain : List (Value × Nat)}
  {objects : Nat → Prop}

theorem Image.lacks_iff : image.Lacks name chain ↔
    (chain.findSome? fun link =>
      ((image.selector name).declares link.2).map (Prod.mk link.1)) = none := by
  rw [List.findSome?_eq_none_iff]
  simp [Image.Lacks, Image.selector, Image.slot?]

theorem Image.nearest_iff {owner : Value} {member : SlotKind} :
    image.Nearest name chain owner member ↔
    (chain.findSome? fun link =>
      ((image.selector name).declares link.2).map (Prod.mk link.1)) = some (owner, member) := by
  rw [List.findSome?_eq_some_iff]
  simp only [← List.findSome?_eq_none_iff, ← Image.lacks_iff]
  constructor
  · rintro ⟨before, index, after, slot, split, lacks, found, rfl⟩
    refine ⟨before, (owner, index), after, split, ?_, lacks⟩
    have declares : (image.selector name).declares index = some slot.kind :=
      Option.map_eq_some_iff.mpr ⟨slot, found, rfl⟩
    simp only [declares, Option.map_some]
  · rintro ⟨before, ⟨link, index⟩, after, split, here, lacks⟩
    rcases Option.map_eq_some_iff.mp here with ⟨kind, declares, same⟩
    rcases Option.map_eq_some_iff.mp declares with ⟨slot, found, rfl⟩
    cases same
    exact ⟨before, index, after, slot, split, lacks, found, rfl⟩

namespace Heap

theorem typeName_of_isInt (int : v.isInt = true) : h.typeName v = .ok .int := by
  have tag : v.tag = 0 := by simpa [Value.isInt] using int
  unfold typeName
  rw [shape?_of_plain (Value.addr?_of_isInt int)]
  simp [Value.typeName, Value.kind?, tag, bind, Except.bind]

theorem typeName_of_array {len : Nat} (shape : h.shape? v = .ok (some (.array len))) :
    h.typeName v = .ok .array := by
  unfold typeName
  rw [shape]
  rfl

theorem Houses.last_cases {classes : ClassTable} (houses : h.Houses classes objects)
    (valid : last.Valid objects) (plain : ∀ index, h.shape? last ≠ .ok (some (.object index))) :
    last = .null ∨
      (last ≠ .null ∧ last.isInt = true ∧ h.shape? last = .ok none) ∨
      ∃ len, last ≠ .null ∧ last.isInt = false ∧ h.shape? last = .ok (some (.array len)) := by
  rcases valid with int | null | ⟨a, ref, here⟩
  · right; left
    refine ⟨?_, int, shape?_of_plain (Value.addr?_of_isInt int)⟩
    rintro rfl
    cases int
  · exact .inl null
  · right; right
    rcases houses.shape? ref here with ⟨-, shape, -⟩ | ⟨index, -, -, shape, -⟩
    · refine ⟨_, ?_, ?_, shape⟩
      · rintro rfl
        cases ref
      · by_contra int
        rw [Value.addr?_of_isInt (Bool.of_not_eq_false int)] at ref
        cases ref
    · exact absurd shape (plain index)

theorem Houses.hasPlace (houses : h.Houses image.classes objects)
    (fits : (image.selector name).Fits image.classes) (valid : v.Valid objects) {owner : Value}
    {place : Nat} (found : h.lookup v (image.selector name) = .ok (owner, .var place)) :
    h.HasPlace image.classes owner place := by
  have looked := houses.lookup (image.selector name) valid
  rw [found] at looked
  rcases looked with ⟨a, index, ref, here, shape, declares⟩
  have bound := fits index place declares
  have classified := houses.classified here
  unfold Classified at classified
  rw [← Value.eq_ofAddr ref, shape] at classified
  rcases classified with ⟨len, same, -⟩ | ⟨index', layout, same, stored, size⟩
  · cases same
  · cases same
    rw [ClassTable.nvars, stored] at bound
    exact ⟨a, index, layout, ref, shape, stored, size, bound⟩

theorem Houses.looksUp_of_lacks (houses : h.Houses image.classes objects)
    (valid : last.Valid objects) (ancestry : h.Ancestry v chain last) (start : v ≠ .null)
    (lacks : image.Lacks name chain)
    (answer : h.lookup v (image.selector name) = h.along (image.selector name) chain last) :
    h.LooksUp image name v chain last := by
  have missing := Image.lacks_iff.mp lacks
  have found (owner : Value) (member : SlotKind) : ¬ image.Nearest name chain owner member := by
    rw [Image.nearest_iff, missing]
    exact nofun
  rw [along, missing] at answer
  rcases houses.last_cases valid ancestry.plain with
    rfl | ⟨other, int, shape⟩ | ⟨len, other, int, shape⟩
  · replace answer : h.lookup v (image.selector name) =
      .error (.error (.slotNotFound (image.symbols.nameOf name))) := answer
    have plain := shape?_of_plain (h := h) Value.addr?_null
    have int : Value.null.isInt = false := rfl
    constructor <;> simp [answer, found, start, lacks, plain, int]
  · replace answer : h.lookup v (image.selector name) =
        .error (.error (.typeMismatch .slotLookup .int)) := by
      simpa [Value.isNull_iff, other, wrongType_eq (typeName_of_isInt int)] using answer
    constructor <;> simp [answer, found, start, lacks, other, shape, int, eq_comm]
  · replace answer : h.lookup v (image.selector name) =
        .error (.error (.typeMismatch .slotLookup .array)) := by
      simpa [Value.isNull_iff, other, wrongType_eq (typeName_of_array shape)] using answer
    constructor <;> simp [answer, found, start, lacks, other, shape, int, eq_comm]

theorem Houses.looksUp (houses : h.Houses image.classes objects)
    (fits : ∀ name, (image.selector name).Fits image.classes) (valid : v.Valid objects) :
    ∃ chain last, h.Ancestry v chain last ∧ (chain.map Prod.fst).Nodup ∧
      ∀ name, h.LooksUp image name v chain last := by
  rcases houses.ancestry valid with ⟨chain, last, ancestry, nodup, ending, -, looked⟩
  refine ⟨chain, last, ancestry, nodup, ?_⟩
  intro name
  have answer := looked (image.selector name)
  by_cases start : v = .null
  · subst start
    rcases ancestry.of_null with ⟨rfl, rfl⟩
    replace answer : h.lookup .null (image.selector name) =
      .error (.error (.nullReceiver (image.symbols.nameOf name))) := answer
    have plain := shape?_of_plain (h := h) Value.addr?_null
    have int : Value.null.isInt = false := rfl
    constructor <;> simp [answer, Image.nearest_iff, plain, int]
  · simp only [Value.isNull_iff, start, if_false] at answer
    cases found : chain.findSome? fun link =>
      ((image.selector name).declares link.2).map (Prod.mk link.1) with
    | none => exact houses.looksUp_of_lacks ending ancestry start (Image.lacks_iff.mpr found) answer
    | some pair =>
      have declared : ¬ image.Lacks name chain := by simp [Image.lacks_iff, found]
      rw [along, found] at answer
      constructor
      · simp [answer, Image.nearest_iff, found]
      · intro owner place
        exact houses.hasPlace (fits name) valid
      all_goals simp [answer, start, declared]

end Heap
end

section
variable {p : Program} {image : Image}

/-- Whenever a machine that runs programs one after another is about to execute an instruction, every
chain of parents from a live object on ends and meets no object twice, and every lookup comes out as
the chain of its receiver says. -/
theorem Session.Reached.lookup_nearest {s : Session} (reached : s.Reached) (runnable : Runnable p image)
    {steps ip : Nat} {vm : Vm}
    (here : Vm.runFrom image steps image.entry (s.vm.start image) = .unfinished ip vm) :
    ∃ completed, Vm.Invariant image ip vm completed ∧
      ∀ v : Value, v.Valid (vm.heap.Reachable image.classes
          (Roots.Holds ⟨vm.stack, completed, vm.globals⟩)) →
        ∃ chain last, vm.heap.Ancestry v chain last ∧ (chain.map Prod.fst).Nodup ∧
          ∀ name, vm.heap.LooksUp image name v chain last := by
  have lockstep := Source.lockstep_start runnable reached.heap steps
  rw [here] at lockstep
  generalize Source.run p steps (Source.start p s.vm.heap s.vm.sink) = source at lockstep
  cases lockstep with
  | unfinished s' placed sound =>
    rcases sound with ⟨objects, sound⟩
    rcases placed.housed runnable sound with ⟨houses, rooted⟩
    refine ⟨_, placed.invariant runnable sound, ?_⟩
    intro v valid
    apply (houses.live rooted).looksUp _ valid
    exact fun name => runnable.meets.selector_fits name

theorem getter_lookup_nearest :
    ∃ (s : Session) (image : Image) (vm : Vm), Session.create ⟨24, false, false⟩ .unbounded = .ok s ∧
      (s.run Program.getter 30).2.Reached ∧ Runnable Program.getter image ∧
      Vm.runFrom image 5 image.entry ((s.run Program.getter 30).2.vm.start image) =
        .unfinished 72 vm ∧
      vm.heap.cycles = 1 ∧ vm.stack = #[⟨25⟩] ∧
      vm.heap.lookup ⟨25⟩ (image.selector ⟨1⟩) = .ok (⟨25⟩, .code 0) ∧
      ∃ chain last, vm.heap.Ancestry ⟨25⟩ chain last ∧ (chain.map Prod.fst).Nodup ∧
        ∀ name, vm.heap.LooksUp image name ⟨25⟩ chain last := by
  have evaluated : (do
      let (image, ip, vm) ← Session.getterAgain 5
      return decide (ip = 72 ∧ vm.heap.cycles = 1 ∧ vm.stack = #[⟨25⟩] ∧
        vm.heap.lookup ⟨25⟩ (image.selector ⟨1⟩) = .ok (⟨25⟩, .code 0))) = some true := by
    rw [Session.getterAgain, link_eq]
    decide +kernel
  rcases Option.bind_eq_some_iff.mp evaluated with ⟨⟨image, ip, vm⟩, again, evaluated⟩
  rcases of_decide_eq_true (Option.some.inj evaluated) with ⟨rfl, cycles, stack, found⟩
  rcases Session.getter_again again with ⟨s, created, reached, runnable, here⟩
  rcases Session.Reached.lookup_nearest reached runnable here with ⟨completed, -, looks⟩
  refine ⟨s, image, vm, created, reached, runnable, here, cycles, stack, found, looks ⟨25⟩ ?_⟩
  have ref : Value.addr? ⟨25⟩ = some 24 := by decide
  right; right
  refine ⟨24, ref, .root ?_ ref⟩
  left
  show (⟨25⟩ : Value) ∈ vm.stack
  rw [stack]
  exact Array.mem_singleton.mpr rfl

end
end SlotVM
