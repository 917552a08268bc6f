import SlotVM.Machine.Slots
import SlotVM.Proofs.Heap.Objects

namespace SlotVM

theorem Value.isNull_iff (v : Value) : v.isNull = true ↔ v = .null := by
  unfold Value.isNull
  rw [beq_iff_eq]
  constructor
  · intro raw
    exact congrArg Value.mk raw
  · intro same
    rw [same]
    rfl

namespace Heap

variable {τ : Type}

/-- The instances from a value on along their parents, each with the index of its class, and the value
at the end of the chain, which is no instance. -/
inductive Ancestry (h : Heap) : Value → List (Value × Nat) → Value → Prop
  | ended {v : Value} (plain : ∀ index, h.shape? v ≠ .ok (some (.object index))) :
      Ancestry h v [] v
  | above {v parent last : Value} {index : Nat} {chain : List (Value × Nat)}
      (shape : h.shape? v = .ok (some (.object index))) (loaded : h.parent v = .ok parent)
      (rest : Ancestry h parent chain last) : Ancestry h v ((v, index) :: chain) last

/-- What a lookup along a chain comes to: the first instance whose class has the slot. Where none has
it, the slot is missing if the chain ends in null, and otherwise the end is no object. -/
def along (h : Heap) (slot : Selector τ) (chain : List (Value × Nat)) (last : Value) :
    Except Fault (Value × Member τ) :=
  match chain.findSome? fun link => (slot.declares link.2).map (Prod.mk link.1) with
  | some found => .ok found
  | none =>
    if last.isNull then .error (.error (.slotNotFound slot.name))
    else h.wrongType .slotLookup last

section
variable {h : Heap} {v last : Value} {chain : List (Value × Nat)}

theorem shape?_of_plain (ref : v.addr? = none) : h.shape? v = .ok none := by
  simp [shape?, ref]

theorem Ancestry.of_null (ancestry : h.Ancestry .null chain last) : chain = [] ∧ last = .null := by
  cases ancestry with
  | ended plain => exact ⟨rfl, rfl⟩
  | above shape loaded rest =>
    rw [shape?_of_plain Value.addr?_null] at shape
    cases shape

theorem Ancestry.plain (ancestry : h.Ancestry v chain last) (index : Nat) :
    h.shape? last ≠ .ok (some (.object index)) := by
  induction ancestry with
  | ended plain => exact plain index
  | above shape loaded rest ih => exact ih

theorem Ancestry.shape (ancestry : h.Ancestry v chain last) {link : Value × Nat}
    (member : link ∈ chain) : h.shape? link.1 = .ok (some (.object link.2)) := by
  induction ancestry with
  | ended plain => cases member
  | above shape loaded rest ih =>
    rcases List.mem_cons.mp member with rfl | member
    · exact shape
    · exact ih member

theorem along_cons (slot : Selector τ) (index : Nat) :
    h.along slot ((v, index) :: chain) last =
      match slot.declares index with
      | some member => .ok (v, member)
      | none => h.along slot chain last := by
  unfold along
  cases declares : slot.declares index with
  | none => simp [declares]
  | some member => simp [declares]

theorem Ancestry.lookupFrom_eq (ancestry : h.Ancestry v chain last) (slot : Selector τ)
    (start : v.isNull = false) {fuel : Nat} (enough : chain.length < fuel) :
    h.lookupFrom slot fuel v = h.along slot chain last := by
  induction ancestry generalizing fuel with
  | @ended v plain =>
    cases fuel with
    | zero => cases enough
    | succ fuel =>
      have missing : h.along slot [] v = h.wrongType .slotLookup v := by simp [along, start]
      rw [missing]
      unfold lookupFrom
      cases shape : h.shape? v with
      | error c => simp [wrongType, typeName, shape, orCrash, bind, Except.bind]
      | ok found =>
        rcases found with _ | _ | index
        · rfl
        · rfl
        · exact absurd shape (plain index)
  | @above v parent last index chain shape loaded rest ih =>
    cases fuel with
    | zero => cases enough
    | succ fuel =>
      rw [along_cons]
      simp only [lookupFrom, shape, loaded]
      cases declares : slot.declares index with
      | some member => rfl
      | none =>
        by_cases null : parent.isNull
        · -- the chain ends here, in null
          rw [(Value.isNull_iff parent).mp null] at rest
          rcases rest.of_null with ⟨rfl, rfl⟩
          simp only [null, if_true]
          rfl
        · simp only [null, Bool.false_eq_true, if_false]
          apply ih
          · simpa using null
          · simpa using enough

end

section
variable {h : Heap} {classes : ClassTable} {objects : Nat → Prop} {v : Value}

/-- Ranks go down along a chain, so it ends and meets no object twice. -/
theorem Houses.climb (houses : h.Houses classes objects) {rank : Nat → Nat}
    (lower : ∀ a b, objects a → h.wordAt a 0 ≠ arrayTag →
      Value.addr? ⟨h.wordAt a 1⟩ = some b → rank b < rank a)
    (bound : Nat) (valid : v.Valid objects) (below : ∀ a, v.addr? = some a → rank a < bound) :
    ∃ chain last, ∃ places : List Nat, h.Ancestry v chain last ∧ last.Valid objects ∧
      chain.map Prod.fst = places.map Value.ofAddr ∧ places.Nodup ∧
      ∀ a ∈ places, objects a ∧ rank a < bound := by
  induction bound using Nat.strong_induction_on generalizing v with
  | _ bound ih =>
    cases ref : v.addr? with
    | none =>
      have shape := shape?_of_plain (h := h) ref
      exact ⟨[], v, [], .ended (by simp [shape]), valid, rfl, .nil, by simp⟩
    | some a =>
      have here := valid.of_addr? ref
      rcases houses.shape? ref here with ⟨-, shape, -⟩ | ⟨index, -, plain, shape, -⟩
      · exact ⟨[], v, [], .ended (by simp [shape]), valid, rfl, .nil, by simp⟩
      · have two := h.two_le_words classes a
        have loaded : h.parent v = .ok ⟨h.wordAt a 1⟩ := by
          simp only [Heap.parent, houses.loadWord ref here (n := 1) (by omega), bind, Except.bind]
          rfl
        rcases ih (rank a) (below a ref) (houses.parent here plain)
          fun b back => lower a b here plain back with
          ⟨chain, last, places, rest, ending, links, nodup, known⟩
        have fresh : a ∉ places := fun again => Nat.lt_irrefl _ (known a again).2
        refine ⟨(v, index) :: chain, last, a :: places, .above shape loaded rest, ending, ?_,
          List.nodup_cons.mpr ⟨fresh, nodup⟩, ?_⟩
        · rw [List.map_cons, List.map_cons, links, ← Value.eq_ofAddr ref]
        · intro b member
          have bounded := below a ref
          rcases List.mem_cons.mp member with rfl | member
          · exact ⟨here, bounded⟩
          · exact ⟨(known b member).1, Nat.lt_trans (known b member).2 bounded⟩

theorem Houses.ancestry (houses : h.Houses classes objects) (valid : v.Valid objects) :
    ∃ chain last, h.Ancestry v chain last ∧ (chain.map Prod.fst).Nodup ∧ last.Valid objects ∧
      (∀ link ∈ chain, ∃ a, link.1.addr? = some a ∧ objects a) ∧
      ∀ {τ : Type} (slot : Selector τ), h.lookup v slot =
        if v.isNull then .error (.error (.nullReceiver slot.name)) else h.along slot chain last := by
  rcases houses.ranked with ⟨rank, lower⟩
  rcases houses.climb lower ((v.addr?.map rank).getD 0 + 1) valid (by simp +contextual) with
    ⟨chain, last, places, ancestry, ending, links, nodup, known⟩
  have length : chain.length = places.length := by
    simpa using congrArg List.length links
  have few := (houses.laid nodup fun a member => (known a member).1).length_le houses.heap
  refine ⟨chain, last, ancestry, ?_, ending, ?_, ?_⟩
  · rw [links]
    apply List.Nodup.map_on _ nodup
    intro a first b second same
    have back := congrArg Value.addr? same
    rw [houses.addr?_ofAddr (known a first).1, houses.addr?_ofAddr (known b second).1] at back
    exact Option.some.inj back
  · intro link member
    have listed : link.1 ∈ places.map Value.ofAddr := links ▸ List.mem_map_of_mem member
    rcases List.mem_map.mp listed with ⟨a, place, same⟩
    refine ⟨a, ?_, (known a place).1⟩
    rw [← same]
    exact houses.addr?_ofAddr (known a place).1
  · intro τ slot
    unfold Heap.lookup
    by_cases null : v.isNull
    · simp only [null, if_true]
    · simp only [null, Bool.false_eq_true, if_false]
      apply ancestry.lookupFrom_eq slot
      · simpa using null
      · omega

end
end Heap
end SlotVM
