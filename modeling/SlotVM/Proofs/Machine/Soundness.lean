import SlotVM.Machine.Step
import SlotVM.Proofs.Heap.Ancestry

namespace SlotVM

/-- Errors that only damaged code can cause. -/
def RuntimeError.blamesCode : RuntimeError → Bool
  | .badOpcode _ _ => true
  | .codeOverrun _ => true
  | _ => false

def Fault.Benign : Fault → Prop
  | .error e => e.blamesCode = false
  | .crash _ => False

def Checked {α : Type} (result : α → Prop) : Except Fault α → Prop
  | .ok a => result a
  | .error f => f.Benign

structure Store.Sound (classes : ClassTable) (width : Nat) (objects : Nat → Prop) (s : Store) :
    Prop where
  houses : s.heap.Houses classes objects
  stack : ∀ v ∈ s.stack.toList, v.Valid objects
  globals : ∀ v ∈ s.globals.toList, v.Valid objects
  width : s.globals.size = width

def Effect.Sound (classes : ClassTable) (width : Nat) (objects : Nat → Prop) : Effect → Prop
  | .done s => ∃ objects', (∀ a, objects a → objects' a) ∧ s.Sound classes width objects'
  | .error e s => e.blamesCode = false ∧ s.heap.WellFormed
  | .crash _ => False

section
variable {h : Heap} {classes : ClassTable} {objects : Nat → Prop} {v : Value}

theorem Value.Valid.kind? (valid : v.Valid objects) :
    (v.isInt = true ∧ v.kind? = some .int) ∨ (v = .null ∧ v.kind? = some .null) ∨
      ∃ a, v.addr? = some a ∧ objects a ∧ v.kind? = some .object := by
  rcases valid with int | null | ⟨a, ref, here⟩
  · have tag : v.tag = 0 := by simpa [Value.isInt] using int
    exact .inl ⟨int, by simp [Value.kind?, tag]⟩
  · exact .inr (.inl ⟨null, by rw [null]; decide⟩)
  · have tag : v.tag = 1 := by
      by_contra other
      simp [Value.addr?, Value.isObject, other] at ref
    exact .inr (.inr ⟨a, ref, here, by simp [Value.kind?, tag]⟩)

theorem Value.Valid.typeName (valid : v.Valid objects) : ∃ t, v.typeName = .ok t := by
  rcases valid.kind? with ⟨-, kind⟩ | ⟨-, kind⟩ | ⟨a, -, -, kind⟩ <;>
    simp [Value.typeName, kind]

theorem Heap.Houses.typeName (houses : h.Houses classes objects) (valid : v.Valid objects) :
    ∃ t, h.typeName v = .ok t := by
  obtain ⟨plain, typed⟩ := valid.typeName
  cases ref : v.addr? with
  | none =>
    have shape : h.shape? v = .ok none := by simp [Heap.shape?, ref]
    exact ⟨plain, by simp [Heap.typeName, shape, typed, bind, Except.bind]⟩
  | some a =>
    rcases houses.shape? ref (valid.of_addr? ref) with ⟨-, shape, -⟩ | ⟨index, -, -, shape, -⟩ <;>
      simp [Heap.typeName, shape, bind, Except.bind]

theorem Heap.wrongType_eq {type : TypeName} (typed : h.typeName v = .ok type) {α : Type}
    (usage : Usage) :
    (h.wrongType usage v : Except Fault α) = .error (.error (.typeMismatch usage type)) := by
  simp [Heap.wrongType, typed, orCrash, bind, Except.bind]

theorem Heap.Houses.wrongType (houses : h.Houses classes objects) (valid : v.Valid objects)
    {α : Type} (usage : Usage) (result : α → Prop) : Checked result (h.wrongType usage v) := by
  obtain ⟨t, typed⟩ := houses.typeName valid
  rw [Heap.wrongType_eq typed]
  rfl

end

section
variable {h : Heap} {classes : ClassTable} {objects : Nat → Prop} {τ : Type}

def Selector.Fits (slot : Selector τ) (classes : ClassTable) : Prop :=
  ∀ index place, slot.declares index = some (.var place) → place < classes.nvars index

namespace Heap

def Owns (h : Heap) (objects : Nat → Prop) (slot : Selector τ) (found : Value × Member τ) : Prop :=
  ∃ a index, found.1.addr? = some a ∧ objects a ∧ h.shape? found.1 = .ok (some (.object index)) ∧
    slot.declares index = some found.2

theorem Houses.lookup (houses : h.Houses classes objects) (slot : Selector τ) {v : Value}
    (valid : v.Valid objects) : Checked (h.Owns objects slot) (h.lookup v slot) := by
  rcases houses.ancestry valid with ⟨chain, last, ancestry, -, ending, known, looked⟩
  rw [looked slot]
  by_cases null : v.isNull
  · simp only [null, if_true]
    rfl
  · simp only [null, Bool.false_eq_true, if_false, along]
    cases found : chain.findSome? fun link => (slot.declares link.2).map (Prod.mk link.1) with
    | some pair =>
      rcases List.exists_of_findSome?_eq_some found with ⟨link, member, declared⟩
      rcases Option.map_eq_some_iff.mp declared with ⟨holds, declares, rfl⟩
      rcases known link member with ⟨a, ref, here⟩
      exact ⟨a, link.2, ref, here, ancestry.shape member, declares⟩
    | none =>
      by_cases ended : last.isNull
      · simp only [ended, if_true]
        rfl
      · simp only [ended, Bool.false_eq_true, if_false]
        exact houses.wrongType ending _ _

theorem Houses.findVar (houses : h.Houses classes objects) {slot : Selector τ}
    (sized : slot.Fits classes) {v : Value} (valid : v.Valid objects) :
    Checked (fun found => ∃ a, found.1.addr? = some a ∧ objects a ∧
      2 + found.2 < h.wordsAt classes a) (h.findVar v slot) := by
  have looked := houses.lookup slot valid
  unfold Heap.findVar
  cases found : h.lookup v slot with
  | error f =>
    rw [found] at looked
    exact looked
  | ok pair =>
    obtain ⟨owner, member⟩ := pair
    rw [found] at looked
    obtain ⟨a, index, ref, here, shape, declares⟩ := looked
    cases member with
    | code target => exact rfl
    | var place =>
      refine ⟨a, ref, here, ?_⟩
      have bound := sized index place declares
      rcases houses.shape? ref here with ⟨-, other, -⟩ | ⟨index', -, -, same, size⟩
      · simp only at shape
        rw [shape] at other
        cases other
      · simp only at shape
        rw [shape] at same
        cases same
        simp only
        omega

theorem Houses.findMethod (houses : h.Houses classes objects) (slot : Selector τ) {v : Value}
    (valid : v.Valid objects) : Checked (fun _ => True) (h.findMethod v slot) := by
  have looked := houses.lookup slot valid
  unfold Heap.findMethod
  cases found : h.lookup v slot with
  | error f =>
    rw [found] at looked
    exact looked
  | ok pair =>
    obtain ⟨owner, member⟩ := pair
    cases member with
    | var place => exact rfl
    | code target => trivial

end Heap
end
namespace Store

section
variable {classes : ClassTable} {width : Nat} {objects objects' : Nat → Prop} {s : Store} {v : Value}
  {τ : Type}

theorem Sound.push (sound : s.Sound classes width objects) (valid : v.Valid objects) :
    (s.push v).Sound classes width objects := by
  refine ⟨sound.houses, ?_, sound.globals, sound.width⟩
  intro w here
  rw [Store.push, Array.toList_push, List.mem_append, List.mem_singleton] at here
  rcases here with here | rfl
  · exact sound.stack w here
  · exact valid

theorem Sound.dropTop (sound : s.Sound classes width objects) (count : Nat) :
    (s.dropTop count).Sound classes width objects := by
  refine ⟨sound.houses, ?_, sound.globals, sound.width⟩
  intro w here
  rw [Store.dropTop, Array.toList_shrink] at here
  exact sound.stack w (List.mem_of_mem_take here)

theorem peek?_eq_some {depth : Nat} (found : s.peek? depth = some v) :
    depth < s.stack.size ∧ s.stack[s.stack.size - (depth + 1)]? = some v := by
  unfold Store.peek? at found
  split at found
  · rename_i inside
    exact ⟨inside, by rwa [Nat.sub_sub, Nat.add_comm] at found⟩
  · cases found

theorem length_top {count : Nat} (enough : count ≤ s.stack.size) :
    (s.top count).toList.length = count := by
  simp only [Store.top, Array.length_toList, Array.size_extract]
  omega

theorem getElem?_top (s : Store) {count i : Nat} (enough : count ≤ s.stack.size)
    (bound : i < count) : (s.top count)[i]? = s.stack[s.stack.size - count + i]? := by
  rw [Store.top, Array.getElem?_extract, if_pos (by omega)]

theorem Sound.peek? (sound : s.Sound classes width objects) {depth : Nat}
    (found : s.peek? depth = some v) : v.Valid objects := by
  unfold Store.peek? at found
  split at found
  · exact sound.stack v (Array.mem_toList_iff.mpr (Array.mem_of_getElem? found))
  · cases found

theorem Sound.top (sound : s.Sound classes width objects) (count : Nat) :
    ∀ v ∈ (s.top count).toList, v.Valid objects := by
  intro v here
  rw [Store.top, Array.toList_extract, List.extract_eq_take_drop] at here
  exact sound.stack v (List.mem_of_mem_drop (List.mem_of_mem_take here))

theorem Sound.withHeap (sound : s.Sound classes width objects) {heap : Heap}
    (houses : heap.Houses classes objects') (grown : ∀ a, objects a → objects' a) :
    Store.Sound classes width objects' { s with heap := heap } :=
  ⟨houses, fun v here => (sound.stack v here).mono grown,
    fun v here => (sound.globals v here).mono grown, sound.width⟩

theorem Sound.done (sound : s.Sound classes width objects) :
    (Effect.done s).Sound classes width objects := ⟨objects, fun _ here => here, sound⟩

theorem Sound.error (sound : s.Sound classes width objects) {e : RuntimeError}
    (benign : e.blamesCode = false) : (Effect.error e s).Sound classes width objects :=
  ⟨benign, sound.houses.heap⟩

theorem Sound.ofFault (sound : s.Sound classes width objects) {f : Fault} (benign : f.Benign) :
    (Effect.ofFault f s).Sound classes width objects := by
  cases f with
  | error e => exact sound.error benign
  | crash c => exact benign.elim

theorem checked_renderFormat (given : Nat) (seen cs : List Char) {args : List Value}
    (valid : ∀ v ∈ args, v.Valid objects) :
    Checked (fun _ => True) (renderFormat given seen cs args) := by
  induction cs generalizing seen args with
  | nil => trivial
  | cons c cs ih =>
    unfold renderFormat
    by_cases hole : c = '~'
    · simp only [hole, if_true]
      cases args with
      | nil => exact rfl
      | cons arg args =>
        cases number : arg.toInt? with
        | some n =>
          simp only [number]
          exact ih _ fun v here => valid v (List.mem_cons_of_mem _ here)
        | none =>
          obtain ⟨t, typed⟩ := (valid arg List.mem_cons_self).typeName
          simp only [number, typed, orCrash, bind, Except.bind]
          rfl
    · simp only [hole, if_false]
      exact ih _ valid

theorem Sound.printf (sound : s.Sound classes width objects) (format : String) (arity : Nat) :
    (s.printf format arity).Sound classes width objects := by
  unfold Store.printf
  by_cases short : s.stack.size < arity
  · simp only [short, if_true]
    exact sound.error rfl
  · simp only [short, if_false]
    have checked := checked_renderFormat arity [] format.toList (sound.top arity)
    cases rendered : renderFormat arity [] format.toList (s.top arity).toList with
    | error f =>
      rw [rendered] at checked
      exact sound.ofFault checked
    | ok text =>
      simp only
      by_cases accepts : s.sink.accepts text
      · simp only [accepts, if_true]
        have printed : Store.Sound classes width objects { s with sink := s.sink.write text } :=
          ⟨sound.houses, sound.stack, sound.globals, sound.width⟩
        exact ((printed.dropTop arity).push Value.valid_null).done
      · simp only [accepts, Bool.false_eq_true, if_false]
        exact sound.error rfl

theorem Sound.getSlot (sound : s.Sound classes width objects) {slot : Selector τ}
    (sized : slot.Fits classes) : (s.getSlot slot).Sound classes width objects := by
  unfold Store.getSlot
  cases peeked : s.peek? 0 with
  | none => exact sound.error rfl
  | some receiver =>
    have dropped := sound.dropTop 1
    have checked := dropped.houses.findVar sized (sound.peek? peeked)
    simp only
    cases found : (s.dropTop 1).heap.findVar receiver slot with
    | error f =>
      rw [found] at checked
      exact dropped.ofFault checked
    | ok pair =>
      obtain ⟨object, index⟩ := pair
      rw [found] at checked
      obtain ⟨a, ref, here, word⟩ := checked
      simp only [Heap.slot, dropped.houses.loadWord ref here word, bind, Except.bind]
      exact (dropped.push (dropped.houses.item here word)).done

theorem Sound.setSlot (sound : s.Sound classes width objects) {slot : Selector τ}
    (sized : slot.Fits classes) : (s.setSlot slot).Sound classes width objects := by
  unfold Store.setSlot
  cases top : s.peek? 0 with
  | none => exact sound.error rfl
  | some v =>
    cases second : s.peek? 1 with
    | none => exact (sound.dropTop 1).error rfl
    | some receiver =>
      have dropped := sound.dropTop 2
      have checked := dropped.houses.findVar sized (sound.peek? second)
      simp only
      cases found : (s.dropTop 2).heap.findVar receiver slot with
      | error f =>
        rw [found] at checked
        exact dropped.ofFault checked
      | ok pair =>
        obtain ⟨object, index⟩ := pair
        rw [found] at checked
        obtain ⟨a, ref, here, word⟩ := checked
        obtain ⟨heap, stored, houses⟩ := dropped.houses.storeWord ref here word (sound.peek? top)
        simp only [Heap.setSlot, stored]
        exact ((dropped.withHeap houses fun _ here => here).push (sound.peek? top)).done

theorem Sound.getGlobal (sound : s.Sound classes width objects) {index : Nat}
    (inside : index < width) : (s.getGlobal index).Sound classes width objects := by
  unfold Store.getGlobal
  rw [← sound.width] at inside
  rw [Array.getElem?_eq_getElem inside]
  exact (sound.push (sound.globals _ (Array.mem_toList_iff.mpr (Array.getElem_mem inside)))).done

theorem Sound.setGlobal (sound : s.Sound classes width objects) {index : Nat}
    (inside : index < width) : (s.setGlobal index).Sound classes width objects := by
  unfold Store.setGlobal
  rw [← sound.width] at inside
  cases peeked : s.peek? 0 with
  | none => exact sound.error rfl
  | some v =>
    simp only [inside, if_true]
    refine Sound.done ⟨sound.houses, sound.stack, ?_, ?_⟩
    · intro w here
      rw [Array.toList_setIfInBounds] at here
      rcases List.mem_or_eq_of_mem_set here with here | rfl
      · exact sound.globals w here
      · exact sound.peek? peeked
    · simpa using sound.width

theorem Sound.drop (sound : s.Sound classes width objects) :
    s.drop.Sound classes width objects := by
  unfold Store.drop
  by_cases empty : s.stack.isEmpty
  · simp only [empty, if_true]
    exact sound.error rfl
  · simp only [empty, Bool.false_eq_true, if_false]
    exact (sound.dropTop 1).done

end
end Store
end SlotVM
