import SlotVM.Proofs.Machine.Soundness

namespace SlotVM

namespace Store

section
variable {classes : ClassTable} {width : Nat} {objects : Nat → Prop} {s : Store} {v : Value}
  {τ : Type}

theorem valid_flag (b : Bool) : (IntOp.flag b).Valid objects := by
  cases b with
  | false => exact Value.valid_null
  | true => exact Value.valid_ofInt 1

theorem valid_apply {op : IntOp} {a b : Int} (applied : op.apply a b = .ok v) :
    v.Valid objects := by
  cases op with
  | add | sub | mul =>
    cases applied
    exact Value.valid_ofInt _
  | div | mod =>
    simp only [IntOp.apply] at applied
    split at applied
    · cases applied
    · cases applied
      exact Value.valid_ofInt _
  | lt | le | gt | ge | eq =>
    cases applied
    exact valid_flag _

theorem benign_apply {op : IntOp} {a b : Int} {e : RuntimeError} (failed : op.apply a b = .error e) :
    e.blamesCode = false := by
  cases op with
  | div | mod =>
    simp only [IntOp.apply] at failed
    split at failed
    · cases failed
      rfl
    · cases failed
  | _ => cases failed

theorem checked_intResult {h : Heap} (houses : h.Houses classes objects) (op : IntOp) (a : Int)
    (valid : v.Valid objects) : Checked (Value.Valid objects) (intResult h op a v) := by
  unfold intResult
  cases v.toInt? with
  | some b =>
    simp only
    cases applied : op.apply a b with
    | ok w => exact valid_apply applied
    | error e => exact benign_apply applied
  | none =>
    by_cases eq : op = .eq
    · simp only [eq, if_true]
      exact Value.valid_null
    · simp only [eq, if_false]
      exact houses.wrongType valid _ _

theorem Sound.callInt (sound : s.Sound classes width objects) (name : String) (arity : Nat)
    (a : Int) : (s.callInt name arity a).Sound classes width objects := by
  unfold Store.callInt
  cases IntOp.ofName? name with
  | none => exact sound.error rfl
  | some op =>
    by_cases two : arity = 2
    · simp only [two, if_true]
      cases peeked : s.peek? 0 with
      | none => exact sound.error rfl
      | some rhs =>
        have dropped := sound.dropTop 2
        have checked := checked_intResult dropped.houses op a (sound.peek? peeked)
        simp only
        cases result : intResult (s.dropTop 2).heap op a rhs with
        | error f =>
          rw [result] at checked
          exact dropped.ofFault checked
        | ok v =>
          rw [result] at checked
          exact (dropped.push checked).done
    · simp only [two, if_false]
      exact sound.error rfl

theorem checked_indexOperand {h : Heap} (houses : h.Houses classes objects) (length : Nat)
    (valid : v.Valid objects) : Checked (· < length) (indexOperand h v length) := by
  unfold indexOperand
  cases v.toInt? with
  | none => exact houses.wrongType valid _ _
  | some index =>
    simp only [checkIndex]
    by_cases inside : 0 ≤ index ∧ index < length
    · simp only [inside, and_self, if_true]
      change index.toNat < length
      omega
    · simp only [inside, if_false]
      rfl

theorem Sound.arrayGet (sound : s.Sound classes width objects) {array : Value} {a length : Nat}
    (ref : array.addr? = some a) (here : objects a)
    (sized : s.heap.wordsAt classes a = length + 2) :
    (s.arrayGet array length).Sound classes width objects := by
  unfold Store.arrayGet
  cases peeked : s.peek? 0 with
  | none => exact sound.error rfl
  | some index =>
    have dropped := sound.dropTop 2
    have checked := checked_indexOperand dropped.houses length (sound.peek? peeked)
    simp only
    cases found : indexOperand (s.dropTop 2).heap index length with
    | error f =>
      rw [found] at checked
      exact dropped.ofFault checked
    | ok i =>
      rw [found] at checked
      change i < length at checked
      have word : 2 + i < (s.dropTop 2).heap.wordsAt classes a := by
        change 2 + i < s.heap.wordsAt classes a
        omega
      simp only [Heap.arrayGet, dropped.houses.loadWord ref here word, bind, Except.bind]
      exact (dropped.push (dropped.houses.item here word)).done

theorem Sound.arraySet (sound : s.Sound classes width objects) {array : Value} {a length : Nat}
    (ref : array.addr? = some a) (here : objects a)
    (sized : s.heap.wordsAt classes a = length + 2) :
    (s.arraySet array length).Sound classes width objects := by
  unfold Store.arraySet
  cases top : s.peek? 0 with
  | none => exact sound.error rfl
  | some v =>
    cases second : s.peek? 1 with
    | none => exact sound.error rfl
    | some index =>
      have dropped := sound.dropTop 3
      have checked := checked_indexOperand dropped.houses length (sound.peek? second)
      simp only
      cases found : indexOperand (s.dropTop 3).heap index length with
      | error f =>
        rw [found] at checked
        exact dropped.ofFault checked
      | ok i =>
        rw [found] at checked
        change i < length at checked
        have word : 2 + i < (s.dropTop 3).heap.wordsAt classes a := by
          change 2 + i < s.heap.wordsAt classes a
          omega
        obtain ⟨heap, stored, houses⟩ := dropped.houses.storeWord ref here word (sound.peek? top)
        simp only [Heap.arraySet, stored]
        exact ((dropped.withHeap houses fun _ here => here).push Value.valid_null).done

theorem Sound.callArray (sound : s.Sound classes width objects) (name : String) (arity : Nat)
    {array : Value} {a length : Nat} (ref : array.addr? = some a) (here : objects a)
    (sized : s.heap.wordsAt classes a = length + 2) :
    (s.callArray name arity array length).Sound classes width objects := by
  unfold Store.callArray
  cases ArrayOp.ofName? name with
  | none => exact sound.error rfl
  | some op =>
    by_cases matching : arity = op.arity
    · simp only [matching, if_true]
      cases op with
      | length => exact ((sound.dropTop 1).push (Value.valid_ofInt _)).done
      | get => exact sound.arrayGet ref here sized
      | set => exact sound.arraySet ref here sized
    · simp only [matching, if_false]
      exact sound.error rfl

def Called.Sound (classes : ClassTable) (width : Nat) (objects : Nat → Prop) : Called τ → Prop
  | .effect e => e.Sound classes width objects
  | .enter _ => True

theorem Sound.callSlot (sound : s.Sound classes width objects) (arity : Nat) (slot : Selector τ) :
    (s.callSlot arity slot).Sound classes width objects := by
  unfold Store.callSlot
  by_cases zero : arity = 0
  · simp only [zero, if_true]
    exact sound.error rfl
  · simp only [zero, if_false]
    cases peeked : s.peek? (arity - 1) with
    | none => exact sound.error rfl
    | some receiver =>
      have valid := sound.peek? peeked
      simp only
      rcases valid.kind? with ⟨-, kind⟩ | ⟨-, kind⟩ | ⟨a, ref, here, kind⟩
      · simp only [kind]
        exact sound.callInt _ _ _
      · simp only [kind]
        exact sound.error rfl
      · simp only [kind]
        rcases sound.houses.shape? ref here with ⟨-, shape, sized⟩ | ⟨index, -, -, shape, -⟩
        · simp only [shape]
          exact sound.callArray _ _ ref here sized
        · simp only [shape]
          have checked := sound.houses.findMethod slot valid
          cases found : s.heap.findMethod receiver slot with
          | error f =>
            rw [found] at checked
            exact sound.ofFault checked
          | ok target => trivial

theorem Sound.arrayLength (sound : s.Sound classes width objects) :
    Checked (fun _ => True) s.arrayLength := by
  unfold Store.arrayLength
  cases peeked : s.peek? 1 with
  | none => exact rfl
  | some length =>
    simp only
    cases length.toInt?.filter (0 ≤ ·) with
    | some n => trivial
    | none =>
      obtain ⟨t, typed⟩ := (sound.peek? peeked).typeName
      simp only [typed, orCrash, bind, Except.bind]
      rfl

theorem Sound.buildArray (sound : s.Sound classes width objects) {len : Nat}
    (fits : s.heap.fits (Heap.blockSize len) = true) :
    (s.buildArray len).Sound classes width objects := by
  unfold Store.buildArray
  cases peeked : s.peek? 0 with
  | none => exact sound.error rfl
  | some init =>
    have houses := sound.houses.pushArray fits (sound.peek? peeked)
    have grown : ∀ a, objects a → objects a ∨ a = s.heap.top := fun _ here => .inl here
    have ref := sound.houses.heap.addr?_top (len + 2) (by omega) fits
    have new : (Value.ofAddr s.heap.top).Valid fun a => objects a ∨ a = s.heap.top :=
      .inr (.inr ⟨_, ref, .inr rfl⟩)
    exact ⟨_, grown, ((sound.withHeap houses grown).dropTop 2).push new⟩

/-- The words of a new instance: slots are written over nulls, and last the parent. -/
def putObject (m : Memory) (place : Nat) (header parent : UInt64) (slots : List UInt64) : Memory :=
  (((m.put place header).fill (place + 1) Value.null.raw (slots.length + 1)).putAll
    (place + 2) slots).put (place + 1) parent

section
variable {m : Memory} {place : Nat} {header parent : UInt64} {slots : List UInt64}

@[simp] theorem capacity_putObject :
    (putObject m place header parent slots).capacity = m.capacity := by
  simp [putObject]

theorem word_putObject_below {i : Nat} (low : i < place) :
    (putObject m place header parent slots).word i = m.word i := by
  rw [putObject, Memory.word_put_other _ _ _ _ (by omega),
    Memory.word_putAll_outside _ _ _ _ (by omega), Memory.word_fill_outside _ _ _ _ _ (by omega),
    Memory.word_put_other _ _ _ _ (by omega)]

theorem word_putObject_header (inside : place < m.capacity) :
    (putObject m place header parent slots).word place = header := by
  rw [putObject, Memory.word_put_other _ _ _ _ (by omega),
    Memory.word_putAll_outside _ _ _ _ (by omega), Memory.word_fill_outside _ _ _ _ _ (by omega)]
  exact Memory.word_put_same _ _ _ inside

theorem word_putObject_parent (inside : place + 1 < m.capacity) :
    (putObject m place header parent slots).word (place + 1) = parent :=
  Memory.word_put_same _ _ _ (by simpa using inside)

theorem word_putObject_slot (inside : place + 2 + slots.length ≤ m.capacity) {n : Nat}
    (bound : n < slots.length) :
    (putObject m place header parent slots).word (place + 2 + n) = slots.get ⟨n, bound⟩ := by
  rw [putObject, Memory.word_put_other _ _ _ _ (by omega)]
  exact Memory.word_putAll_inside _ _ _ _ (by simpa using inside) bound

end

theorem fillObject_eq {h : Heap} {slots : List Value} (ref : (Value.ofAddr h.top).addr? = some h.top)
    (inside : h.top / 8 + (slots.length + 2) ≤ h.memory.capacity)
    (small : Heap.blockSize slots.length < UInt64.size) (index : Nat) (parent : Value) :
    fillObject h index parent slots = .ok (.ofAddr h.top,
      { h with
        memory := putObject h.memory (h.top / 8) (1 + index.toUInt64) parent.raw (slots.map (·.raw))
        top := h.top + Heap.blockSize slots.length }) := by
  have room : h.top / 8 + 2 + 0 + slots.length ≤ h.memory.capacity := by omega
  have place : (h.top + 8 * 1) / 8 = h.top / 8 + 1 := by omega
  have second : h.top / 8 + 1 < h.memory.capacity := by omega
  simp only [fillObject, Heap.pushObject_of_lt h index small]
  rw [Heap.setSlots_eq _ ref 0 slots (by simpa using room)]
  simp [bind, Except.bind, pure, Except.pure, Heap.setParent, Heap.storeWord, Heap.wordAddr, ref,
    Heap.store, place, second, putObject]

theorem extentAt_of_instance {h : Heap} {a index : Nat} (small : index < 2 ^ 32)
    (header : h.wordAt a 0 = 1 + index.toUInt64) :
    h.extentAt classes a = ⟨classes.nvars index + 2, 1⟩ := by
  have tag := Heap.toNat_instanceTag (show index + 1 < 2 ^ 64 by omega)
  have plain : (1 : UInt64) + index.toUInt64 ≠ Heap.arrayTag := by
    intro array
    rw [← UInt64.toNat_inj, tag] at array
    cases array
  rw [Heap.extentAt, header, if_neg plain, tag, Nat.add_sub_cancel]

theorem wordAt_fillObject {h : Heap} (heap : h.WellFormed) (index : Nat) (parent : Value)
    {slots : List Value} (fits : h.fits (Heap.blockSize slots.length) = true) :
    ∃ memory, fillObject h index parent slots = .ok (.ofAddr h.top,
        { h with memory := memory, top := h.top + Heap.blockSize slots.length }) ∧
      memory.capacity = h.memory.capacity ∧
      (∀ i < h.top / 8, memory.word i = h.memory.word i) ∧
      memory.word (h.top / 8) = 1 + index.toUInt64 ∧
      memory.word (h.top / 8 + 1) = parent.raw ∧
      ∀ n v, slots[n]? = some v → memory.word (h.top / 8 + (2 + n)) = v.raw := by
  obtain ⟨-, inside, -⟩ := heap.room fits
  have ref := heap.addr?_top (slots.length + 2) (by omega) fits
  refine ⟨_, fillObject_eq ref inside (heap.lt_of_fits fits) index parent, capacity_putObject,
    fun i => word_putObject_below, word_putObject_header (by omega),
    word_putObject_parent (by omega), fun n v found => ?_⟩
  obtain ⟨bound, rfl⟩ := List.getElem?_eq_some_iff.mp found
  rw [← Nat.add_assoc, word_putObject_slot (by rw [List.length_map]; omega)
    (by rw [List.length_map]; exact bound), List.get_eq_getElem, List.getElem_map]

theorem houses_fillObject {h : Heap} (houses : h.Houses classes objects)
    (few : classes.size < 2 ^ 32) {index : Nat} (known : index < classes.size) {parent : Value}
    {slots : List Value} (count : slots.length = classes.nvars index)
    (fits : h.fits (Heap.blockSize slots.length) = true) (above : parent.Valid objects)
    (valid : ∀ v ∈ slots, v.Valid objects) :
    ∃ h', fillObject h index parent slots = .ok (.ofAddr h.top, h') ∧
      h'.Houses classes fun a => objects a ∨ a = h.top := by
  obtain ⟨memory, filled, capacity, below, header, second, slot⟩ :=
    wordAt_fillObject houses.heap index parent fits
  have extent (top : Nat) : Heap.extentAt ⟨memory, h.semispace, h.base, top, h.cycles,
      h.bytesCopied⟩ classes h.top = ⟨classes.nvars index + 2, 1⟩ :=
    extentAt_of_instance (Nat.lt_trans known few) header
  refine ⟨_, filled, houses.extend (houses.heap.bump fits capacity) rfl ?_ below
    (.inr ⟨index, known, ?_⟩) ?_⟩
  · rw [Heap.sizeAt, Heap.wordsAt, extent, count]
    rfl
  · exact (congrArg UInt64.toNat header).trans (Heap.toNat_instanceTag (by omega))
  · intro v field
    obtain ⟨n, first, bound, rfl⟩ := (Heap.mem_fieldsAt_iff _ classes h.top v).mp field
    rw [extent] at first
    rw [Heap.wordsAt, extent, ← count] at bound
    change 1 ≤ n at first
    change n < slots.length + 2 at bound
    rw [Heap.wordAt]
    by_cases one : n = 1
    · rw [one, second]
      exact above
    · obtain ⟨k, rfl⟩ : ∃ k, n = 2 + k := ⟨n - 2, by omega⟩
      have found : slots[k]? = some slots[k] := List.getElem?_eq_getElem (by omega)
      rw [slot k _ found]
      exact valid _ (List.getElem_mem _)

theorem Sound.buildObject (sound : s.Sound classes width objects) (few : classes.size < 2 ^ 32)
    {nvars index : Nat} (known : index < classes.size) (count : nvars = classes.nvars index)
    (fits : s.heap.fits (Heap.blockSize nvars) = true) :
    (s.buildObject nvars index).Sound classes width objects := by
  unfold Store.buildObject
  cases peeked : s.peek? nvars with
  | none => exact sound.error rfl
  | some parent =>
    have length : (s.top nvars).toList.length = nvars := by
      unfold Store.peek? at peeked
      split at peeked
      · simp only [Store.top, Array.length_toList, Array.size_extract]
        omega
      · cases peeked
    obtain ⟨h', filled, houses⟩ := houses_fillObject sound.houses few known (length.trans count)
      (length.symm ▸ fits) (sound.peek? peeked) (sound.top nvars)
    have grown : ∀ a, objects a → objects a ∨ a = s.heap.top := fun _ here => .inl here
    have ref := sound.houses.heap.addr?_top (nvars + 2) (by omega) fits
    have new : (Value.ofAddr s.heap.top).Valid fun a => objects a ∨ a = s.heap.top :=
      .inr (.inr ⟨_, ref, .inr rfl⟩)
    simp only [filled]
    exact ⟨_, grown, ((sound.withHeap houses grown).dropTop (nvars + 1)).push new⟩

end
end Store
end SlotVM
