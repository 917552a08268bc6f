import SlotVM.Proofs.Machine.Pairing

namespace SlotVM.Store

section
variable {classes : ClassTable} {left right : Setting} {pairs : Nat → Nat → Prop} {s t : Store}
  {v w : Value} {τ : Type}

theorem alike_intResult {h k : Heap} (paired : Heap.Paired classes pairs h k) (op : IntOp) (a : Int)
    (values : Value.Paired pairs v w) :
    Alike (Value.Paired pairs) (intResult h op a v) (intResult k op a w) := by
  unfold intResult
  rw [values.toInt?]
  cases w.toInt? with
  | some b =>
    simp only
    cases applied : op.apply a b with
    | ok u => exact .ok (valid_apply applied).paired
    | error e => exact .error _
  | none =>
    by_cases eq : op = .eq
    · simp only [eq, if_true]
      exact .ok Value.paired_null
    · simp only [eq, if_false]
      exact paired.wrongType values _ _

theorem Paired.callInt (paired : Paired classes left right pairs s t) (name : String) (arity : Nat)
    (a : Int) :
    Effect.Paired classes left right pairs (s.callInt name arity a) (t.callInt name arity a) := by
  unfold Store.callInt
  cases IntOp.ofName? name with
  | none => exact .error _ paired
  | some op =>
    by_cases two : arity = 2
    · simp only [two, if_true]
      rcases paired.peek? 0 with ⟨none, none'⟩ | ⟨rhs, rhs', here, here', values⟩
      · simp only [none, none']
        exact .error _ paired
      · have dropped := paired.dropTop 2
        have alike := alike_intResult dropped.heap op a values
        simp only [here, here']
        generalize intResult (s.dropTop 2).heap op a rhs = result at alike
        generalize intResult (t.dropTop 2).heap op a rhs' = result' at alike
        cases alike with
        | error f => exact dropped.ofFault f
        | ok results => exact (dropped.push results).done
    · simp only [two, if_false]
      exact .error _ paired

theorem alike_indexOperand {h k : Heap} (paired : Heap.Paired classes pairs h k) (length : Nat)
    (values : Value.Paired pairs v w) :
    Alike (fun i j => i = j ∧ i < length) (indexOperand h v length) (indexOperand k w length) := by
  unfold indexOperand
  rw [values.toInt?]
  cases w.toInt? with
  | none => exact paired.wrongType values _ _
  | some index =>
    simp only [checkIndex]
    by_cases inside : 0 ≤ index ∧ index < length
    · simp only [inside, and_self, if_true]
      exact .ok ⟨rfl, by omega⟩
    · simp only [inside, if_false]
      exact .error _

theorem Paired.arrayGet (paired : Paired classes left right pairs s t) {array array' : Value}
    {a b length : Nat} (ref : array.addr? = some a) (ref' : array'.addr? = some b)
    (pair : pairs a b) (sized : s.heap.wordsAt classes a = length + 2) :
    Effect.Paired classes left right pairs (s.arrayGet array length) (t.arrayGet array' length) := by
  unfold Store.arrayGet
  rcases paired.peek? 0 with ⟨none, none'⟩ | ⟨index, index', here, here', values⟩
  · simp only [none, none']
    exact .error _ paired
  · have dropped := paired.dropTop 2
    have alike := alike_indexOperand dropped.heap length values
    simp only [here, here']
    generalize indexOperand (s.dropTop 2).heap index length = found at alike
    generalize indexOperand (t.dropTop 2).heap index' length = found' at alike
    cases alike with
    | error f => exact dropped.ofFault f
    | @ok i j results =>
      obtain ⟨rfl, inside⟩ := results
      have word : 2 + i < (s.dropTop 2).heap.wordsAt classes a := by
        change 2 + i < s.heap.wordsAt classes a
        omega
      obtain ⟨loaded, loaded'⟩ := dropped.load ref ref' pair word
      simp only [Heap.arrayGet, loaded, loaded', bind, Except.bind]
      exact (dropped.push (dropped.heap.item pair word)).done

theorem Paired.arraySet (paired : Paired classes left right pairs s t) {array array' : Value}
    {a b length : Nat} (ref : array.addr? = some a) (ref' : array'.addr? = some b)
    (pair : pairs a b) (sized : s.heap.wordsAt classes a = length + 2) :
    Effect.Paired classes left right pairs (s.arraySet array length) (t.arraySet array' length) := by
  unfold Store.arraySet
  rcases paired.peek? 0 with ⟨none, none'⟩ | ⟨v, w, first, first', values⟩
  · simp only [none, none']
    exact .error _ paired
  · rcases paired.peek? 1 with ⟨none, none'⟩ | ⟨index, index', second, second', indices⟩
    · simp only [first, first', none, none']
      exact .error _ paired
    · have dropped := paired.dropTop 3
      have alike := alike_indexOperand dropped.heap length indices
      simp only [first, first', second, second']
      generalize indexOperand (s.dropTop 3).heap index length = found at alike
      generalize indexOperand (t.dropTop 3).heap index' length = found' at alike
      cases alike with
      | error f => exact dropped.ofFault f
      | @ok i j results =>
        obtain ⟨rfl, inside⟩ := results
        have word : 2 + i < (s.dropTop 3).heap.wordsAt classes a := by
          change 2 + i < s.heap.wordsAt classes a
          omega
        have word' := dropped.heap.words pair ▸ word
        simp only [Heap.arraySet, dropped.heap.left.storeWord_eq ref ⟨b, pair⟩ word,
          dropped.heap.right.storeWord_eq ref' ⟨a, pair⟩ word']
        exact ((dropped.replace pair word values).push Value.paired_null).done

theorem Paired.callArray (paired : Paired classes left right pairs s t) (name : String)
    (arity : Nat) {array array' : Value} {a b length : Nat} (ref : array.addr? = some a)
    (ref' : array'.addr? = some b) (pair : pairs a b)
    (sized : s.heap.wordsAt classes a = length + 2) :
    Effect.Paired classes left right pairs (s.callArray name arity array length)
      (t.callArray name arity array' length) := by
  unfold Store.callArray
  cases ArrayOp.ofName? name with
  | none => exact .error _ paired
  | some op =>
    by_cases matching : arity = op.arity
    · simp only [matching, if_true]
      cases op with
      | length => exact ((paired.dropTop 1).push (Value.paired_ofInt _)).done
      | get => exact paired.arrayGet ref ref' pair sized
      | set => exact paired.arraySet ref ref' pair sized
    · simp only [matching, if_false]
      exact .error _ paired

inductive Called.Paired (classes : ClassTable) (left right : Setting) (pairs : Nat → Nat → Prop) :
    Called τ → Called τ → Prop
  | effect {e e' : Effect} (effects : Effect.Paired classes left right pairs e e') :
      Paired classes left right pairs (.effect e) (.effect e')
  | enter (target : τ) : Paired classes left right pairs (.enter target) (.enter target)

theorem Paired.callSlot (paired : Paired classes left right pairs s t) (arity : Nat)
    (slot : Selector τ) :
    Called.Paired classes left right pairs (s.callSlot arity slot) (t.callSlot arity slot) := by
  unfold Store.callSlot
  by_cases zero : arity = 0
  · simp only [zero, if_true]
    exact .effect (.error _ paired)
  · simp only [zero, if_false]
    rcases paired.peek? (arity - 1) with ⟨none, none'⟩ | ⟨receiver, receiver', here, here', values⟩
    · simp only [none, none']
      exact .effect (.error _ paired)
    · have same := paired.heap.shape? values
      simp only [here, here', values.kind?, values.toInt?, same]
      rcases values.symm.valid.kind? with ⟨-, kind⟩ | ⟨-, kind⟩ | ⟨b, ref', ⟨a, pair⟩, kind⟩
      · simp only [kind]
        exact .effect (paired.callInt _ _ _)
      · simp only [kind]
        exact .effect (.error _ paired)
      · obtain ⟨a, ref, pair⟩ := values.symm.exists_addr? ref'
        simp only [kind]
        rcases paired.heap.right.shape? ref' ⟨a, pair⟩ with
          ⟨-, shape, sized⟩ | ⟨index, -, -, shape, -⟩
        · simp only [shape]
          exact .effect (paired.callArray _ _ ref ref' pair ((paired.heap.words pair).trans sized))
        · simp only [shape]
          have alike := paired.heap.findMethod slot values
          generalize s.heap.findMethod receiver slot = found at alike
          generalize t.heap.findMethod receiver' slot = found' at alike
          cases alike with
          | error f => exact .effect (paired.ofFault f)
          | ok results =>
            cases results
            exact .enter _

theorem Paired.arrayLength (paired : Paired classes left right pairs s t) :
    s.arrayLength = t.arrayLength := by
  unfold Store.arrayLength
  rcases paired.peek? 1 with ⟨none, none'⟩ | ⟨length, length', here, here', values⟩
  · simp only [none, none']
  · simp only [here, here', values.toInt?, values.typeName]

theorem Paired.buildArray (paired : Paired classes left right pairs s t) {len : Nat}
    (fits : s.heap.fits (Heap.blockSize len) = true)
    (fits' : t.heap.fits (Heap.blockSize len) = true) :
    Effect.Paired classes left right pairs (s.buildArray len) (t.buildArray len) := by
  unfold Store.buildArray
  rcases paired.peek? 0 with ⟨none, none'⟩ | ⟨init, init', here, here', values⟩
  · simp only [none, none']
    exact .error _ paired
  · have ref := paired.heap.left.heap.addr?_top (len + 2) (by omega) fits
    have ref' := paired.heap.right.heap.addr?_top (len + 2) (by omega) fits'
    have grown (a b : Nat) (pair : pairs a b) : Heap.Appended pairs s.heap t.heap a b := .inl pair
    have pushed := paired.withHeap (paired.heap.pushArray fits fits' values) grown rfl rfl
    simp only [here, here']
    exact .done _ grown ((pushed.dropTop 2).push (.ref ref ref' (.inr ⟨rfl, rfl⟩)))

theorem paired_fillObject {h k : Heap} (paired : Heap.Paired classes pairs h k)
    (few : classes.size < 2 ^ 32) {index : Nat} (known : index < classes.size)
    {parent parent' : Value} {slots slots' : List Value}
    (count : slots.length = classes.nvars index)
    (fits : h.fits (Heap.blockSize slots.length) = true)
    (fits' : k.fits (Heap.blockSize slots'.length) = true)
    (above : Value.Paired pairs parent parent')
    (each : List.Forall₂ (Value.Paired pairs) slots slots') :
    ∃ h' k', fillObject h index parent slots = .ok (.ofAddr h.top, h') ∧
      fillObject k index parent' slots' = .ok (.ofAddr k.top, k') ∧
      Heap.Paired classes (Heap.Appended pairs h k) h' k' ∧ h'.semispace = h.semispace ∧
      k'.semispace = k.semispace := by
  have left_valid : ∀ v ∈ slots, v.Valid fun a => ∃ b, pairs a b := fun v here => by
    obtain ⟨w, -, values⟩ := mem_forall₂ each here
    exact values.valid
  have right_valid : ∀ w ∈ slots', w.Valid fun b => ∃ a, pairs a b := fun w here => by
    obtain ⟨v, -, values⟩ := mem_forall₂ each.flip here
    exact values.symm.valid
  obtain ⟨memory, filled, -, below, header, second, slot⟩ :=
    wordAt_fillObject paired.left.heap index parent fits
  obtain ⟨memory', filled', -, below', header', second', slot'⟩ :=
    wordAt_fillObject paired.right.heap index parent' fits'
  obtain ⟨h', run, houses⟩ :=
    houses_fillObject paired.left few known count fits above.valid left_valid
  obtain ⟨k', run', houses'⟩ := houses_fillObject paired.right few known
    (each.length_eq ▸ count) fits' above.symm.valid right_valid
  cases filled.symm.trans run
  cases filled'.symm.trans run'
  refine ⟨_, _, filled, filled', ?_, rfl, rfl⟩
  have extent (top : Nat) : Heap.extentAt ⟨memory, h.semispace, h.base, top, h.cycles,
      h.bytesCopied⟩ classes h.top = ⟨classes.nvars index + 2, 1⟩ :=
    extentAt_of_instance (Nat.lt_trans known few) header
  refine paired.extend houses houses' below below' (header.trans header'.symm) ?_ ?_
  · intro array
    have tag := Heap.toNat_instanceTag (show index + 1 < 2 ^ 64 by omega)
    rw [Heap.wordAt, Nat.add_zero, header, ← UInt64.toNat_inj, tag] at array
    cases array
  · intro n first word
    rw [extent] at first
    rw [Heap.wordsAt, extent, ← count] at word
    change 1 ≤ n at first
    change n < slots.length + 2 at word
    rw [Heap.wordAt, Heap.wordAt]
    by_cases one : n = 1
    · rw [one, second, second']
      exact above
    · obtain ⟨m, rfl⟩ : ∃ m, n = 2 + m := ⟨n - 2, by omega⟩
      rcases forall₂_getElem? each m with ⟨none, -⟩ | ⟨v, w, here, here', values⟩
      · rw [List.getElem?_eq_none_iff] at none
        omega
      · rw [slot m v here, slot' m w here']
        exact values

theorem Paired.buildObject (paired : Paired classes left right pairs s t)
    (few : classes.size < 2 ^ 32) {nvars index : Nat} (known : index < classes.size)
    (count : nvars = classes.nvars index) (fits : s.heap.fits (Heap.blockSize nvars) = true)
    (fits' : t.heap.fits (Heap.blockSize nvars) = true) :
    Effect.Paired classes left right pairs (s.buildObject nvars index)
      (t.buildObject nvars index) := by
  unfold Store.buildObject
  rcases paired.peek? nvars with ⟨none, none'⟩ | ⟨parent, parent', here, here', values⟩
  · simp only [none, none']
    exact .error _ paired
  · have enough : nvars < s.stack.size := by
      unfold Store.peek? at here
      by_contra short
      simp [short] at here
    have length := length_top (Nat.le_of_lt enough)
    have length' := length_top (Nat.le_of_lt (paired.size ▸ enough))
    obtain ⟨h, k, filled, filled', heap, semispace, semispace'⟩ :=
      paired_fillObject paired.heap few known (length.trans count) (length.symm ▸ fits)
        (length'.symm ▸ fits') values (paired.top nvars)
    have ref := paired.heap.left.heap.addr?_top (nvars + 2) (by omega) fits
    have ref' := paired.heap.right.heap.addr?_top (nvars + 2) (by omega) fits'
    have grown (a b : Nat) (pair : pairs a b) : Heap.Appended pairs s.heap t.heap a b := .inl pair
    have pushed := paired.withHeap heap grown semispace semispace'
    simp only [here, here', filled, filled']
    exact .done _ grown ((pushed.dropTop (nvars + 1)).push (.ref ref ref' (.inr ⟨rfl, rfl⟩)))

end
end SlotVM.Store
