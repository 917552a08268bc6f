import SlotVM.Proofs.Heap.Pairing
import SlotVM.Proofs.Machine.Calls
import SlotVM.Proofs.Pointwise

namespace SlotVM

namespace Value

section
variable {pairs : Nat → Nat → Prop} {v w : Value}

theorem tag_of_addr? {a : Nat} (ref : v.addr? = some a) : v.tag = 1 := by
  by_contra other
  simp [addr?, isObject, other] at ref

theorem Paired.kind? (paired : Paired pairs v w) : v.kind? = w.kind? := by
  cases paired with
  | plain _ => rfl
  | ref left right _ => simp only [Value.kind?, tag_of_addr? left, tag_of_addr? right]

theorem Paired.toInt? (paired : Paired pairs v w) : v.toInt? = w.toInt? := by
  cases paired with
  | plain _ => rfl
  | ref left right _ => simp [Value.toInt?, isInt, tag_of_addr? left, tag_of_addr? right]

theorem Paired.isNull (paired : Paired pairs v w) : v.isNull = w.isNull := by
  have plain {u : Value} {a : Nat} (ref : u.addr? = some a) : u.isNull = false := by
    by_contra null
    have tag := tag_of_addr? ref
    simp only [Value.isNull, Bool.not_eq_false, beq_iff_eq] at null
    rw [Value.tag, null] at tag
    exact absurd tag (by decide)
  cases paired with
  | plain _ => rfl
  | ref left right _ => rw [plain left, plain right]

theorem Paired.typeName (paired : Paired pairs v w) : v.typeName = w.typeName := by
  rw [Value.typeName, Value.typeName, paired.kind?]

theorem Valid.paired (valid : v.Valid fun _ => False) : Paired pairs v v := by
  rcases valid with int | null | ⟨a, _, here⟩
  · exact .plain (.inl int)
  · exact .plain (.inr null)
  · exact here.elim

end
end Value

/-- Both succeed, with related results, or fail in the same way. -/
inductive Alike {α β : Type} (related : α → β → Prop) : Except Fault α → Except Fault β → Prop
  | ok {a : α} {b : β} (results : related a b) : Alike related (.ok a) (.ok b)
  | error (f : Fault) : Alike related (.error f) (.error f)

namespace Heap

section
variable {h k : Heap} {classes : ClassTable} {pairs : Nat → Nat → Prop} {v w : Value} {τ : Type}

theorem Paired.typeName (paired : Paired classes pairs h k) (values : Value.Paired pairs v w) :
    h.typeName v = k.typeName w := by
  rw [Heap.typeName, Heap.typeName, paired.shape? values, values.typeName]

theorem Paired.wrongType (paired : Paired classes pairs h k) (values : Value.Paired pairs v w)
    {α β : Type} (related : α → β → Prop) (usage : Usage) :
    Alike related (h.wrongType usage v) (k.wrongType usage w) := by
  rw [Heap.wrongType, Heap.wrongType, paired.typeName values]
  cases k.typeName w with
  | ok t => exact .error _
  | error c => exact .error _

def SamePart {α : Type} (pairs : Nat → Nat → Prop) (x y : Value × α) : Prop :=
  Value.Paired pairs x.1 y.1 ∧ x.2 = y.2

theorem Paired.lookupFrom (paired : Paired classes pairs h k) (slot : Selector τ) {fuel fuel' : Nat}
    (values : Value.Paired pairs v w)
    (ends : h.lookupFrom slot fuel v ≠ .error (.crash .parentCycle))
    (ends' : k.lookupFrom slot fuel' w ≠ .error (.crash .parentCycle)) :
    Alike (SamePart pairs) (h.lookupFrom slot fuel v) (k.lookupFrom slot fuel' w) := by
  induction fuel generalizing fuel' v w with
  | zero => exact absurd rfl ends
  | succ fuel ih =>
    cases fuel' with
    | zero => exact absurd rfl ends'
    | succ fuel' =>
      cases values with
      | plain kind =>
        have shape (l : Heap) : l.shape? v = .ok none := by
          simp only [Heap.shape?, Value.addr?_of_plain kind]
        simp only [Heap.lookupFrom, shape]
        exact paired.wrongType (.plain kind) _ _
      | @ref _ a b left right pair =>
        have same := paired.shape? (.ref left right pair)
        unfold Heap.lookupFrom at ends ends' ⊢
        rcases paired.left.shape? left ⟨b, pair⟩ with ⟨_, shape, _⟩ | ⟨index, _, plain, shape, size⟩
        · rw [shape] at same
          simp only [shape, ← same]
          exact paired.wrongType (.ref left right pair) _ _
        · rw [shape] at same
          simp only [shape, ← same] at ends ends' ⊢
          cases declares : slot.declares index with
          | some member => exact .ok ⟨.ref left right pair, rfl⟩
          | none =>
            have size' := paired.words pair
            have above : h.parent v = .ok ⟨h.wordAt a 1⟩ := by
              simp only [Heap.parent, paired.left.loadWord left ⟨b, pair⟩ (n := 1) (by omega), bind,
                Except.bind]
              rfl
            have above' : k.parent w = .ok ⟨k.wordAt b 1⟩ := by
              simp only [Heap.parent, paired.right.loadWord right ⟨a, pair⟩ (n := 1) (by omega),
                bind, Except.bind]
              rfl
            have parents := paired.parent pair plain
            simp only [declares, above, above', parents.isNull] at ends ends' ⊢
            by_cases null : (Value.mk (k.wordAt b 1)).isNull
            · simp only [null, if_true]
              exact .error _
            · simp only [null, Bool.false_eq_true, if_false] at ends ends' ⊢
              exact ih parents ends ends'

theorem Houses.lookup_ends {objects : Nat → Prop} (houses : h.Houses classes objects)
    (slot : Selector τ) (valid : v.Valid objects) :
    h.lookup v slot ≠ .error (.crash .parentCycle) := by
  intro crashed
  have checked := houses.lookup slot valid
  rw [crashed] at checked
  exact checked

theorem Paired.lookup (paired : Paired classes pairs h k) (slot : Selector τ)
    (values : Value.Paired pairs v w) :
    Alike (SamePart pairs) (h.lookup v slot) (k.lookup w slot) := by
  have ends := paired.left.lookup_ends slot values.valid
  have ends' := paired.right.lookup_ends slot values.symm.valid
  unfold Heap.lookup at ends ends' ⊢
  rw [values.isNull] at ends ⊢
  by_cases null : w.isNull
  · simp only [null, if_true]
    exact .error _
  · simp only [null, Bool.false_eq_true, if_false] at ends ends' ⊢
    exact paired.lookupFrom slot values ends ends'

theorem Paired.findVar (paired : Paired classes pairs h k) (slot : Selector τ)
    (values : Value.Paired pairs v w) :
    Alike (SamePart pairs) (h.findVar v slot) (k.findVar w slot) := by
  have looked := paired.lookup slot values
  unfold Heap.findVar
  generalize h.lookup v slot = found at looked
  generalize k.lookup w slot = found' at looked
  cases looked with
  | error f => exact .error f
  | @ok x y results =>
    obtain ⟨owner, member⟩ := x
    obtain ⟨owner', member'⟩ := y
    obtain ⟨owners, rfl⟩ := results
    cases member with
    | var index => exact .ok ⟨owners, rfl⟩
    | code target => exact .error _

theorem Paired.findMethod (paired : Paired classes pairs h k) (slot : Selector τ)
    (values : Value.Paired pairs v w) : Alike Eq (h.findMethod v slot) (k.findMethod w slot) := by
  have looked := paired.lookup slot values
  unfold Heap.findMethod
  generalize h.lookup v slot = found at looked
  generalize k.lookup w slot = found' at looked
  cases looked with
  | error f => exact .error f
  | @ok x y results =>
    obtain ⟨owner, member⟩ := x
    obtain ⟨owner', member'⟩ := y
    obtain ⟨owners, rfl⟩ := results
    cases member with
    | var index => exact .error _
    | code target => exact .ok rfl

end
end Heap

/-- What a run finds and does not change: the size of a semispace, and a sink that takes whatever is
printed. -/
structure Setting where
  semispace : Nat
  sink : Sink
  endless : sink.limit = none

structure Store.Paired (classes : ClassTable) (left right : Setting) (pairs : Nat → Nat → Prop)
    (s t : Store) : Prop where
  heap : Heap.Paired classes pairs s.heap t.heap
  stack : List.Forall₂ (Value.Paired pairs) s.stack.toList t.stack.toList
  globals : List.Forall₂ (Value.Paired pairs) s.globals.toList t.globals.toList
  semispace : s.heap.semispace = left.semispace
  semispace' : t.heap.semispace = right.semispace
  printed : ∃ text, s.sink = left.sink.write text ∧ t.sink = right.sink.write text

inductive Effect.Paired (classes : ClassTable) (left right : Setting) (pairs : Nat → Nat → Prop) :
    Effect → Effect → Prop
  | done {s t : Store} (pairs' : Nat → Nat → Prop) (grown : ∀ a b, pairs a b → pairs' a b)
      (stores : Store.Paired classes left right pairs' s t) :
      Paired classes left right pairs (.done s) (.done t)
  | error (e : RuntimeError) {s t : Store} (stores : Store.Paired classes left right pairs s t) :
      Paired classes left right pairs (.error e s) (.error e t)
  | crash (c : Crash) : Paired classes left right pairs (.crash c) (.crash c)

namespace Store

section
variable {classes : ClassTable} {left right : Setting} {pairs pairs' : Nat → Nat → Prop}
  {s t : Store} {v w : Value} {τ : Type}

theorem Paired.symm (paired : Paired classes left right pairs s t) :
    Paired classes right left (Function.swap pairs) t s := by
  have turned {xs ys : List Value} (each : List.Forall₂ (Value.Paired pairs) xs ys) :
      List.Forall₂ (Value.Paired (Function.swap pairs)) ys xs :=
    (each.imp fun _ _ values => values.symm).flip
  obtain ⟨text, printed, printed'⟩ := paired.printed
  exact ⟨paired.heap.symm, turned paired.stack, turned paired.globals, paired.semispace',
    paired.semispace, text, printed', printed⟩

theorem Paired.done (paired : Paired classes left right pairs s t) :
    Effect.Paired classes left right pairs (.done s) (.done t) := .done pairs (fun _ _ pair => pair) paired

theorem Paired.ofFault (paired : Paired classes left right pairs s t) (f : Fault) :
    Effect.Paired classes left right pairs (.ofFault f s) (.ofFault f t) := by
  cases f with
  | error e => exact .error e paired
  | crash c => exact .crash c

theorem Paired.size (paired : Paired classes left right pairs s t) : s.stack.size = t.stack.size := by
  have length := paired.stack.length_eq
  rwa [Array.length_toList, Array.length_toList] at length

theorem Paired.peek? (paired : Paired classes left right pairs s t) (depth : Nat) :
    (s.peek? depth = none ∧ t.peek? depth = none) ∨
      ∃ v w, s.peek? depth = some v ∧ t.peek? depth = some w ∧ Value.Paired pairs v w := by
  unfold Store.peek?
  rw [paired.size]
  by_cases inside : depth < t.stack.size
  · simp only [inside, if_true, ← Array.getElem?_toList]
    exact forall₂_getElem? paired.stack _
  · simp only [inside, if_false]
    exact .inl ⟨trivial, trivial⟩

theorem Paired.top (paired : Paired classes left right pairs s t) (count : Nat) :
    List.Forall₂ (Value.Paired pairs) (s.top count).toList (t.top count).toList := by
  simp only [Store.top, Array.toList_extract, List.extract_eq_take_drop, paired.size]
  exact List.forall₂_take _ (List.forall₂_drop _ paired.stack)

theorem Paired.push (paired : Paired classes left right pairs s t) (values : Value.Paired pairs v w) :
    Paired classes left right pairs (s.push v) (t.push w) := by
  refine { paired with stack := ?_ }
  rw [Store.push, Store.push, Array.toList_push, Array.toList_push]
  exact List.rel_append paired.stack (.cons values .nil)

theorem Paired.dropTop (paired : Paired classes left right pairs s t) (count : Nat) :
    Paired classes left right pairs (s.dropTop count) (t.dropTop count) := by
  refine { paired with stack := ?_ }
  rw [Store.dropTop, Store.dropTop, Array.toList_shrink, Array.toList_shrink, paired.size]
  exact List.forall₂_take _ paired.stack

theorem Paired.withHeap (paired : Paired classes left right pairs s t) {h k : Heap}
    (heap : Heap.Paired classes pairs' h k) (grown : ∀ a b, pairs a b → pairs' a b)
    (semispace : h.semispace = s.heap.semispace) (semispace' : k.semispace = t.heap.semispace) :
    Paired classes left right pairs' { s with heap := h } { t with heap := k } :=
  ⟨heap, paired.stack.imp fun _ _ values => values.mono grown,
    paired.globals.imp fun _ _ values => values.mono grown, semispace.trans paired.semispace,
    semispace'.trans paired.semispace', paired.printed⟩

theorem renderFormat_eq (given : Nat) (seen cs : List Char) {args args' : List Value}
    (each : List.Forall₂ (Value.Paired pairs) args args') :
    renderFormat given seen cs args = renderFormat given seen cs args' := by
  induction cs generalizing seen args args' with
  | nil => rfl
  | cons c cs ih =>
    unfold renderFormat
    by_cases hole : c = '~'
    · simp only [hole, if_true]
      cases each with
      | nil => rfl
      | @cons arg arg' args args' first rest =>
        simp only [first.toInt?, first.typeName]
        cases arg'.toInt? with
        | some n => exact ih _ rest
        | none => rfl
    · simp only [hole, if_false]
      exact ih _ each

theorem accepts_of_endless {sink : Sink} (endless : sink.limit = none) (text : String) :
    sink.accepts text = true := by
  rw [Sink.accepts, endless]

theorem write_write (sink : Sink) (first second : String) :
    (sink.write first).write second = sink.write (first ++ second) := by
  simp [Sink.write, String.append_assoc]

theorem Paired.printf (paired : Paired classes left right pairs s t) (format : String)
    (arity : Nat) :
    Effect.Paired classes left right pairs (s.printf format arity) (t.printf format arity) := by
  unfold Store.printf
  rw [paired.size, renderFormat_eq arity [] format.toList (paired.top arity)]
  by_cases short : t.stack.size < arity
  · simp only [short, if_true]
    exact .error _ paired
  · simp only [short, if_false]
    cases renderFormat arity [] format.toList (t.top arity).toList with
    | error f => exact paired.ofFault f
    | ok text =>
      obtain ⟨before, printed, printed'⟩ := paired.printed
      have accepts : s.sink.accepts text = true :=
        accepts_of_endless (by rw [printed]; exact left.endless) text
      have accepts' : t.sink.accepts text = true :=
        accepts_of_endless (by rw [printed']; exact right.endless) text
      have written : Paired classes left right pairs { s with sink := s.sink.write text }
          { t with sink := t.sink.write text } := by
        refine { paired with printed := ⟨before ++ text, ?_, ?_⟩ }
        · rw [printed, write_write]
        · rw [printed', write_write]
      simp only [accepts, accepts', if_true]
      exact ((written.dropTop arity).push Value.paired_null).done

theorem Paired.findVar_cases (paired : Paired classes left right pairs s t) {slot : Selector τ}
    (sized : slot.Fits classes) (values : Value.Paired pairs v w) :
    (∃ f, s.heap.findVar v slot = .error f ∧ t.heap.findVar w slot = .error f) ∨
      ∃ object object' index a b, s.heap.findVar v slot = .ok (object, index) ∧
        t.heap.findVar w slot = .ok (object', index) ∧ object.addr? = some a ∧
        object'.addr? = some b ∧ pairs a b ∧ 2 + index < s.heap.wordsAt classes a := by
  have alike := paired.heap.findVar slot values
  have checked := paired.heap.left.findVar sized values.valid
  generalize s.heap.findVar v slot = found at alike checked
  generalize t.heap.findVar w slot = found' at alike
  cases alike with
  | error f => exact .inl ⟨f, rfl, rfl⟩
  | @ok x y results =>
    obtain ⟨object, index⟩ := x
    obtain ⟨object', index'⟩ := y
    obtain ⟨owners, rfl⟩ := results
    obtain ⟨a, ref, -, word⟩ := checked
    obtain ⟨b, ref', pair⟩ := owners.exists_addr? ref
    exact .inr ⟨object, object', index, a, b, rfl, rfl, ref, ref', pair, word⟩

theorem Paired.load (paired : Paired classes left right pairs s t) {a b n : Nat}
    (ref : v.addr? = some a) (ref' : w.addr? = some b) (pair : pairs a b)
    (word : 2 + n < s.heap.wordsAt classes a) :
    s.heap.loadWord v (2 + n) = .ok (s.heap.wordAt a (2 + n)) ∧
      t.heap.loadWord w (2 + n) = .ok (t.heap.wordAt b (2 + n)) :=
  ⟨paired.heap.left.loadWord ref ⟨b, pair⟩ word,
    paired.heap.right.loadWord ref' ⟨a, pair⟩ (paired.heap.words pair ▸ word)⟩

theorem Paired.replace (paired : Paired classes left right pairs s t) {a b n : Nat}
    (pair : pairs a b) (word : 2 + n < s.heap.wordsAt classes a) (values : Value.Paired pairs v w) :
    Paired classes left right pairs { s with heap := s.heap.replace a (2 + n) v.raw }
      { t with heap := t.heap.replace b (2 + n) w.raw } :=
  paired.withHeap (paired.heap.replace pair word values) (fun _ _ pair => pair) rfl rfl

theorem Paired.getSlot (paired : Paired classes left right pairs s t) {slot : Selector τ}
    (sized : slot.Fits classes) :
    Effect.Paired classes left right pairs (s.getSlot slot) (t.getSlot slot) := by
  unfold Store.getSlot
  rcases paired.peek? 0 with ⟨none, none'⟩ | ⟨receiver, receiver', here, here', values⟩
  · simp only [none, none']
    exact .error _ paired
  · have dropped := paired.dropTop 1
    simp only [here, here']
    rcases dropped.findVar_cases sized values with
      ⟨f, failed, failed'⟩ | ⟨object, object', index, a, b, found, found', ref, ref', pair, word⟩
    · simp only [failed, failed']
      exact dropped.ofFault f
    · obtain ⟨loaded, loaded'⟩ := dropped.load ref ref' pair word
      simp only [found, found', Heap.slot, loaded, loaded', bind, Except.bind]
      exact (dropped.push (dropped.heap.item pair word)).done

theorem Paired.setSlot (paired : Paired classes left right pairs s t) {slot : Selector τ}
    (sized : slot.Fits classes) :
    Effect.Paired classes left right pairs (s.setSlot slot) (t.setSlot slot) := by
  unfold Store.setSlot
  rcases paired.peek? 0 with ⟨none, none'⟩ | ⟨v, w, first, first', values⟩
  · simp only [none, none']
    exact .error _ paired
  · rcases paired.peek? 1 with ⟨none, none'⟩ | ⟨receiver, receiver', second, second', receivers⟩
    · simp only [first, first', none, none']
      exact .error _ (paired.dropTop 1)
    · have dropped := paired.dropTop 2
      simp only [first, first', second, second']
      rcases dropped.findVar_cases sized receivers with
        ⟨f, failed, failed'⟩ | ⟨object, object', index, a, b, found, found', ref, ref', pair, word⟩
      · simp only [failed, failed']
        exact dropped.ofFault f
      · have word' := dropped.heap.words pair ▸ word
        simp only [found, found', Heap.setSlot, dropped.heap.left.storeWord_eq ref ⟨b, pair⟩ word,
          dropped.heap.right.storeWord_eq ref' ⟨a, pair⟩ word']
        exact ((dropped.replace pair word values).push values).done

theorem Paired.getGlobal (paired : Paired classes left right pairs s t) (index : Nat) :
    Effect.Paired classes left right pairs (s.getGlobal index) (t.getGlobal index) := by
  unfold Store.getGlobal
  simp only [← Array.getElem?_toList]
  rcases forall₂_getElem? paired.globals index with ⟨none, none'⟩ | ⟨v, w, here, here', values⟩
  · simp only [none, none']
    exact .crash _
  · simp only [here, here']
    exact (paired.push values).done

theorem Paired.setGlobal (paired : Paired classes left right pairs s t) (index : Nat) :
    Effect.Paired classes left right pairs (s.setGlobal index) (t.setGlobal index) := by
  have size := paired.globals.length_eq
  rw [Array.length_toList, Array.length_toList] at size
  unfold Store.setGlobal
  rcases paired.peek? 0 with ⟨none, none'⟩ | ⟨v, w, here, here', values⟩
  · simp only [none, none']
    exact .error _ paired
  · simp only [here, here', size]
    by_cases inside : index < t.globals.size
    · simp only [inside, if_true]
      have globals := forall₂_set paired.globals index values
      rw [← Array.toList_setIfInBounds, ← Array.toList_setIfInBounds] at globals
      exact Paired.done { paired with globals }
    · simp only [inside, if_false]
      exact .crash _

theorem Paired.drop (paired : Paired classes left right pairs s t) :
    Effect.Paired classes left right pairs s.drop t.drop := by
  unfold Store.drop
  simp only [Array.isEmpty, paired.size]
  by_cases empty : t.stack.size = 0
  · simp only [empty, decide_true, if_true]
    exact .error _ paired
  · simp only [empty, decide_false, Bool.false_eq_true, if_false]
    exact (paired.dropTop 1).done

end
end Store
end SlotVM
