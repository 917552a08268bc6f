import SlotVM.Program.Builder
import Mathlib.Data.List.Induction

namespace SlotVM

/-- Equal constants of these kinds are one constant of the pool. -/
def Constant.Shared : Constant → Prop
  | .int _ | .null | .str _ => True
  | .method _ | .slot _ | .classDef _ => False

namespace Builder

inductive Call where
  | string (value : String)
  | int (value : Int32)
  | null
  | method (name : String) (nargs nlocals : UInt32) (code : List Ins)
  | slot (name : String)
  | classDef (slots : List UInt64)
  | global (index : UInt64)

namespace Call

def global? : Call → Option UInt64
  | .global index => some index
  | _ => none

def Adds : Call → Prop
  | .method _ _ _ _ | .slot _ | .classDef _ => True
  | _ => False

/-- The program has at the index the constant that the call asked for. -/
def Denotes (p : Program) (index : UInt64) : Call → Prop
  | .string value => p.constant? index = some (.str value)
  | .int value => p.constant? index = some (.int value)
  | .null => p.constant? index = some .null
  | .method name nargs nlocals code =>
    ∃ place, p.constant? index = some (.method ⟨place, nargs, nlocals, code⟩) ∧
      p.string? place = some name
  | .slot name => ∃ place, p.constant? index = some (.slot place) ∧ p.string? place = some name
  | .classDef slots => p.constant? index = some (.classDef slots)
  | .global _ => False

end Call

def perform (b : Builder) : Call → Builder × Option UInt64
  | .string value => (b.string value).map id some
  | .int value => (b.int value).map id some
  | .null => b.null.map id some
  | .method name nargs nlocals code => (b.method name nargs nlocals code).map id some
  | .slot name => (b.slot name).map id some
  | .classDef slots => (b.classDef slots).map id some
  | .global index => (b.global index, none)

structure Log where
  builder : Builder
  calls : List (Call × Option UInt64)

def Log.perform (log : Log) (call : Call) : Log :=
  ⟨(log.builder.perform call).1, log.calls ++ [(call, (log.builder.perform call).2)]⟩

def assemble (calls : List Call) : Log := calls.foldl Log.perform ⟨.empty, []⟩

theorem assemble_snoc (calls : List Call) (call : Call) :
    assemble (calls ++ [call]) = (assemble calls).perform call := by
  rw [assemble, List.foldl_append]
  rfl

def Distinct (b : Builder) : Prop :=
  ∀ c : Constant, c.Shared → ∀ i j : Nat, b.values[i]? = some c → b.values[j]? = some c → i = j

def Grows (b b' : Builder) : Prop :=
  ∀ (i : Nat) (c : Constant), b.values[i]? = some c → b'.values[i]? = some c

theorem Grows.size_le {b b' : Builder} (grows : Grows b b') : b.values.size ≤ b'.values.size := by
  cases size : b.values.size with
  | zero => exact Nat.zero_le _
  | succ n =>
    have inside : n < b.values.size := by omega
    have kept := grows n b.values[n] (Array.getElem?_eq_getElem inside)
    exact (Array.getElem?_eq_some_iff.mp kept).1

section
variable (b : Builder) (c : Constant)

theorem push_grows : Grows b (b.push c).1 := by
  intro i d here
  have inside : i < b.values.size := (Array.getElem?_eq_some_iff.mp here).1
  rw [push, Array.getElem?_push, if_neg (by omega)]
  exact here

theorem toNat_push {b : Builder} (few : (b.push c).1.values.size ≤ UInt64.size) :
    (b.push c).2.toNat = b.values.size := by
  rw [push, Array.size_push] at few
  exact UInt64.toNat_ofNat_of_lt' few

theorem push_holds {b : Builder} (few : (b.push c).1.values.size ≤ UInt64.size) :
    (b.push c).1.values[(b.push c).2.toNat]? = some c := by
  rw [toNat_push c few, push, Array.getElem?_push_size]

theorem Distinct.push {b : Builder} {c : Constant} (distinct : b.Distinct)
    (fresh : c.Shared → c ∉ b.values) : (b.push c).1.Distinct := by
  intro d shared i j
  have old {n : Nat} (here : b.values[n]? = some c) (shared : c.Shared) : False :=
    fresh shared (Array.mem_of_getElem? here)
  rw [Builder.push, Array.getElem?_push, Array.getElem?_push]
  split <;> split <;> intro left right
  · omega
  · cases left
    exact (old right shared).elim
  · cases right
    exact (old left shared).elim
  · exact distinct d shared i j left right

theorem intern_cases : (∃ n : Nat, b.values[n]? = some c ∧ b.intern c = (b, n.toUInt64)) ∨
    (c ∉ b.values ∧ b.intern c = b.push c) := by
  unfold intern
  cases found : b.values.idxOf? c with
  | none => exact .inr ⟨Array.idxOf?_eq_none_iff.mp found, rfl⟩
  | some n =>
    have listed : b.values.idxOf? c = b.values.toList.idxOf? c := by
      rw [← List.idxOf?_toArray]
    rw [listed, List.idxOf?_eq_some_iff] at found
    obtain ⟨inside, same, -⟩ := found
    refine .inl ⟨n, ?_, rfl⟩
    rw [← Array.getElem?_toList]
    exact List.getElem?_eq_some_iff.mpr ⟨inside, same⟩

theorem intern_grows : Grows b (b.intern c).1 := by
  rcases intern_cases b c with ⟨n, -, same⟩ | ⟨-, same⟩ <;> rw [same]
  · exact fun _ _ here => here
  · exact push_grows b c

theorem intern_holds {b : Builder} (few : (b.intern c).1.values.size ≤ UInt64.size) :
    (b.intern c).1.values[(b.intern c).2.toNat]? = some c := by
  rcases intern_cases b c with ⟨n, here, same⟩ | ⟨-, same⟩ <;> rw [same] at few ⊢
  · have inside : n < b.values.size := (Array.getElem?_eq_some_iff.mp here).1
    have small : n.toUInt64.toNat = n := UInt64.toNat_ofNat_of_lt' (Nat.lt_of_lt_of_le inside few)
    rw [small]
    exact here
  · exact push_holds c few

theorem Distinct.intern {b : Builder} (distinct : b.Distinct) : (b.intern c).1.Distinct := by
  rcases intern_cases b c with ⟨n, -, same⟩ | ⟨fresh, same⟩ <;> rw [same]
  · exact distinct
  · exact distinct.push fun _ => fresh

theorem intern_slots : (b.intern c).1.slots = b.slots := by
  rcases intern_cases b c with ⟨n, -, same⟩ | ⟨-, same⟩ <;> rw [same]
  rfl

end

structure Performs (b : Builder) (call : Call) (b' : Builder) (answer : Option UInt64) : Prop where
  returns : answer = none ↔ call.global?.isSome
  denotes : ∀ index entry, answer = some index → call.Denotes (b'.finish entry) index
  distinct : b.Distinct → b'.Distinct
  adds : call.Adds → ∃ index, answer = some index ∧ b.values.size ≤ index.toNat ∧
    b'.values.size = index.toNat + 1
  slots : b'.slots.toList = b.slots.toList ++ call.global?.toList

section
variable {b b₁ : Builder} {c : Constant} {call : Call}

theorem performs_intern (few : (b.intern c).1.values.size ≤ UInt64.size) (silent : call.global? = none)
    (shares : ¬ call.Adds)
    (denotes : ∀ p index, p.constant? index = some c → call.Denotes p index) :
    Performs b call (b.intern c).1 (some (b.intern c).2) where
  returns := by simp [silent]
  denotes index entry same := by
    cases same
    exact denotes _ _ (intern_holds c few)
  distinct distinct := distinct.intern c
  adds added := absurd added shares
  slots := by simp [intern_slots, silent]

theorem performs_push (before : Grows b b₁) (distinct : b.Distinct → b₁.Distinct)
    (slots : b₁.slots = b.slots) (few : (b₁.push c).1.values.size ≤ UInt64.size)
    (silent : call.global? = none) (unshared : ¬ c.Shared)
    (denotes : ∀ entry index, ((b₁.push c).1.finish entry).constant? index = some c →
      call.Denotes ((b₁.push c).1.finish entry) index) :
    Performs b call (b₁.push c).1 (some (b₁.push c).2) where
  returns := by simp [silent]
  denotes index entry same := by
    cases same
    exact denotes entry _ (push_holds c few)
  distinct start := (distinct start).push fun shared => absurd shared unshared
  adds added := by
    refine ⟨_, rfl, ?_, ?_⟩
    · rw [toNat_push c few]
      exact before.size_le
    · rw [toNat_push c few, push, Array.size_push]
  slots := by simp [push, slots, silent]

end

theorem perform_grows (b : Builder) (call : Call) : Grows b (b.perform call).1 := by
  cases call with
  | string value => exact intern_grows b _
  | int value => exact intern_grows b _
  | null => exact intern_grows b _
  | method name nargs nlocals code =>
    exact fun i d here => push_grows _ _ i d (intern_grows b (.str name) i d here)
  | slot name => exact fun i d here => push_grows _ _ i d (intern_grows b (.str name) i d here)
  | classDef slots => exact push_grows b _
  | global index => exact fun _ _ here => here

theorem string?_push {b : Builder} {name : String} {c : Constant} (entry : UInt64)
    (few : ((b.string name).1.push c).1.values.size ≤ UInt64.size) :
    (((b.string name).1.push c).1.finish entry).string? (b.string name).2 = some name := by
  have grows := push_grows (b.string name).1 c
  apply Program.string?_eq_some_iff.mpr
  exact grows _ _ (intern_holds (.str name) (Nat.le_trans grows.size_le few))

theorem perform_performs (b : Builder) (call : Call)
    (few : (b.perform call).1.values.size ≤ UInt64.size) :
    Performs b call (b.perform call).1 (b.perform call).2 := by
  cases call with
  | string value => exact performs_intern few rfl id fun p index here => here
  | int value => exact performs_intern few rfl id fun p index here => here
  | null => exact performs_intern few rfl id fun p index here => here
  | method name nargs nlocals code =>
    apply performs_push (intern_grows b (.str name)) (Distinct.intern (.str name))
      (intern_slots b (.str name)) few rfl id
    exact fun entry index here => ⟨_, here, string?_push entry few⟩
  | slot name =>
    apply performs_push (intern_grows b (.str name)) (Distinct.intern (.str name))
      (intern_slots b (.str name)) few rfl id
    exact fun entry index here => ⟨_, here, string?_push entry few⟩
  | classDef slots =>
    exact performs_push (fun _ _ here => here) id rfl few rfl id fun entry index here => here
  | global index =>
    exact ⟨by simp [perform, Call.global?], nofun, id, nofun, by
      simp [perform, Builder.global, Call.global?]⟩

theorem Call.Denotes.grows {b b' : Builder} (grows : Grows b b') {entry index : UInt64} {call : Call}
    (denotes : call.Denotes (b.finish entry) index) : call.Denotes (b'.finish entry) index := by
  have named {place : UInt64} {name : String} (here : (b.finish entry).string? place = some name) :
      (b'.finish entry).string? place = some name := by
    rw [Program.string?_eq_some_iff] at here ⊢
    exact grows _ _ here
  cases call with
  | string value | int value | null | classDef slots => exact grows _ _ denotes
  | method name nargs nlocals code | slot name =>
    obtain ⟨place, here, name⟩ := denotes
    exact ⟨place, grows _ _ here, named name⟩
  | global index => exact denotes

theorem Call.Denotes.lt {p : Program} {index : UInt64} {call : Call} (denotes : call.Denotes p index) :
    index.toNat < p.values.size := by
  have inside {c : Constant} (here : p.constant? index = some c) : index.toNat < p.values.size :=
    (Array.getElem?_eq_some_iff.mp here).1
  cases call with
  | string value | int value | null | classDef slots => exact inside denotes
  | method name nargs nlocals code | slot name =>
    obtain ⟨place, here, -⟩ := denotes
    exact inside here
  | global index => exact denotes.elim

structure Log.Sound (log : Log) : Prop where
  returns : ∀ call answer, (call, answer) ∈ log.calls → (answer = none ↔ call.global?.isSome)
  denotes : ∀ call index entry, (call, some index) ∈ log.calls →
    call.Denotes (log.builder.finish entry) index
  distinct : log.builder.Distinct
  slots : log.builder.slots.toList = log.calls.filterMap (·.1.global?)

theorem Log.Sound.perform {log : Log} (sound : log.Sound) (call : Call)
    (few : (log.perform call).builder.values.size ≤ UInt64.size) : (log.perform call).Sound := by
  have performs := perform_performs log.builder call few
  refine ⟨?_, ?_, performs.distinct sound.distinct, ?_⟩
  · intro call' answer here
    rcases List.mem_append.mp here with earlier | last
    · exact sound.returns call' answer earlier
    · cases List.mem_singleton.mp last
      exact performs.returns
  · intro call' index entry here
    rcases List.mem_append.mp here with earlier | last
    · exact (sound.denotes call' index entry earlier).grows (perform_grows log.builder call)
    · obtain ⟨rfl, same⟩ := Prod.mk.inj (List.mem_singleton.mp last)
      exact performs.denotes index entry same.symm
  · rw [Log.perform, performs.slots, sound.slots, List.filterMap_append]
    cases global : call.global? <;> simp [global]

theorem assemble_grows (before after : List Call) :
    Grows (assemble before).builder (assemble (before ++ after)).builder := by
  induction after using List.reverseRecOn with
  | nil =>
    rw [List.append_nil]
    exact fun _ _ here => here
  | append_singleton after call ih =>
    rw [← List.append_assoc, assemble_snoc]
    exact fun i c here => perform_grows _ call i c (ih i c here)

theorem assemble_sound (calls : List Call)
    (few : (assemble calls).builder.values.size ≤ UInt64.size) : (assemble calls).Sound := by
  induction calls using List.reverseRecOn with
  | nil => exact ⟨nofun, nofun, nofun, rfl⟩
  | append_singleton calls call ih =>
    have earlier := ih (Nat.le_trans (assemble_grows calls [call]).size_le few)
    rw [assemble_snoc] at few ⊢
    exact earlier.perform call few

theorem map_assemble (calls : List Call) : (assemble calls).calls.map (·.1) = calls := by
  induction calls using List.reverseRecOn with
  | nil => rfl
  | append_singleton calls call ih =>
    rw [assemble_snoc, Log.perform, List.map_append, ih]
    rfl

/-- The call adds a constant at the end of the pool, at an index that no earlier call returned. -/
def AddsAfter (before : List Call) (call : Call) : Prop :=
  ∃ index, (assemble (before ++ [call])).calls = (assemble before).calls ++ [(call, some index)] ∧
    (assemble before).builder.values.size ≤ index.toNat ∧
    (assemble (before ++ [call])).builder.values.size = index.toNat + 1 ∧
    ∀ earlier ∈ (assemble before).calls, earlier.2 ≠ some index

theorem addsAfter {before : List Call} {call : Call} (adds : call.Adds)
    (few : (assemble (before ++ [call])).builder.values.size ≤ UInt64.size) : AddsAfter before call := by
  have earlier := assemble_sound before
    (Nat.le_trans (assemble_grows before [call]).size_le few)
  rw [assemble_snoc] at few
  obtain ⟨index, answer, fresh, last⟩ := (perform_performs _ call few).adds adds
  rw [AddsAfter, assemble_snoc]
  refine ⟨index, ?_, fresh, last, ?_⟩
  · rw [Log.perform, answer]
  · rintro ⟨other, -⟩ here rfl
    have inside := (earlier.denotes other index 0 here).lt
    exact Nat.not_lt.mpr fresh inside

structure Keeps (p : Program) (calls : List Call) : Prop where
  logged : (assemble calls).calls.map (·.1) = calls
  returns : ∀ call answer, (call, answer) ∈ (assemble calls).calls →
    (answer = none ↔ call.global?.isSome)
  denotes : ∀ call index, (call, some index) ∈ (assemble calls).calls → call.Denotes p index
  strings : ∀ s t i j, (.string s, some i) ∈ (assemble calls).calls →
    (.string t, some j) ∈ (assemble calls).calls → (i = j ↔ s = t)
  ints : ∀ m n i j, (.int m, some i) ∈ (assemble calls).calls →
    (.int n, some j) ∈ (assemble calls).calls → (i = j ↔ m = n)
  shared : ∀ c : Constant, c.Shared → ∀ i j : Nat, p.values[i]? = some c →
    p.values[j]? = some c → i = j
  adds : ∀ before call after, calls = before ++ call :: after → call.Adds → AddsAfter before call
  slots : p.slots = calls.filterMap Call.global?

theorem Distinct.index_eq_iff {b : Builder} (distinct : b.Distinct) {c d : Constant}
    (shared : c.Shared) {i j : UInt64} (left : b.values[i.toNat]? = some c)
    (right : b.values[j.toNat]? = some d) : i = j ↔ c = d := by
  constructor
  · rintro rfl
    exact Option.some.inj (left.symm.trans right)
  · rintro rfl
    exact UInt64.toNat_inj.mp (distinct c shared _ _ left right)

/-- The indices that calls return stay meaningful. A pool has at most as many constants as there are
indices. -/
theorem finish_keeps (calls : List Call) (entry : UInt64)
    (few : (assemble calls).builder.values.size ≤ UInt64.size) :
    Keeps ((assemble calls).builder.finish entry) calls := by
  have sound := assemble_sound calls few
  refine ⟨map_assemble calls, sound.returns, fun call index here => sound.denotes call index entry here,
    ?_, ?_, sound.distinct, ?_, ?_⟩
  · intro s t i j first second
    have same := sound.distinct.index_eq_iff (c := .str s) trivial
      (sound.denotes _ i entry first) (sound.denotes _ j entry second)
    rw [same, Constant.str.injEq]
  · intro m n i j first second
    have same := sound.distinct.index_eq_iff (c := .int m) trivial
      (sound.denotes _ i entry first) (sound.denotes _ j entry second)
    rw [same, Constant.int.injEq]
  · rintro before call after rfl adds
    apply addsAfter adds
    rw [List.append_cons] at few
    exact Nat.le_trans (assemble_grows (before ++ [call]) after).size_le few
  · rw [finish, sound.slots]
    conv => rhs; rw [← map_assemble calls]
    rw [List.filterMap_map]
    rfl

def homonyms : List Call :=
  [.slot "x", .int 3, .method "x" 0 0 [.ret], .string "x", .slot "x", .null, .int 3,
    .global 1, .global 4, .global 1]

theorem finish_keeps_homonyms :
    (assemble homonyms).calls.map (·.2) =
        [some 1, some 2, some 3, some 0, some 4, some 5, some 2, none, none, none] ∧
      ((assemble homonyms).builder.finish 3).slots = [1, 4, 1] ∧
      Keeps ((assemble homonyms).builder.finish 3) homonyms :=
  ⟨by decide +kernel, by decide +kernel, finish_keeps homonyms 3 (by decide +kernel)⟩

end Builder
end SlotVM
