import SlotVM.ClassTable
import SlotVM.Heap.Basic

namespace SlotVM

inductive Listed where
  | array (ref : Value) (len : Nat) (items : List Value)
  | object (ref : Value) (index : Nat) (parent : Value) (slots : List Value)

def Listed.fields : Listed → List Value
  | .array _ _ items => items
  | .object _ _ parent slots => parent :: slots

/-- How much a listing shows: the objects in all, and the items or slots of each. -/
structure Scope where
  objects : Nat
  fields : Nat

namespace Heap

def wordsFrom (h : Heap) (ref : Value) : Nat → Nat → Except Crash (List Value)
  | _, 0 => .ok []
  | n, count + 1 => do
    let word ← h.loadWord ref n
    return ⟨word⟩ :: (← h.wordsFrom ref (n + 1) count)

def list? (h : Heap) (classes : ClassTable) (scope : Scope) (ref : Value) :
    Except Crash (Option Listed) := do
  match ← h.shape? ref with
  | none => return none
  | some (.array len) => return some (.array ref len (← h.wordsFrom ref 2 (min len scope.fields)))
  | some (.object index) =>
    let slots ← h.wordsFrom ref 2 (min (classes.nvars index) scope.fields)
    return some (.object ref index (← h.parent ref) slots)

def discover (scope : Scope) : Array Value → List Value → Array Value
  | seen, [] => seen
  | seen, v :: vs =>
    if v.isObject && seen.size < scope.objects && !seen.contains v then
      discover scope (seen.push v) vs
    else discover scope seen vs

def listFrom (h : Heap) (classes : ClassTable) (scope : Scope) :
    Nat → Nat → Array Value → Except Crash (List Listed)
  | 0, _, _ => .ok []
  | fuel + 1, next, seen =>
    match seen[next]? with
    | none => .ok []
    | some ref => do
      match ← h.list? classes scope ref with
      | none => .ok []
      | some entry =>
        return entry ::
          (← h.listFrom classes scope fuel (next + 1) (discover scope seen entry.fields))

def census (h : Heap) (classes : ClassTable) (scope : Scope) (roots : List Value) :
    Except Crash (List Listed) :=
  h.listFrom classes scope scope.objects 0 (discover scope #[] roots)

end Heap
end SlotVM
