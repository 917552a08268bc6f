import SlotVM.Heap.Census
import SlotVM.Heap.Collector
import SlotVM.Machine.Fault
import SlotVM.Machine.Sink

namespace SlotVM

structure Store where
  stack : Array Value
  globals : Array Value
  heap : Heap
  sink : Sink

/-- What an operation makes of the store. After an error the store is as the operation left it. -/
inductive Effect where
  | done (s : Store)
  | error (e : RuntimeError) (s : Store)
  | crash (c : Crash)

def Effect.ofFault (f : Fault) (s : Store) : Effect :=
  match f with
  | .error e => .error e s
  | .crash c => .crash c

namespace Store

def push (s : Store) (v : Value) : Store := { s with stack := s.stack.push v }

def dropTop (s : Store) (count : Nat) : Store :=
  { s with stack := s.stack.shrink (s.stack.size - count) }

def peek? (s : Store) (depth : Nat) : Option Value :=
  if depth < s.stack.size then s.stack[s.stack.size - 1 - depth]? else none

def top (s : Store) (count : Nat) : Array Value :=
  s.stack.extract (s.stack.size - count) s.stack.size

end Store

structure Vm where
  stack : Array Value
  frames : Frames
  globals : Array Value
  heap : Heap
  sink : Sink

inductive Outcome where
  | next (ip : Nat) (vm : Vm)
  | halt (vm : Vm)
  | error (e : RuntimeError) (vm : Vm)
  | crash (c : Crash)

namespace Vm

def create (config : Config) (sink : Sink) : Except ConfigError Vm := do
  return ⟨#[], .empty, #[], ← Heap.create config.heapSize, sink⟩

def store (vm : Vm) : Store := ⟨vm.stack, vm.globals, vm.heap, vm.sink⟩

def withStore (vm : Vm) (s : Store) : Vm :=
  { vm with stack := s.stack, globals := s.globals, heap := s.heap, sink := s.sink }

def after (vm : Vm) (next : Nat) : Effect → Outcome
  | .done s => .next next (vm.withStore s)
  | .error e s => .error e (vm.withStore s)
  | .crash c => .crash c

def push (vm : Vm) (v : Value) : Vm := vm.withStore (vm.store.push v)

def dropTop (vm : Vm) (count : Nat) : Vm := vm.withStore (vm.store.dropTop count)

def peek? (vm : Vm) (depth : Nat) : Option Value := vm.store.peek? depth

def roots (vm : Vm) : Roots := ⟨vm.stack, vm.frames, vm.globals⟩

def collect (vm : Vm) (classes : ClassTable) : Except Crash Vm := do
  let (roots, heap) ← vm.heap.collect classes vm.roots
  return { vm with
    stack := roots.stack, frames := roots.frames, globals := roots.globals, heap := heap }

end Vm
end SlotVM
