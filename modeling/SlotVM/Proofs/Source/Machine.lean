import SlotVM.Machine.Run
import SlotVM.Proofs.Frames.Build
import SlotVM.Proofs.Source.Layout

namespace SlotVM

namespace Program

def member? (p : Program) (name : String) : Nat → List UInt64 → Option (Member UInt64)
  | _, [] => none
  | next, index :: members =>
    match p.constant? index with
    | some (.slot text) =>
      if p.string? text = some name then some (.var next) else p.member? name (next + 1) members
    | some (.method m) =>
      if p.string? m.name = some name then some (.code index) else p.member? name next members
    | _ => p.member? name next members

def selector (p : Program) (name : String) : Selector UInt64 where
  name := name
  declares index := p.classes[index]?.bind (p.member? name 0)

/-- The sizes of the classes, which are all that a collection asks for. -/
def shapes (p : Program) : ClassTable :=
  ⟨(p.classes.map fun members => ⟨members.countP p.isVariable, []⟩).toArray⟩

end Program

def Ins.isLabel : Ins → Bool
  | .label _ => true
  | _ => false

def Program.settle (p : Program) (pos : Position) : Position :=
  match p.method? pos.method with
  | none => pos
  | some m => ⟨pos.method, pos.line + ((m.code.drop pos.line).takeWhile Ins.isLabel).length⟩

namespace Source

/-- Where a run stands: before the frame of a method is made, or at an instruction. -/
inductive Control where
  | enter (method : UInt64) (resume : Option Position)
  | body (pos : Position)

structure State where
  store : Store
  /-- Innermost first; the root's frame has nowhere to go on at. -/
  frames : List (Frame (Option Position))
  control : Control

inductive Outcome where
  | next (s : State)
  | halt (s : State)
  | error (e : RuntimeError) (s : State)
  | crash (c : Crash)
  /-- A name or an instruction that the program does not have. -/
  | stuck

def Outcome.ofOption {α : Type} (o : Option α) (f : α → Outcome) : Outcome :=
  match o with
  | none => .stuck
  | some a => f a

namespace State

def goto (s : State) (pos : Position) : State := { s with control := .body pos }

def after (s : State) (next : Position) : Effect → Outcome
  | .done store => .next ({ s with store := store }.goto next)
  | .error e store => .error e { s with store := store }
  | .crash c => .crash c

def collect (s : State) (p : Program) : Except Crash State := do
  let (stack, h) ← Heap.forwardAll p.shapes s.store.heap.flip [] s.store.stack.toList
  let (locals, h) ← Heap.forwardAll p.shapes h [] (s.frames.flatMap (·.locals))
  let (globals, h) ← Heap.forwardAll p.shapes h [] s.store.globals.toList
  let h ← Heap.scan p.shapes (h.memory.capacity + 1) h.base h
  return { s with
    store := ⟨stack.toArray, globals.toArray, { h with cycles := h.cycles + 1 }, s.store.sink⟩
    frames := Frames.refill s.frames locals }

def allocate (s : State) (p : Program) (size : Nat) (build : Store → Effect) (next : Position) :
    Outcome :=
  if s.store.heap.fits size then s.after next (build s.store)
  else
    match s.collect p with
    | .error c => .crash c
    | .ok s =>
      if s.store.heap.fits size then s.after next (build s.store)
      else .error (.outOfMemory size) s

def newArray (s : State) (p : Program) (next : Position) : Outcome :=
  match s.store.arrayLength with
  | .error f => s.after next (.ofFault f s.store)
  | .ok len => s.allocate p (Heap.blockSize len) (Store.buildArray len) next

def newObject (s : State) (p : Program) (nvars rank : Nat) (next : Position) : Outcome :=
  if s.store.stack.size < nvars + 1 then .error .stackUnderflow s
  else s.allocate p (Heap.blockSize nvars) (Store.buildObject nvars rank) next

def call (s : State) (method : UInt64) (next : Position) : Outcome :=
  if Frames.extent s.frames + 2 ≤ Frames.capacity then
    .next { s with control := .enter method (some next) }
  else .crash .frameMemory

def callSlot (s : State) (arity : Nat) (slot : Selector UInt64) (next : Position) : Outcome :=
  match s.store.callSlot arity slot with
  | .effect e => s.after next e
  | .enter method => s.call method next

def enter (s : State) (p : Program) (method : UInt64) (resume : Option Position) : Outcome :=
  .ofOption (p.method? method) fun m =>
    let nargs := m.nargs.toNat
    let nlocals := m.nlocals.toNat
    if s.store.stack.size < nargs then .error .stackUnderflow s
    else if Frames.extent s.frames + 2 + nargs + nlocals ≤ Frames.capacity then
      let locals := (s.store.top nargs).toList ++ List.replicate nlocals .null
      .next ⟨s.store.dropTop nargs, ⟨resume, locals⟩ :: s.frames, .body ⟨method, 0⟩⟩
    else .crash .frameMemory

def ret (s : State) : Outcome :=
  match s.frames with
  | [] => .stuck
  | [_] => .halt { s with frames := [] }
  | f :: frames => .ofOption f.resume fun pos => .next ({ s with frames := frames }.goto pos)

def getLocal (s : State) (index : Nat) (next : Position) : Outcome :=
  match s.frames with
  | [] => .stuck
  | f :: _ =>
    match f.locals[index]? with
    | none => .crash .localSlot
    | some v => .next ({ s with store := s.store.push v }.goto next)

def setLocal (s : State) (index : Nat) (next : Position) : Outcome :=
  match s.store.peek? 0, s.frames with
  | none, _ => .error .stackUnderflow s
  | some _, [] => .stuck
  | some v, f :: frames =>
    if index < f.locals.length then
      .next ({ s with frames := ⟨f.resume, f.locals.set index v⟩ :: frames }.goto next)
    else .crash .localSlot

def branch (s : State) (target next : Position) : Outcome :=
  match s.store.peek? 0 with
  | none => .error .stackUnderflow s
  | some v => .next ({ s with store := s.store.dropTop 1 }.goto (if v.isTruthy then target else next))

def exec (s : State) (p : Program) (next : Position) : Ins → Outcome
  | .label _ => .stuck
  | .lit idx =>
    match p.constant? idx with
    | some (.int value) => s.after next (.done (s.store.push (.ofInt value.toInt)))
    | some .null => s.after next (.done (s.store.push .null))
    | _ => .stuck
  | .printf format arity =>
    .ofOption (p.string? format) fun text => s.after next (s.store.printf text arity.toNat)
  | .array => s.newArray p next
  | .object index =>
    .ofOption ((p.constant? index).bind Constant.classSlots?) fun members =>
      s.newObject p (members.countP p.isVariable) (p.classRank index) next
  | .slot name =>
    .ofOption (p.string? name) fun text => s.after next (s.store.getSlot (p.selector text))
  | .setSlot name =>
    .ofOption (p.string? name) fun text => s.after next (s.store.setSlot (p.selector text))
  | .callSlot name arity =>
    .ofOption (p.string? name) fun text => s.callSlot arity.toNat (p.selector text) next
  | .call name _ => .ofOption ((p.string? name).bind p.function?) fun method => s.call method next
  | .setLocal idx => s.setLocal idx.toNat next
  | .getLocal idx => s.getLocal idx.toNat next
  | .setGlobal name =>
    .ofOption ((p.string? name).bind p.globalPlace?) fun place =>
      s.after next (s.store.setGlobal place)
  | .getGlobal name =>
    .ofOption ((p.string? name).bind p.globalPlace?) fun place =>
      s.after next (s.store.getGlobal place)
  | .branch name => .ofOption ((p.string? name).bind p.label?) fun pos => s.branch pos next
  | .goto name => .ofOption ((p.string? name).bind p.label?) fun pos => .next (s.goto pos)
  | .ret => s.ret
  | .drop => s.after next s.store.drop

/-- One step: a frame is made, or one instruction executed after passing over labels. -/
def step (s : State) (p : Program) : Outcome :=
  match s.control with
  | .enter method resume => s.enter p method resume
  | .body pos =>
    .ofOption (p.ins? (p.settle pos)) fun ins => s.exec p (p.settle pos).next ins

end State

inductive Ending where
  | ok (s : State)
  | error (e : RuntimeError) (s : State)
  | crash (c : Crash)
  | stuck
  | unfinished (s : State)

def run (p : Program) : Nat → State → Ending
  | 0, s => .unfinished s
  | fuel + 1, s =>
    match s.step p with
    | .next s => run p fuel s
    | .halt s => .ok s
    | .error e s => .error e s
    | .crash c => .crash c
    | .stuck => .stuck

def start (p : Program) (heap : Heap) (sink : Sink) : State :=
  ⟨⟨#[], Array.replicate p.globalNames.length .null, heap, sink⟩, [], .enter p.entry none⟩

def Ending.flush : Ending → Ending
  | .ok s =>
    match s.store.sink.flush with
    | .ok _ => .ok s
    | .error e => .error e s
  | .error e s =>
    match s.store.sink.flush with
    | .ok _ => .error e s
    | .error e => .error e s
  | ending => ending

def execute (p : Program) (heap : Heap) (sink : Sink) (fuel : Nat) : Ending :=
  (run p fuel (start p heap sink)).flush

end Source
end SlotVM
