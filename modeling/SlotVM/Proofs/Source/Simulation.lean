import SlotVM.Proofs.Source.Classes
import SlotVM.Proofs.Source.Flow

namespace SlotVM

namespace Source

/-- Where a return goes; the root's frame holds an offset that is not used. -/
def returnOffset (p : Program) : Option Position → Nat
  | none => 0
  | some pos => p.place pos

def encode (p : Program) (frames : List (Frame (Option Position))) : List (Frame Nat) :=
  frames.map fun f => ⟨returnOffset p f.resume, f.locals⟩

def Control.offset (p : Program) : Control → Nat
  | .enter method _ => p.start method
  | .body pos => p.place pos

/-- The frame stack; a header stands on top until its frame is made. -/
def layout (p : Program) (frames : List (Frame (Option Position))) : Control → Frames
  | .enter _ resume => (Frames.build (encode p frames)).pushCall (returnOffset p resume)
  | .body _ => Frames.build (encode p frames)

def State.toVm (p : Program) (s : State) : Vm :=
  ⟨s.store.stack, layout p s.frames s.control, s.store.globals, s.store.heap, s.store.sink⟩

section
variable {p : Program} {frames : List (Frame (Option Position))}

@[simp] theorem extent_encode : Frames.extent (encode p frames) = Frames.extent frames := by
  induction frames with
  | nil => rfl
  | cons f frames ih => simpa [encode, Frames.extent] using ih

@[simp] theorem flatMap_encode :
    (encode p frames).flatMap (·.locals) = frames.flatMap (·.locals) := by
  simp [encode, List.flatMap_map]

theorem refill_encode (values : List Value) :
    Frames.refill (encode p frames) values = encode p (Frames.refill frames values) := by
  induction frames generalizing values with
  | nil => rfl
  | cons f frames ih => simpa [encode, Frames.refill] using ih _

theorem resumes_refill (values : List Value) :
    (Frames.refill frames values).map (·.resume) = frames.map (·.resume) := by
  induction frames generalizing values with
  | nil => rfl
  | cons f frames ih => simp [Frames.refill, ih]

end

def Control.Placed (p : Program) : Control → Prop
  | .enter method _ => ∃ m, p.method? method = some m
  | .body pos => p.Inside pos

inductive Returns (p : Program) : List (Option Position) → Prop
  | root : Returns p [none]
  | call {pos : Position} {rest : List (Option Position)} (inside : p.Inside pos)
      (below : Returns p rest) : Returns p (some pos :: rest)

def State.resumes (s : State) : List (Option Position) :=
  match s.control with
  | .enter _ resume => resume :: s.frames.map (·.resume)
  | .body _ => s.frames.map (·.resume)

structure State.Placed (p : Program) (s : State) : Prop where
  control : s.control.Placed p
  returns : Returns p s.resumes
  room : (s.toVm p).frames.size ≤ Frames.capacity

inductive Agrees (p : Program) : Outcome → SlotVM.Outcome → Prop
  | next (s : State) (placed : s.Placed p) :
      Agrees p (.next s) (.next (s.control.offset p) (s.toVm p))
  | halt (s : State) : Agrees p (.halt s) (.halt (s.toVm p))
  | error (e : RuntimeError) (s : State) : Agrees p (.error e s) (.error e (s.toVm p))
  | crash (c : Crash) : Agrees p (.crash c) (.crash c)

section
variable {p : Program} {image : Image} {store : Store} {frames : List (Frame (Option Position))}
  {pos next : Position}

theorem size_layout_body : (layout p frames (.body pos)).size = Frames.extent frames := by
  simp [layout]

theorem size_layout_enter {method : UInt64} {resume : Option Position} :
    (layout p frames (.enter method resume)).size = Frames.extent frames + 2 := by
  have pushed (fs : Frames) (ip : Nat) : (fs.pushCall ip).size = fs.size + 2 := by
    simp [Frames.pushCall, Frames.size]
  simp [layout, pushed]

theorem State.Placed.extent_le (placed : State.Placed p ⟨store, frames, .body pos⟩) :
    Frames.extent frames ≤ Frames.capacity := by
  have room := placed.room
  rwa [State.toVm, size_layout_body] at room

theorem State.Placed.goto (placed : State.Placed p ⟨store, frames, .body pos⟩)
    (inside : p.Inside next) (store' : Store) : State.Placed p ⟨store', frames, .body next⟩ :=
  ⟨inside, placed.returns, placed.room⟩

theorem agrees_after (placed : State.Placed p ⟨store, frames, .body pos⟩) (inside : p.Inside next)
    (e : Effect) :
    Agrees p (State.after ⟨store, frames, .body pos⟩ next e)
      ((State.toVm p ⟨store, frames, .body pos⟩).after (p.place next) e) := by
  cases e with
  | done store' => exact .next _ (placed.goto inside store')
  | error e store' => exact .error e ⟨store', frames, .body pos⟩
  | crash c => exact .crash c

theorem collect_toVm (linked : Linked p image)
    (placed : State.Placed p ⟨store, frames, .body pos⟩) :
    (State.toVm p ⟨store, frames, .body pos⟩).collect image.classes =
      ((State.collect ⟨store, frames, .body pos⟩ p).map (State.toVm p)) := by
  have small : Frames.extent (encode p frames) < 2 ^ 64 := by
    rw [extent_encode]
    exact Nat.lt_of_le_of_lt placed.extent_le (by decide)
  have walk := Frames.roots?_build (encode p frames) small
  rw [flatMap_encode] at walk
  simp only [Vm.collect, Vm.roots, Heap.collect, State.collect, State.toVm, layout, walk,
    Heap.forwardAll_sizes linked.nvars_eq, Heap.scan_sizes linked.nvars_eq]
  cases Heap.forwardAll p.shapes store.heap.flip [] store.stack.toList with
  | error c => rfl
  | ok operands =>
    simp only [bind, Except.bind]
    cases moved : Heap.forwardAll p.shapes operands.2 [] (frames.flatMap (·.locals)) with
    | error c => rfl
    | ok locals =>
      have length := Heap.length_forwardAll moved
      rw [List.length_nil, Nat.zero_add, ← flatMap_encode (p := p)] at length
      simp only [Frames.withRoots?_build (encode p frames) small length, refill_encode]
      cases Heap.forwardAll p.shapes locals.2 [] store.globals.toList with
      | error c => rfl
      | ok globals =>
        simp only
        cases Heap.scan p.shapes (globals.2.memory.capacity + 1) globals.2.base globals.2 <;> rfl

theorem State.Placed.collect {s : State} (placed : State.Placed p ⟨store, frames, .body pos⟩)
    (collected : State.collect ⟨store, frames, .body pos⟩ p = .ok s) :
    ∃ store' frames', s = ⟨store', frames', .body pos⟩ ∧
      State.Placed p ⟨store', frames', .body pos⟩ := by
  obtain ⟨operands, -, collected⟩ := bind_eq_ok.mp collected
  obtain ⟨locals, moved, collected⟩ := bind_eq_ok.mp collected
  obtain ⟨globals, -, collected⟩ := bind_eq_ok.mp collected
  obtain ⟨h, -, collected⟩ := bind_eq_ok.mp collected
  cases collected
  have length := Heap.length_forwardAll moved
  rw [List.length_nil, Nat.zero_add] at length
  refine ⟨_, _, rfl, placed.control, ?_, ?_⟩
  · have returns := placed.returns
    simp only [State.resumes, resumes_refill] at returns ⊢
    exact returns
  · have room := placed.extent_le
    simp only [State.toVm, size_layout_body]
    rw [Frames.extent_refill _ _ length]
    exact room

theorem agrees_allocate (linked : Linked p image)
    (placed : State.Placed p ⟨store, frames, .body pos⟩) (inside : p.Inside next) (size : Nat)
    (build : Store → Effect) :
    Agrees p (State.allocate ⟨store, frames, .body pos⟩ p size build next)
      ((State.toVm p ⟨store, frames, .body pos⟩).allocate image.classes size build
        (p.place next)) := by
  unfold State.allocate Vm.allocate
  by_cases fits : store.heap.fits size
  · simp only [State.toVm, fits, if_true]
    exact agrees_after placed inside (build store)
  · rw [collect_toVm linked placed]
    simp only [State.toVm, fits, Bool.false_eq_true, if_false]
    cases collected : State.collect ⟨store, frames, .body pos⟩ p with
    | error c => exact .crash c
    | ok s =>
      obtain ⟨store', frames', rfl, placed'⟩ := placed.collect collected
      by_cases fits' : store'.heap.fits size
      · simp only [Except.map, State.toVm, fits', if_true]
        exact agrees_after placed' inside (build store')
      · simp only [Except.map, State.toVm, fits', Bool.false_eq_true, if_false]
        exact .error _ ⟨store', frames', .body pos⟩

theorem agrees_newArray (linked : Linked p image)
    (placed : State.Placed p ⟨store, frames, .body pos⟩) (inside : p.Inside next) :
    Agrees p (State.newArray ⟨store, frames, .body pos⟩ p next)
      ((State.toVm p ⟨store, frames, .body pos⟩).newArray image.classes (p.place next)) := by
  have same : (State.toVm p ⟨store, frames, .body pos⟩).store = store := rfl
  cases measured : store.arrayLength with
  | error f =>
    simp only [State.newArray, Vm.newArray, same, measured]
    exact agrees_after placed inside _
  | ok len =>
    rw [Vm.newArray_of_length image.classes (p.place next) (same ▸ measured)]
    simp only [State.newArray, measured]
    exact agrees_allocate linked placed inside _ _

theorem agrees_newObject (linked : Linked p image)
    (placed : State.Placed p ⟨store, frames, .body pos⟩) (inside : p.Inside next)
    {nvars : Nat} (small : nvars < UInt32.size) (rank : Nat) :
    Agrees p (State.newObject ⟨store, frames, .body pos⟩ p nvars rank next)
      ((State.toVm p ⟨store, frames, .body pos⟩).newObject image.classes nvars rank
        (p.place next)) := by
  have same : (State.toVm p ⟨store, frames, .body pos⟩).stack = store.stack := rfl
  by_cases short : store.stack.size < nvars + 1
  · simp only [State.newObject, Vm.newObject, same, short, if_true]
    exact .error _ ⟨store, frames, .body pos⟩
  · rw [Vm.newObject_of_enough image.classes (p.place next) small rank (Nat.not_lt.mp short)]
    simp only [State.newObject, short, if_false]
    exact agrees_allocate linked placed inside _ _

theorem agrees_call (placed : State.Placed p ⟨store, frames, .body pos⟩) (inside : p.Inside next)
    {method : UInt64} {m : Method} (found : p.method? method = some m) :
    Agrees p (State.call ⟨store, frames, .body pos⟩ method next)
      ((State.toVm p ⟨store, frames, .body pos⟩).jump (p.start method) (p.place next)) := by
  unfold State.call Vm.jump
  simp only [State.toVm, size_layout_body]
  by_cases room : Frames.extent frames + 2 ≤ Frames.capacity
  · simp only [room, if_true]
    refine .next ⟨store, frames, .enter method (some next)⟩ ⟨⟨m, found⟩, ?_, ?_⟩
    · exact .call inside placed.returns
    · rw [State.toVm, size_layout_enter]
      exact room
  · simp only [room, if_false]
    exact .crash _

theorem agrees_callSlot (linked : Linked p image)
    (placed : State.Placed p ⟨store, frames, .body pos⟩) (inside : p.Inside next) {symbol : Symbol}
    {text : String} (named : image.symbols.name? symbol = some text) (arity : Nat) :
    Agrees p (State.callSlot ⟨store, frames, .body pos⟩ arity (p.selector text) next)
      ((State.toVm p ⟨store, frames, .body pos⟩).callSlot arity (image.selector symbol)
        (p.place next)) := by
  unfold State.callSlot Vm.callSlot
  have same : (State.toVm p ⟨store, frames, .body pos⟩).store = store := rfl
  rw [same, linked.selector_eq named, Store.callSlot_map]
  cases called : store.callSlot arity (p.selector text) with
  | effect e => exact agrees_after placed inside e
  | enter method =>
    obtain ⟨index, declares⟩ := Store.declares_of_callSlot called
    obtain ⟨m, found⟩ := Program.method_of_selector declares
    exact agrees_call placed inside found

theorem agrees_enter (complete : p.Complete) {method : UInt64} {resume : Option Position}
    (placed : State.Placed p ⟨store, frames, .enter method resume⟩) {m : Method}
    (found : p.method? method = some m) :
    Agrees p (State.enter ⟨store, frames, .enter method resume⟩ p method resume)
      ((State.toVm p ⟨store, frames, .enter method resume⟩).enter m.nargs.toNat m.nlocals.toNat
        (p.place ⟨method, 0⟩)) := by
  unfold State.enter Vm.enter
  simp only [State.toVm, size_layout_enter, found, Outcome.ofOption]
  by_cases short : store.stack.size < m.nargs.toNat
  · simp only [short, if_true]
    exact .error _ ⟨store, frames, .enter method resume⟩
  · simp only [short, if_false]
    by_cases room : Frames.extent frames + 2 + m.nargs.toNat + m.nlocals.toNat ≤ Frames.capacity
    · simp only [room, if_true, layout, Frames.enter?_pushCall]
      refine .next ⟨store.dropTop m.nargs.toNat, ⟨resume, _⟩ :: frames, .body ⟨method, 0⟩⟩
        ⟨complete.first found, placed.returns, ?_⟩
      rw [State.toVm, size_layout_body]
      simp only [Frames.extent, List.length_append, List.length_replicate, Array.length_toList]
      have taken : (store.top m.nargs.toNat).size = m.nargs.toNat := by
        simp only [Store.top, Array.size_extract]
        omega
      omega
    · simp only [room, if_false]
      exact .crash _

theorem Returns.cases_cons {resume : Option Position} {rest : List (Option Position)}
    (returns : Returns p (resume :: rest)) :
    (resume = none ∧ rest = []) ∨ ∃ pos, resume = some pos ∧ p.Inside pos ∧ Returns p rest := by
  cases returns with
  | root => exact .inl ⟨rfl, rfl⟩
  | call inside below => exact .inr ⟨_, rfl, inside, below⟩

theorem agrees_ret (linked : Linked p image) (small : image.code.size < 2 ^ 64)
    (placed : State.Placed p ⟨store, frames, .body pos⟩) :
    Agrees p (State.ret ⟨store, frames, .body pos⟩)
      ((State.toVm p ⟨store, frames, .body pos⟩).ret) := by
  have returns : Returns p (frames.map (·.resume)) := placed.returns
  have room := placed.extent_le
  unfold State.ret Vm.ret
  simp only [State.toVm, layout]
  cases frames with
  | nil => cases returns
  | cons f frames =>
    cases frames with
    | nil =>
      simp only [encode, List.map_cons, List.map_nil, Frames.ret?_root]
      exact .halt ⟨store, [], .body pos⟩
    | cons g frames =>
      rcases returns.cases_cons with ⟨_, empty⟩ | ⟨back, resume, inside, below⟩
      · cases empty
      · change f.resume = some back at resume
        obtain ⟨ins, here⟩ := inside
        have reached := Program.place_le here
        have ip : p.place back < 2 ^ 64 := Nat.lt_of_le_of_lt reached (linked.room ▸ small)
        have inner : Frames.extent (g :: frames) ≤ Frames.capacity := by
          simp only [Frames.extent] at room ⊢
          omega
        have frame := Frames.ret?_cons ⟨p.place back, f.locals⟩
          ⟨returnOffset p g.resume, g.locals⟩ (encode p frames)
          (Nat.lt_of_le_of_lt (@extent_encode p (g :: frames) ▸ inner) (by decide)) ip
        simp only [encode, List.map_cons, resume, returnOffset] at frame ⊢
        simp only [frame, Outcome.ofOption]
        refine .next ⟨store, g :: frames, .body back⟩ ⟨⟨ins, here⟩, below, ?_⟩
        rw [State.toVm, size_layout_body]
        exact inner

theorem agrees_getLocal (placed : State.Placed p ⟨store, frames, .body pos⟩)
    (inside : p.Inside next) (index : Nat) :
    Agrees p (State.getLocal ⟨store, frames, .body pos⟩ index next)
      ((State.toVm p ⟨store, frames, .body pos⟩).getLocal index (p.place next)) := by
  have returns : Returns p (frames.map (·.resume)) := placed.returns
  unfold State.getLocal Vm.getLocal
  simp only [State.toVm, layout]
  cases frames with
  | nil => cases returns
  | cons f frames =>
    simp only [encode, List.map_cons, Frames.local?_build]
    cases f.locals[index]? with
    | none => exact .crash _
    | some v => exact .next _ (placed.goto inside _)

theorem agrees_setLocal (placed : State.Placed p ⟨store, frames, .body pos⟩)
    (inside : p.Inside next) (index : Nat) :
    Agrees p (State.setLocal ⟨store, frames, .body pos⟩ index next)
      ((State.toVm p ⟨store, frames, .body pos⟩).setLocal index (p.place next)) := by
  have returns : Returns p (frames.map (·.resume)) := placed.returns
  have room := placed.extent_le
  unfold State.setLocal Vm.setLocal
  simp only [State.toVm, layout]
  have same : Vm.peek? ⟨store.stack, Frames.build (encode p frames), store.globals, store.heap,
      store.sink⟩ 0 = store.peek? 0 := rfl
  rw [same]
  cases store.peek? 0 with
  | none => exact .error _ ⟨store, frames, .body pos⟩
  | some v =>
    cases frames with
    | nil => cases returns
    | cons f frames =>
      simp only [encode, List.map_cons, Frames.setLocal?_build]
      by_cases here : index < f.locals.length
      · simp only [here, if_true]
        refine .next ⟨store, ⟨f.resume, f.locals.set index v⟩ :: frames, .body next⟩
          ⟨inside, returns, ?_⟩
        rw [State.toVm, size_layout_body]
        simpa [Frames.extent] using room
      · simp only [here, if_false]
        exact .crash _

theorem agrees_branch (placed : State.Placed p ⟨store, frames, .body pos⟩) {target : Position}
    (inside : p.Inside next) (landing : p.Inside target) :
    Agrees p (State.branch ⟨store, frames, .body pos⟩ target next)
      ((State.toVm p ⟨store, frames, .body pos⟩).branch (p.place target) (p.place next)) := by
  unfold State.branch Vm.branch
  have same : Vm.peek? (State.toVm p ⟨store, frames, .body pos⟩) 0 = store.peek? 0 := rfl
  rw [same]
  cases store.peek? 0 with
  | none => exact .error _ ⟨store, frames, .body pos⟩
  | some v =>
    by_cases taken : v.isTruthy
    · simp only [taken, if_true]
      exact .next _ (placed.goto landing _)
    · simp only [taken, Bool.false_eq_true, if_false]
      exact .next _ (placed.goto inside _)

theorem inside_of_label (linked : Linked p image) {text : String}
    (label : p.label? text = some pos) : p.Inside pos := by
  obtain ⟨ins, here, -⟩ := Option.bind_eq_some_iff.mp (linked.label_iff.mp label)
  exact ⟨ins, here⟩

theorem emits_of_not_label {ins : Ins} (plain : ins.isLabel = false) :
    p.emits (.ins ins) = true := by
  cases ins with
  | label name => cases plain
  | lit idx =>
    simp only [Program.emits, Program.opcode?, Program.insOpcode?]
    split <;> rfl
  | _ => rfl

theorem agrees_exec (linked : Linked p image) (small : image.code.size < 2 ^ 64)
    (placed : State.Placed p ⟨store, frames, .body pos⟩) {ins : Ins} {instr : Instr}
    (quickens : Quickens p image (.ins ins) instr)
    (follows : ins.leaves = false → p.Inside next) :
    Agrees p (State.exec ⟨store, frames, .body pos⟩ p next ins)
      ((State.toVm p ⟨store, frames, .body pos⟩).exec image (p.place next) instr) := by
  have symbolic (symbol : Symbol) : Symbol.ofOperand symbol.id.toUInt64 = symbol := by
    simp [Symbol.ofOperand]
  cases quickens with
  | int literal =>
    simp only [State.exec, literal]
    exact agrees_after placed (follows rfl) _
  | null literal =>
    simp only [State.exec, literal]
    exact agrees_after placed (follows rfl) _
  | printf arity string stored =>
    simp only [State.exec, Vm.exec, string, stored, Outcome.ofOption]
    exact agrees_after placed (follows rfl) _
  | array => exact agrees_newArray linked placed (follows rfl)
  | object stored counted ranked =>
    simp only [State.exec, Vm.exec, stored, counted, ranked, Option.bind_some, Constant.classSlots?,
      Outcome.ofOption]
    exact agrees_newObject linked placed (follows rfl) (counted ▸ UInt32.toNat_lt_size _) _
  | slot string named =>
    simp only [State.exec, Vm.exec, string, symbolic, linked.selector_eq named, Store.getSlot_map,
      Outcome.ofOption]
    exact agrees_after placed (follows rfl) _
  | setSlot string named =>
    simp only [State.exec, Vm.exec, string, symbolic, linked.selector_eq named, Store.setSlot_map,
      Outcome.ofOption]
    exact agrees_after placed (follows rfl) _
  | callSlot arity string named =>
    simp only [State.exec, Vm.exec, string, symbolic, Outcome.ofOption]
    exact agrees_callSlot linked placed (follows rfl) named _
  | call string function method reached =>
    simp only [State.exec, Vm.exec, string, function, reached, Option.bind_some, Outcome.ofOption]
    exact agrees_call placed (follows rfl) method
  | setLocal idx => exact agrees_setLocal placed (follows rfl) _
  | getLocal idx => exact agrees_getLocal placed (follows rfl) _
  | setGlobal string place =>
    simp only [State.exec, Vm.exec, string, place, Option.bind_some, Outcome.ofOption]
    exact agrees_after placed (follows rfl) _
  | getGlobal string place =>
    simp only [State.exec, Vm.exec, string, place, Option.bind_some, Outcome.ofOption]
    exact agrees_after placed (follows rfl) _
  | branch string label reached =>
    simp only [State.exec, Vm.exec, string, label, reached, Option.bind_some, Outcome.ofOption]
    exact agrees_branch placed (follows rfl) (inside_of_label linked label)
  | goto string label reached =>
    simp only [State.exec, Vm.exec, string, label, reached, Option.bind_some, Outcome.ofOption]
    exact .next _ (placed.goto (inside_of_label linked label) store)
  | ret => exact agrees_ret linked small placed
  | drop => exact agrees_after placed (follows rfl) _

theorem agrees_step (linked : Linked p image) (complete : p.Complete)
    (small : image.code.size < 2 ^ 64) {s : State} (placed : s.Placed p) :
    Agrees p (s.step p) ((s.toVm p).step image (s.control.offset p)) := by
  obtain ⟨store, frames, control⟩ := s
  cases control with
  | enter method resume =>
    obtain ⟨m, found⟩ := placed.control
    have read := linked.decode_start found
    simp only [State.step, Vm.step, Control.offset, read]
    exact agrees_enter complete placed found
  | body pos =>
    obtain ⟨ins, here, plain, place⟩ := complete.settle placed.control
    obtain ⟨instr, read, quickens⟩ := linked.decode_place here (emits_of_not_label plain)
    simp only [State.step, Vm.step, Control.offset, ← place, read, here, Outcome.ofOption]
    exact agrees_exec linked small placed quickens fun stays => complete.next here stays

end
end Source
end SlotVM
