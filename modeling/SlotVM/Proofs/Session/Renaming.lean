import SlotVM.Proofs.Session.Invariant
import SlotVM.Proofs.Source.Pairing

namespace SlotVM

def Sink.Endless (sink : Sink) : Prop := sink.limit = none ∧ sink.flushes = true

/-- Completed frames, with the header of the next one if it is pushed already. -/
def Frames.topped (frames : Frames) : Option Nat → Frames
  | none => frames
  | some ip => frames.pushCall ip

/-- Two machines that have printed the same since their sinks were `sink` and `sink'`, and that differ
in the addresses of objects only: one renaming relates all operands, arguments, locals and globals, and
is one to one on the objects they lead to. -/
structure Vm.Renamed (classes : ClassTable) (sink sink' : Sink) (completed completed' : Frames)
    (vm vm' : Vm) : Prop where
  output : ∃ text, vm.sink = sink.write text ∧ vm'.sink = sink'.write text
  header : ∃ pending, vm.frames = completed.topped pending ∧ vm'.frames = completed'.topped pending
  frames : completed.WellFormed
  graph : ∃ f,
    Roots.Relocated f ⟨vm.stack, completed, vm.globals⟩ ⟨vm'.stack, completed', vm'.globals⟩ ∧
    Heap.Carries f vm.heap vm'.heap classes (Roots.Holds ⟨vm.stack, completed, vm.globals⟩)
      (Roots.Holds ⟨vm'.stack, completed', vm'.globals⟩)

/-- Both runs end in the same way, or stand at the same instruction. -/
inductive Ending.Renamed (image : Image) (sink sink' : Sink) : Ending → Ending → Prop
  | ok {vm vm' : Vm} (completed completed' : Frames)
      (same : Vm.Renamed image.classes sink sink' completed completed' vm vm') :
      Renamed image sink sink' (.ok vm) (.ok vm')
  | error (e : RuntimeError) {vm vm' : Vm} (completed completed' : Frames)
      (same : Vm.Renamed image.classes sink sink' completed completed' vm vm') :
      Renamed image sink sink' (.error e vm) (.error e vm')
  | crash (c : Crash) : Renamed image sink sink' (.crash c) (.crash c)
  | unfinished (ip : Nat) {vm vm' : Vm} (completed completed' : Frames)
      (stands : Vm.Stands image ip vm.frames completed)
      (stands' : Vm.Stands image ip vm'.frames completed')
      (same : Vm.Renamed image.classes sink sink' completed completed' vm vm') :
      Renamed image sink sink' (.unfinished ip vm) (.unfinished ip vm')

section
variable {pairs : Nat → Nat → Prop} {f : Nat → Nat}

theorem eq_map_relocate (along : ∀ a b, pairs a b → f a = b) {xs ys : List Value}
    (each : List.Forall₂ (Value.Paired pairs) xs ys) : ys = xs.map (Value.relocate f) := by
  induction each with
  | nil => rfl
  | cons first _ ih => rw [List.map_cons, ← ih, first.eq_relocate along]

theorem array_eq_map_relocate (along : ∀ a b, pairs a b → f a = b) {xs ys : Array Value}
    (each : List.Forall₂ (Value.Paired pairs) xs.toList ys.toList) :
    ys = xs.map (Value.relocate f) := by
  rw [← Array.toList_inj, Array.toList_map]
  exact eq_map_relocate along each

theorem frames_eq_map_relocate (along : ∀ a b, pairs a b → f a = b) {ρ : Type}
    {fs gs : List (Frame ρ)} (each : List.Forall₂ (Frame.Paired pairs) fs gs) :
    gs = fs.map fun frame => ⟨frame.resume, frame.locals.map (Value.relocate f)⟩ := by
  induction each with
  | nil => rfl
  | cons first _ ih => rw [List.map_cons, ← ih, ← eq_map_relocate along first.2, first.1]

theorem relocated_build (fs : List (Frame Nat)) (small : Frames.extent fs < 2 ^ 64)
    (stack globals : Array Value) (f : Nat → Nat) :
    Roots.Relocated f ⟨stack, Frames.build fs, globals⟩
      ⟨stack.map (Value.relocate f),
        Frames.build (fs.map fun frame => ⟨frame.resume, frame.locals.map (Value.relocate f)⟩),
        globals.map (Value.relocate f)⟩ := by
  have wf := Frames.wellFormed_build fs small
  have walk := Frames.rootPlaces?_build fs small
  obtain ⟨places, walk', -, -, inside⟩ := wf.rootPlaces?
  cases walk.symm.trans walk'
  have read := Frames.roots?_eq walk inside
  rw [Frames.roots?_build fs small, Option.some.injEq] at read
  have moved : Roots.Relocated f ⟨stack, Frames.build fs, globals⟩ _ :=
    Heap.relocated_setPlaces wf walk f
  have length : ((fs.flatMap (·.locals)).map (Value.relocate f)).length =
      (fs.flatMap (·.locals)).length := List.length_map _
  have written := Frames.withRoots?_build fs small length
  simp only [Frames.withRoots?, walk, Option.bind_eq_bind, Option.bind_some, Option.pure_def,
    Option.some.injEq, Frames.refill_map] at written
  rw [← written, read, List.map_map]
  exact moved

end

namespace Source

section
variable {p : Program} {image : Image} {left right : Setting} {pairs : Nat → Nat → Prop}
  {s t : State}

def Control.pending (p : Program) : Control → Option Nat
  | .enter _ resume => some (returnOffset p resume)
  | .body _ => none

theorem layout_eq_topped (frames : List (Frame (Option Position))) (control : Control) :
    layout p frames control = (Frames.build (encode p frames)).topped (control.pending p) := by
  cases control <;> rfl

theorem State.Paired.renamed (linked : Linked p image) (paired : s.Paired p left right pairs t) :
    Vm.Renamed image.classes left.sink right.sink (Frames.build (encode p s.frames))
      (Frames.build (encode p t.frames)) (s.toVm p) (t.toVm p) := by
  have small : Frames.extent (encode p s.frames) < 2 ^ 64 := by
    rw [extent_encode]
    exact Nat.lt_of_le_of_lt paired.room (by decide)
  have wf := Frames.wellFormed_build _ small
  choose! f partner using fun a (known : ∃ b, pairs a b) => known
  have along (a b : Nat) (pair : pairs a b) : f a = b :=
    paired.store.heap.functional a _ _ (partner a ⟨b, pair⟩) pair
  have encoded : encode p t.frames = (encode p s.frames).map fun frame =>
      ⟨frame.resume, frame.locals.map (Value.relocate f)⟩ := by
    rw [frames_eq_map_relocate along paired.frames]
    simp [encode]
  have relocated : Roots.Relocated f
      ⟨s.store.stack, Frames.build (encode p s.frames), s.store.globals⟩
      ⟨t.store.stack, Frames.build (encode p t.frames), t.store.globals⟩ := by
    rw [encoded, array_eq_map_relocate along paired.store.stack,
      array_eq_map_relocate along paired.store.globals]
    exact relocated_build _ small _ _ f
  have held (v : Value)
      (here : Roots.Holds ⟨s.store.stack, Frames.build (encode p s.frames), s.store.globals⟩ v) :
      Value.Paired pairs v (v.relocate f) := by
    have member : v ∈ s.store.stack.toList ++ s.locals ++ s.store.globals.toList := by
      rw [List.append_assoc, List.mem_append, List.mem_append]
      exact mem_of_holds wf paired.room here
    obtain ⟨w, values⟩ := paired.partner member
    rwa [values.eq_relocate along] at values
  refine ⟨paired.store.printed, ⟨s.control.pending p, layout_eq_topped _ _, ?_⟩, wf, f, relocated, ?_⟩
  · rw [paired.control]
    exact layout_eq_topped _ _
  · have heap := paired.store.heap.sizes linked.size_classes fun index =>
      (linked.nvars_eq index).symm
    have holds_iff := relocated.holds_iff wf
    refine heap.carries along (fun v here => ?_) fun w here => ?_
    · exact ⟨v.relocate f, (holds_iff _).mpr ⟨v, here, rfl⟩, held v here⟩
    · obtain ⟨v, here', rfl⟩ := (holds_iff w).mp here
      exact ⟨v, here', held v here'⟩

theorem Lockstep.renamed (runnable : Runnable p image) {source source' : Ending}
    {target target' : SlotVM.Ending} (steps : Lockstep p source target)
    (steps' : Lockstep p source' target') (paired : source.Paired p left right source') :
    Ending.Renamed image left.sink right.sink target target' ∨
      left.semispace < right.semispace ∧
        ∃ size vm text, target = .error (.outOfMemory size) vm ∧ vm.sink = left.sink.write text := by
  have linked := runnable.meets
  cases paired with
  | ok pairs states =>
    cases steps
    cases steps'
    exact .inl (.ok _ _ (states.renamed linked))
  | error e pairs states =>
    cases steps
    cases steps'
    exact .inl (.error e _ _ (states.renamed linked))
  | crash c =>
    cases steps
    cases steps'
    exact .inl (.crash c)
  | stuck => cases steps
  | @unfinished s t pairs states =>
    cases steps with
    | unfinished s placed sound =>
      cases steps' with
      | unfinished t placed' sound' =>
        have stands := (placed.stands runnable).1
        have stands' := (placed'.stands runnable).1
        rw [states.control] at stands ⊢
        exact .inl (.unfinished _ _ _ stands stands' (states.renamed linked))
  | starved size pairs states e tight =>
    cases steps
    obtain ⟨text, printed, -⟩ := states.store.printed
    exact .inr ⟨tight, size, _, text, rfl, printed⟩

end
end Source

section
variable {p : Program} {image : Image} {vm vm' : Vm}

theorem Sink.flush_write {sink : Sink} (endless : sink.Endless) (text : String) :
    (sink.write text).flush = .ok () := by
  simp [Sink.flush, Sink.write, endless.2]

theorem Ending.Renamed.flush {sink sink' : Sink} {e e' : Ending} (endless : sink.Endless)
    (endless' : sink'.Endless) (renamed : Ending.Renamed image sink sink' e e') :
    Ending.Renamed image sink sink' e.flush e'.flush := by
  cases renamed with
  | ok completed completed' same =>
    obtain ⟨text, printed, printed'⟩ := same.output
    simp only [Ending.flush, printed, printed', Sink.flush_write endless, Sink.flush_write endless']
    exact .ok completed completed' same
  | error e completed completed' same =>
    obtain ⟨text, printed, printed'⟩ := same.output
    simp only [Ending.flush, printed, printed', Sink.flush_write endless, Sink.flush_write endless']
    exact .error e completed completed' same
  | crash c => exact .crash c
  | unfinished ip completed completed' stands stands' same =>
    exact .unfinished ip completed completed' stands stands' same

theorem Vm.renamed_execute (runnable : Runnable p image) (heap : vm.heap.WellFormed)
    (heap' : vm'.heap.WellFormed) (endless : vm.sink.Endless) (endless' : vm'.sink.Endless)
    (smaller : vm.heap.semispace ≤ vm'.heap.semispace) (steps : Nat) :
    Ending.Renamed image vm.sink vm'.sink (vm.execute image steps) (vm'.execute image steps) ∨
      vm.heap.semispace < vm'.heap.semispace ∧
        ∃ size last, vm.execute image steps = .error (.outOfMemory size) last := by
  let left : Setting := ⟨vm.heap.semispace, vm.sink, endless.1⟩
  let right : Setting := ⟨vm'.heap.semispace, vm'.sink, endless'.1⟩
  have started : (Source.start p vm.heap left.sink).Paired p left right (fun _ _ => False)
      (Source.start p vm'.heap right.sink) := Source.paired_start p heap heap' rfl rfl
  have paired := started.run runnable.small.classes smaller steps
  have lockstep := Source.lockstep_start runnable heap steps
  have lockstep' := Source.lockstep_start runnable heap' steps
  rcases lockstep.renamed runnable lockstep' paired with same | ⟨tight, size, last, text, out, printed⟩
  · exact .inl (same.flush endless endless')
  · refine .inr ⟨tight, size, last, ?_⟩
    rw [Vm.execute, out, Ending.flush, printed, Sink.flush_write endless]

theorem Vm.of_create {config : Config} {sink : Sink} (created : Vm.create config sink = .ok vm) :
    vm.heap.WellFormed ∧ vm.heap.semispace = 8 * ((config.heapSize + 7) / 8) ∧ vm.sink = sink := by
  obtain ⟨h, space, made⟩ := bind_eq_ok.mp created
  cases made
  refine ⟨Heap.create_wellFormed space, ?_, rfl⟩
  simp only [Heap.create] at space
  split at space
  · cases space
    rfl
  · cases space

/-- Heap size matters through running out of memory only. As long as a run in a small heap has not run
out of memory, the run in a larger heap has not either, and is the same up to addresses. -/
theorem Vm.execute_in_larger_heap (runnable : Runnable p image) {config config' : Config}
    {sink : Sink} (endless : sink.Endless) (created : Vm.create config sink = .ok vm)
    (created' : Vm.create config' sink = .ok vm') (smaller : config.heapSize ≤ config'.heapSize)
    (steps : Nat)
    (enough : ∀ size last, vm.execute image steps ≠ .error (.outOfMemory size) last) :
    Ending.Renamed image sink sink (vm.execute image steps) (vm'.execute image steps) := by
  obtain ⟨heap, semispace, rfl⟩ := Vm.of_create created
  obtain ⟨heap', semispace', same⟩ := Vm.of_create created'
  have sizes : vm.heap.semispace ≤ vm'.heap.semispace := by
    rw [semispace, semispace']
    omega
  have alike := Vm.renamed_execute runnable heap heap' endless (same ▸ endless) sizes steps
  rw [same] at alike
  rcases alike with renamed | ⟨-, size, last, out⟩
  · exact renamed
  · exact absurd out (enough size last)

end

def Ending.collections? : Ending → Option Nat
  | .ok vm => some vm.heap.cycles
  | _ => none

def Program.churn : Program where
  values := #[.str "main", .str "x", .slot 1, .classDef [2], .null, .int 7, .str "~\n",
    .method ⟨0, 0, 0, [.lit 4, .lit 5, .object 3, .drop, .lit 4, .lit 5, .object 3, .setGlobal 1,
      .slot 1, .printf 6 1, .ret]⟩]
  slots := [2, 7]
  entry := 7

theorem Program.churn_complete : Program.churn.Complete := by
  rintro c member m rfl
  simp only [Program.churn, List.mem_cons, reduceCtorEq, Constant.method.injEq, false_or,
    List.not_mem_nil, or_false] at member
  subst member
  exact ⟨_, rfl, rfl⟩

theorem Program.churn_collects :
    ∃ image vm vm', Vm.create ⟨24, false, false⟩ .unbounded = .ok vm ∧
      Vm.create ⟨64, false, false⟩ .unbounded = .ok vm' ∧ Runnable Program.churn image ∧
      (vm.execute image 30).collections? = some 1 ∧
      (vm'.execute image 30).collections? = some 0 := by
  have evaluated : (do
      let vm ← (Vm.create ⟨24, false, false⟩ .unbounded).toOption
      let vm' ← (Vm.create ⟨64, false, false⟩ .unbounded).toOption
      let image ← (link Program.churn).toOption
      return (image.code.size, (vm.execute image 30).collections?,
        (vm'.execute image 30).collections?)) = some (89, some 1, some 0) := by
    rw [link_eq]
    decide +kernel
  obtain ⟨vm, created, evaluated⟩ := toOption_bind_eq_some.mp evaluated
  obtain ⟨vm', created', evaluated⟩ := toOption_bind_eq_some.mp evaluated
  obtain ⟨image, linked, evaluated⟩ := toOption_bind_eq_some.mp evaluated
  obtain ⟨size, evaluated⟩ := Prod.mk.inj (Option.some.inj evaluated)
  obtain ⟨once, never⟩ := Prod.mk.inj evaluated
  have small : Program.churn.Small := ⟨by decide, by decide, by decide⟩
  exact ⟨image, vm, vm', created, created', ⟨linked, small, churn_complete, by rw [size]; decide⟩,
    once, never⟩

theorem Vm.execute_churn_in_larger_heap :
    ∃ image vm vm', Vm.create ⟨24, false, false⟩ .unbounded = .ok vm ∧
      Vm.create ⟨64, false, false⟩ .unbounded = .ok vm' ∧ Runnable Program.churn image ∧
      (vm.execute image 30).collections? = some 1 ∧
      (vm'.execute image 30).collections? = some 0 ∧
      Ending.Renamed image .unbounded .unbounded (vm.execute image 30) (vm'.execute image 30) := by
  obtain ⟨image, vm, vm', created, created', runnable, once, never⟩ := Program.churn_collects
  have enough : ∀ size last, vm.execute image 30 ≠ .error (.outOfMemory size) last := by
    intro size last out
    rw [out] at once
    cases once
  exact ⟨image, vm, vm', created, created', runnable, once, never,
    Vm.execute_in_larger_heap runnable ⟨rfl, rfl⟩ created created' (by decide) 30 enough⟩

/-- What runs leave as it was: the size of the semispaces, and what is printed already. -/
structure Vm.Kept (vm₀ vm : Vm) : Prop where
  heap : vm.heap.WellFormed
  semispace : vm.heap.semispace = vm₀.heap.semispace
  sink : ∃ text, vm.sink = vm₀.sink.write text

theorem Vm.Kept.endless {vm₀ vm : Vm} (kept : vm₀.Kept vm) (endless : vm₀.sink.Endless) :
    vm.sink.Endless := by
  obtain ⟨text, printed⟩ := kept.sink
  rw [printed]
  exact endless

theorem Vm.Kept.trans {vm₀ vm₁ vm₂ : Vm} (first : vm₀.Kept vm₁) (second : vm₁.Kept vm₂) :
    vm₀.Kept vm₂ := by
  obtain ⟨text, printed⟩ := first.sink
  obtain ⟨text', printed'⟩ := second.sink
  refine ⟨second.heap, second.semispace.trans first.semispace, text ++ text', ?_⟩
  rw [printed', printed, Store.write_write]

namespace Session

def runAll (s : Session) : List (Program × Nat) → Session
  | [] => s
  | (p, fuel) :: rest => (s.run p fuel).2.runAll rest

section
variable {s : Session} {p : Program} {image : Image}

theorem vm_after_flush (s : Session) (image : Image) (e : Ending) :
    (s.after image e.flush).2.vm = (s.after image e).2.vm := by
  cases e with
  | ok vm | error e vm =>
    rw [Ending.flush]
    split <;> rfl
  | crash c | unfinished ip vm => rfl

theorem kept_of_paired {vm : Vm} {left : Setting} {pairs : Nat → Nat → Prop} {state : Source.State}
    (semispace : left.semispace = vm.heap.semispace) (sink : left.sink = vm.sink)
    (paired : state.Paired p left left pairs state) : vm.Kept (state.toVm p) := by
  obtain ⟨text, printed, -⟩ := paired.store.printed
  refine ⟨paired.store.heap.left.heap, paired.store.semispace.trans semispace, text, ?_⟩
  rw [← sink]
  exact printed

/-- A run is paired with itself, so it keeps what paired runs keep. -/
theorem kept_run (s : Session) (heap : s.vm.heap.WellFormed) (endless : s.vm.sink.Endless)
    (runnable : ∀ image, link p = .ok image → Runnable p image) (fuel : Nat) :
    s.vm.Kept (s.run p fuel).2.vm := by
  have same : s.vm.Kept s.vm := ⟨heap, rfl, "", by simp [Sink.write]⟩
  cases linked : link p with
  | error fault =>
    rw [run_of_unlinked linked]
    exact same
  | ok image =>
    rw [run_of_linked linked]
    let setting : Setting := ⟨s.vm.heap.semispace, s.vm.sink, endless.1⟩
    have started : (Source.start p s.vm.heap setting.sink).Paired p setting setting
        (fun _ _ => False) (Source.start p s.vm.heap setting.sink) :=
      Source.paired_start p heap heap rfl rfl
    have runnable := runnable image linked
    have paired := started.run runnable.small.classes (Nat.le_refl _) fuel
    have lockstep := Source.lockstep_start runnable heap fuel
    simp only [Session.execute, Vm.execute, vm_after_flush]
    change Source.Lockstep p (Source.run p fuel (Source.start p s.vm.heap setting.sink)) _ at lockstep
    generalize Source.run p fuel (Source.start p s.vm.heap setting.sink) = source at paired lockstep
    generalize Vm.runFrom image fuel image.entry (s.vm.start image) = target at lockstep
    cases lockstep with
    | ok state _ =>
      cases paired with
      | ok pairs states => exact kept_of_paired rfl rfl states
    | error e state _ _ =>
      cases paired with
      | error _ pairs states => exact kept_of_paired rfl rfl states
      | starved _ _ _ _ tight => exact absurd tight (Nat.lt_irrefl _)
    | crash c _ => exact same
    | unfinished state _ _ =>
      cases paired with
      | unfinished pairs states => exact kept_of_paired rfl rfl states

theorem kept_runAll (s : Session) (heap : s.vm.heap.WellFormed) (endless : s.vm.sink.Endless)
    (earlier : List (Program × Nat))
    (runnable : ∀ run ∈ earlier, ∀ image, link run.1 = .ok image → Runnable run.1 image) :
    s.vm.Kept (s.runAll earlier).vm := by
  induction earlier generalizing s with
  | nil => exact ⟨heap, rfl, "", by simp [Session.runAll, Sink.write]⟩
  | cons run earlier ih =>
    have first := s.kept_run heap endless (runnable run List.mem_cons_self) run.2
    refine first.trans (ih _ first.heap (first.endless endless) fun next member => ?_)
    exact runnable next (List.mem_cons_of_mem _ member)

theorem result_of_renamed {s s' : Session} {sink sink' : Sink} {e e' : Ending}
    (renamed : Ending.Renamed image sink sink' e e') :
    (s.after image e).1 = (s'.after image e').1 := by
  cases renamed <;> rfl

/-- A machine that has run programs before runs the next one as a fresh machine does: with the same
result, the same output, and in the end, or after any number of instructions, the same state up to
addresses. With semispaces of one size both run out of memory at the same instruction, or neither. -/
theorem run_after_earlier {config : Config} {sink : Sink} {fresh : Session}
    (created : Session.create config sink = .ok fresh) (endless : sink.Endless)
    (earlier : List (Program × Nat))
    (proper : ∀ run ∈ earlier, ∀ image, link run.1 = .ok image → Runnable run.1 image)
    (runnable : Runnable p image) (fuel : Nat) :
    ((fresh.runAll earlier).run p fuel).1 = (fresh.run p fuel).1 ∧
      Ending.Renamed image sink (fresh.runAll earlier).vm.sink (fresh.vm.execute image fuel)
        ((fresh.runAll earlier).vm.execute image fuel) := by
  obtain ⟨vm, machine, made⟩ := bind_eq_ok.mp created
  cases made
  obtain ⟨heap, -, rfl⟩ := Vm.of_create machine
  have kept := kept_runAll ⟨config, vm, .empty⟩ heap endless earlier proper
  rcases Vm.renamed_execute runnable heap kept.heap endless (kept.endless endless)
    (Nat.le_of_eq kept.semispace.symm) fuel with renamed | ⟨tight, -⟩
  · refine ⟨?_, renamed⟩
    rw [run_of_linked runnable.linked, run_of_linked runnable.linked]
    exact (result_of_renamed renamed).symm
  · exact absurd kept.semispace.symm (Nat.ne_of_lt tight)

theorem getter_fills :
    ∃ fresh, Session.create ⟨24, false, false⟩ .unbounded = .ok fresh ∧
      (fresh.runAll [(Program.getter, 30)]).vm.heap.used = 24 := by
  have evaluated : (do
      let fresh ← (Session.create ⟨24, false, false⟩ .unbounded).toOption
      let image ← (link Program.getter).toOption
      return (fresh.execute image 30).2.vm.heap.used) = some 24 := by
    rw [link_eq]
    decide +kernel
  obtain ⟨fresh, created, evaluated⟩ := toOption_bind_eq_some.mp evaluated
  obtain ⟨image, linked, evaluated⟩ := toOption_bind_eq_some.mp evaluated
  refine ⟨fresh, created, ?_⟩
  rw [runAll, runAll, run_of_linked linked]
  exact Option.some.inj evaluated

theorem run_getter_after_getter :
    ∃ fresh image, Session.create ⟨24, false, false⟩ .unbounded = .ok fresh ∧
      (fresh.runAll [(Program.getter, 30)]).vm.heap.used = 24 ∧ Runnable Program.getter image ∧
      ((fresh.runAll [(Program.getter, 30)]).run Program.getter 30).1 =
        (fresh.run Program.getter 30).1 ∧
      Ending.Renamed image .unbounded (fresh.runAll [(Program.getter, 30)]).vm.sink
        (fresh.vm.execute image 30)
        ((fresh.runAll [(Program.getter, 30)]).vm.execute image 30) := by
  obtain ⟨fresh, created, full⟩ := getter_fills
  obtain ⟨image, runnable⟩ := Source.getter_runnable
  have proper : ∀ run ∈ [(Program.getter, 30)], ∀ image, link run.1 = .ok image →
      Runnable run.1 image := by
    intro run member image' linked
    rw [List.mem_singleton.mp member] at linked ⊢
    cases linked.symm.trans runnable.linked
    exact runnable
  exact ⟨fresh, image, created, full, runnable,
    run_after_earlier created ⟨rfl, rfl⟩ [(Program.getter, 30)] proper runnable 30⟩

end
end Session
end SlotVM
