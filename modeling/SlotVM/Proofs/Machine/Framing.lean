import SlotVM.Proofs.Frames.Build
import SlotVM.Proofs.Machine.Soundness

namespace SlotVM

/-- `after` is `vm` with its top `count` operands moved into a new frame, the deepest first, and
`nlocals` nulls behind them. -/
structure Vm.Framed (vm after : Vm) (count nlocals : Nat) : Prop where
  stack : after.stack = vm.stack.shrink (vm.stack.size - count)
  arguments : ∀ i < count, after.frames.local? i = vm.stack[vm.stack.size - count + i]?
  others : ∀ i, after.frames.local? (count + i) = if i < nlocals then some .null else none

theorem Frames.local?_of_enter? {frames entered : Frames} {args : Array Value} {nlocals : Nat}
    (made : frames.enter? args nlocals = some entered) (i : Nat) :
    entered.local? i = (args ++ Array.replicate nlocals .null)[i]? := by
  unfold Frames.enter? at made
  split at made
  · rename_i header
    cases made
    have place : frames.size - 2 + 2 + i = frames.words.size + i := by
      unfold Frames.size at header ⊢
      omega
    rw [Frames.local?, place, Array.append_assoc, Array.getElem?_append_right (by omega),
      Nat.add_sub_cancel_left]
  · cases made

theorem Vm.framed_of_enter? {vm : Vm} {entered : Frames} {nargs nlocals : Nat}
    (enough : nargs ≤ vm.stack.size) {frames : Frames}
    (made : frames.enter? (vm.store.top nargs) nlocals = some entered) :
    vm.Framed ({ vm with frames := entered }.dropTop nargs) nargs nlocals := by
  have size : (vm.store.top nargs).size = nargs := by
    simp only [Store.top, Vm.store, Array.size_extract]
    omega
  refine ⟨rfl, fun i bound => ?_, fun i => ?_⟩
  · show entered.local? i = _
    rw [Frames.local?_of_enter? made, Array.getElem?_append_left (by omega)]
    exact vm.store.getElem?_top enough bound
  · show entered.local? (nargs + i) = _
    rw [Frames.local?_of_enter? made, Array.getElem?_append_right (by omega), size,
      Nat.add_sub_cancel_left, Array.getElem?_replicate]

theorem Vm.jump_enter (vm : Vm) (nargs nlocals target next body : Nat) :
    (vm.frames.size + 2 > Frames.capacity ∧ vm.jump target next = .crash .frameMemory) ∨
    ∃ called : Vm, vm.jump target next = .next target called ∧
      (vm.stack.size < nargs ∧ called.enter nargs nlocals body = .error .stackUnderflow called ∨
        vm.frames.size + 2 + nargs + nlocals > Frames.capacity ∧
          called.enter nargs nlocals body = .crash .frameMemory ∨
        ∃ after, called.enter nargs nlocals body = .next body after ∧
          vm.Framed after nargs nlocals) := by
  unfold Vm.jump
  by_cases room : vm.frames.size + 2 ≤ Frames.capacity
  · rw [if_pos room]
    refine .inr ⟨_, rfl, ?_⟩
    have size : (vm.frames.pushCall next).size = vm.frames.size + 2 := by
      simp [Frames.pushCall, Frames.size]
    unfold Vm.enter
    by_cases short : vm.stack.size < nargs
    · exact .inl ⟨short, if_pos short⟩
    · right
      rw [if_neg short]
      simp only [size]
      by_cases wide : vm.frames.size + 2 + nargs + nlocals ≤ Frames.capacity
      · right
        rw [if_pos wide]
        cases made : (vm.frames.pushCall next).enter? (vm.store.top nargs) nlocals with
        | none =>
          have header : 2 ≤ (vm.frames.pushCall next).size := by omega
          simp [Frames.enter?, header] at made
        | some entered =>
          refine ⟨_, ?_, Vm.framed_of_enter? (by omega) made⟩
          change (vm.frames.pushCall next).enter?
            (Vm.store { vm with frames := vm.frames.pushCall next } |>.top nargs) nlocals =
              some entered at made
          simp only [made]
      · exact .inl ⟨by omega, if_neg wide⟩
  · exact .inl ⟨by omega, if_neg room⟩

namespace Vm

def Calls (vm : Vm) (ip nargs nlocals : Nat) (after : Vm) : Prop :=
  ip < 2 ^ 64 ∧ ∃ target body called, vm.jump target ip = .next target called ∧
    called.enter nargs nlocals body = .next body after

/-- The frames that are live in a machine, innermost first, after any number of completed calls,
stores into locals and returns. What else changes leaves the frames alone. -/
inductive Live : Vm → List (Frame Nat) → Prop
  | start {vm : Vm} (none : vm.frames = .empty) : Live vm []
  | elsewhere {vm vm' : Vm} {fs : List (Frame Nat)} (live : Live vm fs)
      (same : vm'.frames = vm.frames) : Live vm' fs
  | call {vm after : Vm} {ip nargs nlocals : Nat} {fs : List (Frame Nat)} (live : Live vm fs)
      (called : vm.Calls ip nargs nlocals after) :
      Live after (⟨ip, (vm.store.top nargs).toList ++ List.replicate nlocals .null⟩ :: fs)
  | setLocal {vm : Vm} {frames : Frames} {index : Nat} {v : Value} {f : Frame Nat}
      {fs : List (Frame Nat)} (live : Live vm (f :: fs))
      (stored : vm.frames.setLocal? index v = some frames) :
      Live { vm with frames := frames } (⟨f.resume, f.locals.set index v⟩ :: fs)
  | ret {vm : Vm} {frames : Frames} {back : Return} {f : Frame Nat} {fs : List (Frame Nat)}
      (live : Live vm (f :: fs)) (returned : vm.frames.ret? = some (back, frames)) :
      Live { vm with frames := frames } fs

/-- What can happen in a frame until it returns: stores into its locals, calls that return, and
changes that leave the frames alone. -/
inductive Balanced : Vm → Vm → Prop
  | refl {vm : Vm} : Balanced vm vm
  | elsewhere {vm last vm' : Vm} (run : Balanced vm last) (same : vm'.frames = last.frames) :
      Balanced vm vm'
  | setLocal {vm last : Vm} {frames : Frames} {index : Nat} {v : Value} (run : Balanced vm last)
      (stored : last.frames.setLocal? index v = some frames) :
      Balanced vm { last with frames := frames }
  | call {vm last callee done : Vm} {frames : Frames} {ip nargs nlocals : Nat} {back : Return}
      (run : Balanced vm last) (called : last.Calls ip nargs nlocals callee)
      (body : Balanced callee done) (returned : done.frames.ret? = some (back, frames)) :
      Balanced vm { done with frames := frames }

structure Represents (vm : Vm) (fs : List (Frame Nat)) : Prop where
  frames : vm.frames = .build fs
  extent : Frames.extent fs ≤ Frames.capacity
  resumes : ∀ f ∈ fs, f.resume < 2 ^ 64

section
variable {vm vm' after : Vm} {ip nargs nlocals : Nat} {f : Frame Nat} {fs : List (Frame Nat)}
  {frames : Frames}

theorem Calls.entered (called : vm.Calls ip nargs nlocals after) :
    ip < 2 ^ 64 ∧ nargs ≤ vm.stack.size ∧
      vm.frames.size + 2 + nargs + nlocals ≤ Frames.capacity ∧
      ∃ frames, (vm.frames.pushCall ip).enter? (vm.store.top nargs) nlocals = some frames ∧
        after = { vm with frames := frames }.dropTop nargs := by
  rcases called with ⟨small, target, body, called, jumped, entered⟩
  unfold Vm.jump at jumped
  split at jumped
  · cases jumped
    have size : (vm.frames.pushCall ip).size = vm.frames.size + 2 := by
      simp [Frames.pushCall, Frames.size]
    unfold Vm.enter at entered
    split at entered
    · cases entered
    · rename_i enough
      split at entered
      · rename_i room
        rw [size] at room
        split at entered
        · cases entered
        · rename_i frames made
          cases entered
          exact ⟨small, Nat.le_of_not_lt enough, room, frames, made, rfl⟩
      · cases entered
  · cases jumped

theorem Represents.call (before : vm.Represents fs) (called : vm.Calls ip nargs nlocals after) :
    after.Represents (⟨ip, (vm.store.top nargs).toList ++ List.replicate nlocals .null⟩ :: fs) := by
  rcases called.entered with ⟨small, enough, room, frames, made, rfl⟩
  have taken : (vm.store.top nargs).size = nargs := by
    simp only [Store.top, Vm.store, Array.size_extract]
    omega
  rw [before.frames, Frames.enter?_pushCall] at made
  rw [before.frames, Frames.size_build] at room
  refine ⟨(Option.some.inj made).symm, ?_, ?_⟩
  · simp only [Frames.extent, List.length_append, Array.length_toList, taken, List.length_replicate]
    omega
  · intro g member
    rcases List.mem_cons.mp member with rfl | member
    · exact small
    · exact before.resumes g member

theorem Represents.setLocal (before : vm.Represents (f :: fs)) {index : Nat} {v : Value}
    (stored : vm.frames.setLocal? index v = some frames) :
    Vm.Represents { vm with frames := frames } (⟨f.resume, f.locals.set index v⟩ :: fs) := by
  rw [before.frames, Frames.setLocal?_build] at stored
  split at stored
  · cases stored
    refine ⟨rfl, ?_, ?_⟩
    · simpa only [Frames.extent, List.length_set] using before.extent
    · intro g member
      rcases List.mem_cons.mp member with rfl | member
      · exact before.resumes f List.mem_cons_self
      · exact before.resumes g (List.mem_cons_of_mem _ member)
  · cases stored

theorem Represents.ret? (before : vm.Represents (f :: fs)) :
    vm.frames.ret? = some (if fs = [] then .halt else .resume f.resume, .build fs) := by
  rw [before.frames]
  cases fs with
  | nil => exact Frames.ret?_root f
  | cons g fs =>
    have extent := before.extent
    have capacity : Frames.capacity < 2 ^ 64 := by decide
    apply Frames.ret?_cons
    · simp only [Frames.extent] at extent ⊢
      omega
    · exact before.resumes f List.mem_cons_self

theorem Represents.ret (before : vm.Represents (f :: fs)) {back : Return}
    (returned : vm.frames.ret? = some (back, frames)) :
    Vm.Represents { vm with frames := frames } fs := by
  rw [before.ret?] at returned
  cases returned
  have extent := before.extent
  refine ⟨rfl, ?_, ?_⟩
  · simp only [Frames.extent] at extent
    omega
  · intro g member
    exact before.resumes g (List.mem_cons_of_mem _ member)

theorem Live.represents (live : vm.Live fs) : vm.Represents fs := by
  induction live with
  | start none => exact ⟨none, by decide, nofun⟩
  | elsewhere live same ih => exact ⟨same.trans ih.frames, ih.extent, ih.resumes⟩
  | call live called ih => exact ih.call called
  | setLocal live stored ih => exact ih.setLocal stored
  | ret live returned ih => exact ih.ret returned

theorem Balanced.represents (run : vm.Balanced vm') (before : vm.Represents (f :: fs)) :
    ∃ locals, vm'.Represents (⟨f.resume, locals⟩ :: fs) := by
  -- until it returns, a frame keeps the frames below it and where it returns to
  induction run generalizing f fs with
  | refl => exact ⟨f.locals, before⟩
  | elsewhere run same ih =>
    rcases ih before with ⟨locals, reached⟩
    exact ⟨locals, same.trans reached.frames, reached.extent, reached.resumes⟩
  | setLocal run stored ih =>
    rcases ih before with ⟨locals, reached⟩
    exact ⟨_, reached.setLocal stored⟩
  | call run called body returned ih inner =>
    -- the callee keeps this frame below it, and its return brings it back
    rcases ih before with ⟨locals, reached⟩
    rcases inner (reached.call called) with ⟨others, finished⟩
    exact ⟨locals, finished.ret returned⟩

theorem Represents.size_eq_zero_iff (represents : vm.Represents fs) :
    vm.frames.size = 0 ↔ fs = [] := by
  rw [represents.frames, Frames.size_build]
  cases fs with
  | nil => simp [Frames.extent]
  | cons f fs => simp [Frames.extent]

theorem Represents.header (represents : vm.Represents (f :: fs)) :
    vm.frames.fp = (Frames.build fs).size ∧
      vm.frames.words[vm.frames.fp]? = some (Frames.rawWord (Frames.build fs).fp) ∧
      vm.frames.words[vm.frames.fp + 1]? = some (Frames.rawWord f.resume) := by
  rw [represents.frames, Frames.fp_build_cons, Frames.size_build]
  have starts : (Frames.build (f :: fs)).words.toList <+: (Frames.build (f :: fs)).words.toList :=
    List.prefix_rfl
  rcases Frames.header_build starts with ⟨-, saved, resume, -⟩
  exact ⟨rfl, saved, resume⟩

/-- A call moves the operands it takes into a frame of its own. When the callee returns, the frame
stack is the one before the call, and the machine goes on after the call or halts if nothing had
called it. -/
theorem Live.call_returns (live : vm.Live fs) (called : vm.Calls ip nargs nlocals after) :
    nargs ≤ vm.stack.size ∧ vm.Framed after nargs nlocals ∧
      after.frames.fp = vm.frames.size ∧
      after.frames.words[after.frames.fp]? = some (Frames.rawWord vm.frames.fp) ∧
      after.frames.words[after.frames.fp + 1]? = some (Frames.rawWord ip) ∧
      (vm.frames.size = 0 → vm.frames = .empty) ∧
      ∀ last, after.Balanced last →
        last.frames.ret? =
          some (if vm.frames.size = 0 then .halt else .resume ip, vm.frames) := by
  have before := live.represents
  have inside := before.call called
  rcases called.entered with ⟨-, enough, -, entered, made, same⟩
  rcases inside.header with ⟨fp, saved, resume⟩
  rw [← before.frames] at fp saved
  refine ⟨enough, ?_, fp, saved, resume, ?_, ?_⟩
  · rw [same]
    exact framed_of_enter? enough made
  · intro none
    rw [before.frames, before.size_eq_zero_iff.mp none]
    rfl
  · intro last run
    rcases run.represents inside with ⟨locals, reached⟩
    rw [reached.ret?, before.frames]
    simp only [← before.frames, before.size_eq_zero_iff]

def bare (stack : Array Value) (frames : Frames) : Vm :=
  ⟨stack, frames, #[], ⟨.zero 0, 0, 0, 0, 0, 0⟩, .unbounded⟩

theorem nested_call_returns :
    ∃ (vm after last : Vm) (fs : List (Frame Nat)), vm.Live fs ∧ vm.Calls 40 2 1 after ∧
      after.Balanced last ∧ after.frames.local? 2 = some .null ∧
      last.frames.local? 2 = some (.ofInt 9) ∧ after.frames.local? 0 = some (.ofInt 6) ∧
      after.stack = #[.ofInt 5] ∧ last.frames.ret? = some (.resume 40, vm.frames) := by
  have root : (bare #[.ofInt 5, .ofInt 6, .ofInt 7] .empty).Calls 0 0 1
      (bare #[.ofInt 5, .ofInt 6, .ofInt 7] ⟨#[⟨0⟩, ⟨0⟩, .null], 0⟩) :=
    ⟨by decide, 0, 0, _, rfl, rfl⟩
  have outer : (bare #[.ofInt 5, .ofInt 6, .ofInt 7] ⟨#[⟨0⟩, ⟨0⟩, .null], 0⟩).Calls 40 2 1
      (bare #[.ofInt 5] ⟨#[⟨0⟩, ⟨0⟩, .null, ⟨0⟩, ⟨40⟩, .ofInt 6, .ofInt 7, .null], 3⟩) :=
    ⟨by decide, 0, 0, _, rfl, rfl⟩
  have inner : (bare #[.ofInt 5]
        ⟨#[⟨0⟩, ⟨0⟩, .null, ⟨0⟩, ⟨40⟩, .ofInt 6, .ofInt 7, .ofInt 9], 3⟩).Calls 80 0 0
      (bare #[.ofInt 5]
        ⟨#[⟨0⟩, ⟨0⟩, .null, ⟨0⟩, ⟨40⟩, .ofInt 6, .ofInt 7, .ofInt 9, ⟨3⟩, ⟨80⟩], 8⟩) :=
    ⟨by decide, 0, 0, _, rfl, rfl⟩
  have live := (Live.start rfl).call root
  have stored : (bare #[.ofInt 5]
        ⟨#[⟨0⟩, ⟨0⟩, .null, ⟨0⟩, ⟨40⟩, .ofInt 6, .ofInt 7, .null], 3⟩).frames.setLocal? 2 (.ofInt 9) =
      some ⟨#[⟨0⟩, ⟨0⟩, .null, ⟨0⟩, ⟨40⟩, .ofInt 6, .ofInt 7, .ofInt 9], 3⟩ := rfl
  have returned : (bare #[.ofInt 5]
        ⟨#[⟨0⟩, ⟨0⟩, .null, ⟨0⟩, ⟨40⟩, .ofInt 6, .ofInt 7, .ofInt 9, ⟨3⟩, ⟨80⟩], 8⟩).frames.ret? =
      some (.resume 80, ⟨#[⟨0⟩, ⟨0⟩, .null, ⟨0⟩, ⟨40⟩, .ofInt 6, .ofInt 7, .ofInt 9], 3⟩) := rfl
  have run := (Balanced.refl.setLocal stored).call inner .refl returned
  rcases Live.call_returns live outer with ⟨-, framed, -, -, -, -, back⟩
  exact ⟨_, _, _, _, live, outer, run, framed.others 0, rfl, framed.arguments 0 (by decide), rfl,
    back _ run⟩

end
end Vm
end SlotVM
