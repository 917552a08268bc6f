import SlotVM.Proofs.Code.Operands
import SlotVM.Proofs.Machine.Calls

namespace SlotVM

theorem Opcode.eq_toByte {byte : UInt8} {op : Opcode} (known : ofByte? byte = some op) :
    byte = op.toByte := by
  have places : ∀ place, ∀ inside : place < all.size, all[place].toByte.toNat = place := by decide
  obtain ⟨inside, same⟩ := Array.getElem?_eq_some_iff.mp known
  rw [← UInt8.toNat_inj, ← same, places]

def Fault.Blameless : Fault → Prop
  | .error e => e.blamesCode = false
  | .crash _ => True

def Blameless {α : Type} : Except Fault α → Prop
  | .ok _ => True
  | .error f => f.Blameless

def Effect.Blameless : Effect → Prop
  | .error e _ => e.blamesCode = false
  | _ => True

/-- The run goes on at an offset, or ends without blaming the code. -/
def Outcome.GoesTo (target : Nat) : Outcome → Prop
  | .next ip _ => ip = target
  | .error e _ => e.blamesCode = false
  | _ => True

section
variable {α β τ : Type}

theorem Blameless.bind {result : Except Fault α} {next : α → Except Fault β}
    (first : Blameless result) (later : ∀ a, Blameless (next a)) : Blameless (result >>= next) := by
  cases result with
  | error f => exact first
  | ok a => exact later a

theorem Blameless.fault {result : Except Fault α} {f : Fault} (blameless : Blameless result)
    (failed : result = .error f) : f.Blameless := by
  rw [failed] at blameless
  exact blameless

theorem blameless_orCrash (result : Except Crash α) : Blameless (orCrash result) := by
  cases result <;> trivial

theorem Fault.Blameless.ofFault {f : Fault} (blameless : f.Blameless) (s : Store) :
    (Effect.ofFault f s).Blameless := by
  cases f <;> exact blameless

namespace Heap

theorem blameless_wrongType (h : Heap) (usage : Usage) (v : Value) :
    Blameless (h.wrongType usage v : Except Fault α) := by
  apply (blameless_orCrash _).bind
  intro type
  rfl

theorem blameless_lookupFrom (h : Heap) (slot : Selector τ) (fuel : Nat) (object : Value) :
    Blameless (h.lookupFrom slot fuel object) := by
  induction fuel generalizing object with
  | zero => trivial
  | succ fuel ih =>
    unfold lookupFrom
    split
    · trivial
    · split
      · trivial
      · split
        · trivial
        · split
          · rfl
          · apply ih
    · apply blameless_wrongType

theorem blameless_lookup (h : Heap) (receiver : Value) (slot : Selector τ) :
    Blameless (h.lookup receiver slot) := by
  unfold lookup
  split
  · rfl
  · apply blameless_lookupFrom

theorem blameless_findVar (h : Heap) (receiver : Value) (slot : Selector τ) :
    Blameless (h.findVar receiver slot) := by
  apply (h.blameless_lookup receiver slot).bind
  rintro ⟨object, index | target⟩
  · trivial
  · rfl

theorem blameless_findMethod (h : Heap) (receiver : Value) (slot : Selector τ) :
    Blameless (h.findMethod receiver slot) := by
  apply (h.blameless_lookup receiver slot).bind
  rintro ⟨object, index | target⟩
  · rfl
  · trivial

end Heap

namespace Store

variable (s : Store)

theorem blameless_renderFormat (given : Nat) (seen cs : List Char) (args : List Value) :
    Blameless (renderFormat given seen cs args) := by
  induction cs generalizing seen args with
  | nil => trivial
  | cons c cs ih =>
    unfold renderFormat
    split
    · split
      · rfl
      · split
        · apply ih
        · apply (blameless_orCrash _).bind
          intro type
          rfl
    · apply ih

theorem blameless_printf (format : String) (arity : Nat) : (s.printf format arity).Blameless := by
  unfold printf
  split
  · rfl
  · split
    · rename_i f failed
      exact ((blameless_renderFormat _ _ _ _).fault failed).ofFault s
    · split
      · trivial
      · rfl

theorem blameless_getSlot (slot : Selector τ) : (s.getSlot slot).Blameless := by
  unfold getSlot
  split
  · rfl
  · dsimp only
    split
    · rename_i f failed
      exact ((Heap.blameless_findVar _ _ _).fault failed).ofFault _
    · split <;> trivial

theorem blameless_setSlot (slot : Selector τ) : (s.setSlot slot).Blameless := by
  unfold setSlot
  split
  · rfl
  · rfl
  · dsimp only
    split
    · rename_i f failed
      exact ((Heap.blameless_findVar _ _ _).fault failed).ofFault _
    · split <;> trivial

theorem blameless_getGlobal (index : Nat) : (s.getGlobal index).Blameless := by
  unfold getGlobal
  split <;> trivial

theorem blameless_setGlobal (index : Nat) : (s.setGlobal index).Blameless := by
  unfold setGlobal
  split
  · rfl
  · split <;> trivial

theorem blameless_drop : s.drop.Blameless := by
  unfold drop
  split
  · rfl
  · trivial

theorem blameless_arrayLength : Blameless s.arrayLength := by
  unfold arrayLength
  split
  · rfl
  · split
    · apply (blameless_orCrash _).bind
      intro type
      rfl
    · trivial

theorem blameless_buildArray (len : Nat) : (buildArray len s).Blameless := by
  unfold buildArray
  split
  · rfl
  · trivial

theorem blameless_buildObject (nvars index : Nat) : (buildObject nvars index s).Blameless := by
  unfold buildObject
  split
  · rfl
  · split <;> trivial

theorem blameless_intResult (h : Heap) (op : IntOp) (a : Int) (rhs : Value) :
    Blameless (intResult h op a rhs) := by
  unfold intResult
  split
  · split
    · trivial
    · rename_i e failed
      exact benign_apply failed
  · split
    · trivial
    · apply Heap.blameless_wrongType

theorem blameless_callInt (name : String) (arity : Nat) (a : Int) :
    (s.callInt name arity a).Blameless := by
  unfold callInt
  split
  · rfl
  · split
    · split
      · rfl
      · dsimp only
        split
        · rename_i f failed
          exact ((blameless_intResult _ _ _ _).fault failed).ofFault _
        · trivial
    · rfl

theorem blameless_indexOperand (h : Heap) (v : Value) (length : Nat) :
    Blameless (indexOperand h v length) := by
  unfold indexOperand checkIndex
  split
  · apply Heap.blameless_wrongType
  · split
    · trivial
    · rename_i e failed
      split at failed <;> cases failed
      rfl

theorem blameless_callArray (name : String) (arity : Nat) (array : Value) (length : Nat) :
    (s.callArray name arity array length).Blameless := by
  unfold callArray
  split
  · rfl
  · split
    · split
      · trivial
      · unfold arrayGet
        split
        · rfl
        · dsimp only
          split
          · rename_i f failed
            exact ((blameless_indexOperand _ _ _).fault failed).ofFault _
          · split <;> trivial
      · unfold arraySet
        split
        · dsimp only
          split
          · rename_i f failed
            exact ((blameless_indexOperand _ _ _).fault failed).ofFault _
          · split <;> trivial
        · rfl
    · rfl

theorem blameless_callSlot {arity : Nat} {slot : Selector τ} {effect : Effect}
    (called : s.callSlot arity slot = .effect effect) : effect.Blameless := by
  unfold callSlot at called
  split at called
  · cases called
    rfl
  · split at called
    · cases called
      rfl
    · split at called
      · cases called
        trivial
      · cases called
        rfl
      · cases called
        apply blameless_callInt
      · split at called
        · cases called
          trivial
        · cases called
          apply blameless_callArray
        · split at called
          · rename_i f failed
            cases called
            exact ((Heap.blameless_findMethod _ _ _).fault failed).ofFault s
          · cases called

end Store
end

namespace Vm

def target? (vm : Vm) (image : Image) : Instr → Option Nat
  | .goto target => some target.toNat
  | .branch target => if (vm.peek? 0).any Value.isTruthy then some target.toNat else none
  | .call _ target => some target.toNat
  | .callSlot arity name =>
    match vm.store.callSlot arity.toNat (image.selector (.ofOperand name)) with
    | .enter target => some target
    | .effect _ => none
  | .ret =>
    match vm.frames.ret? with
    | some (.resume ip, _) => some ip
    | _ => none
  | _ => none

theorem target?_branch (vm : Vm) (image : Image) (target : UInt64) :
    vm.target? image (.branch target) =
      if (vm.peek? 0).any Value.isTruthy then some target.toNat else none := rfl

theorem target?_callSlot (vm : Vm) (image : Image) (arity : UInt32) (name : UInt64) :
    vm.target? image (.callSlot arity name) =
      match vm.store.callSlot arity.toNat (image.selector (.ofOperand name)) with
      | .enter target => some target
      | .effect _ => none := rfl

theorem target?_ret (vm : Vm) (image : Image) :
    vm.target? image .ret =
      match vm.frames.ret? with
      | some (.resume ip, _) => some ip
      | _ => none := rfl

section
variable (vm : Vm) (classes : ClassTable) (next : Nat)

theorem goesTo_after {effect : Effect} (blameless : effect.Blameless) :
    (vm.after next effect).GoesTo next := by
  cases effect with
  | done s => rfl
  | error e s => exact blameless
  | crash c => trivial

theorem goesTo_allocate (size : Nat) {build : Store → Effect} (blameless : ∀ s, (build s).Blameless) :
    (vm.allocate classes size build next).GoesTo next := by
  unfold allocate
  split
  · exact vm.goesTo_after next (blameless _)
  · split
    · trivial
    · split
      · apply goesTo_after
        apply blameless
      · rfl

theorem goesTo_newArray : (vm.newArray classes next).GoesTo next := by
  unfold newArray
  split
  · rename_i f failed
    apply goesTo_after
    exact (vm.store.blameless_arrayLength.fault failed).ofFault _
  · apply goesTo_allocate
    intro s
    apply Store.blameless_buildArray

theorem goesTo_newObject (nvars index : Nat) :
    (vm.newObject classes nvars index next).GoesTo next := by
  unfold newObject
  split
  · rfl
  · apply goesTo_allocate
    intro s
    apply Store.blameless_buildObject

theorem goesTo_jump (target : Nat) : (vm.jump target next).GoesTo target := by
  unfold jump
  split
  · rfl
  · trivial

theorem goesTo_callSlot (image : Image) (arity : UInt32) (name : UInt64) :
    (vm.callSlot arity.toNat (image.selector (.ofOperand name)) next).GoesTo
      ((vm.target? image (.callSlot arity name)).getD next) := by
  unfold callSlot
  rw [target?_callSlot]
  cases called : vm.store.callSlot arity.toNat (image.selector (.ofOperand name)) with
  | effect effect =>
    apply goesTo_after
    exact vm.store.blameless_callSlot called
  | enter target => apply goesTo_jump

theorem goesTo_enter (nargs nlocals : Nat) : (vm.enter nargs nlocals next).GoesTo next := by
  unfold enter
  split
  · rfl
  · split
    · split
      · trivial
      · rfl
    · trivial

theorem goesTo_ret (image : Image) : vm.ret.GoesTo ((vm.target? image .ret).getD next) := by
  unfold ret
  rw [target?_ret]
  cases vm.frames.ret? with
  | none => trivial
  | some found =>
    obtain ⟨returned, frames⟩ := found
    cases returned with
    | halt => trivial
    | resume ip => rfl

theorem goesTo_getLocal (index : Nat) : (vm.getLocal index next).GoesTo next := by
  unfold getLocal
  split
  · trivial
  · rfl

theorem goesTo_setLocal (index : Nat) : (vm.setLocal index next).GoesTo next := by
  unfold setLocal
  split
  · rfl
  · split
    · trivial
    · rfl

theorem goesTo_branch (image : Image) (target : UInt64) :
    (vm.branch target.toNat next).GoesTo ((vm.target? image (.branch target)).getD next) := by
  unfold branch
  rw [target?_branch]
  cases vm.peek? 0 with
  | none => rfl
  | some v =>
    by_cases taken : v.isTruthy
    · simp [taken, Outcome.GoesTo]
    · simp [taken, Outcome.GoesTo]

theorem goesTo_exec (image : Image) (instr : Instr) :
    (vm.exec image next instr).GoesTo ((vm.target? image instr).getD next) := by
  cases instr with
  | int value => rfl
  | null => rfl
  | printf arity format =>
    simp only [exec]
    split
    · trivial
    · exact vm.goesTo_after next (Store.blameless_printf _ _ _)
  | array => exact vm.goesTo_newArray image.classes next
  | object nvars index => exact vm.goesTo_newObject image.classes next _ _
  | slot name => exact vm.goesTo_after next (Store.blameless_getSlot _ _)
  | setSlot name => exact vm.goesTo_after next (Store.blameless_setSlot _ _)
  | callSlot arity name => exact vm.goesTo_callSlot next image arity name
  | call arity target => exact vm.goesTo_jump next target.toNat
  | frame nargs nlocals => exact vm.goesTo_enter next _ _
  | ret => exact vm.goesTo_ret next image
  | getLocal index => exact vm.goesTo_getLocal next _
  | setLocal index => exact vm.goesTo_setLocal next _
  | getGlobal index => exact vm.goesTo_after next (Store.blameless_getGlobal _ _)
  | setGlobal index => exact vm.goesTo_after next (Store.blameless_setGlobal _ _)
  | branch target => exact vm.goesTo_branch next image target
  | goto target => rfl
  | drop => exact vm.goesTo_after next (Store.blameless_drop _)

end

/-- What one step does at an offset of arbitrary code. -/
inductive Dispatches (vm : Vm) (image : Image) (ip : Nat) : Outcome → Prop
  | outside (past : image.code.size ≤ ip) : Dispatches vm image ip (.error (.codeOverrun ip) vm)
  | unknown {byte : UInt8} (here : image.code.bytes[ip]? = some byte)
      (other : ∀ op : Opcode, op.toByte ≠ byte) :
      Dispatches vm image ip (.error (.badOpcode byte ip) vm)
  | cut {op : Opcode} {o : Operand} (here : image.code.bytes[ip]? = some op.toByte)
      (operand : o ∈ op.layout ip) (past : image.code.size < o.stop) :
      Dispatches vm image ip (.error (.codeOverrun ip) vm)
  | executed {op : Opcode} {instr : Instr} (here : image.code.bytes[ip]? = some op.toByte)
      (inside : ∀ o ∈ op.layout ip, ip < o.place ∧ o.width ∣ o.place ∧ o.stop ≤ image.code.size)
      (makes : op.Makes ((op.layout ip).map (Operand.number image.code)) instr)
      (advances : ip < op.stop ip)
      (goes : (vm.exec image (op.stop ip) instr).GoesTo
        ((vm.target? image instr).getD (op.stop ip))) :
      Dispatches vm image ip (vm.exec image (op.stop ip) instr)

theorem dispatches_step (vm : Vm) (image : Image) (ip : Nat) :
    vm.Dispatches image ip (vm.step image ip) := by
  unfold step Code.decode Code.opcodeAt
  cases here : image.code.bytes[ip]? with
  | none => exact .outside (Array.getElem?_eq_none_iff.mp here)
  | some byte =>
    cases known : Opcode.ofByte? byte with
    | none =>
      have other : ∀ op : Opcode, op.toByte ≠ byte := by
        rintro op rfl
        rw [Opcode.ofByte?_toByte] at known
        cases known
      simp only [known]
      exact .unknown here other
    | some op =>
      rw [Opcode.eq_toByte known] at here
      have operates := image.code.operates_decodeOperands? op (ip + 1)
      simp only [known]
      -- nothing is executed before the last operand is read
      cases read : image.code.decodeOperands? op (ip + 1) with
      | none =>
        rw [read] at operates
        obtain ⟨o, operand, past⟩ := operates
        exact .cut here operand past
      | some found =>
        obtain ⟨instr, next⟩ := found
        rw [read] at operates
        obtain ⟨makes, inside, last⟩ := operates
        subst last
        apply Dispatches.executed here ?_ makes (op.lt_stop ip) (vm.goesTo_exec _ image instr)
        intro o operand
        obtain ⟨-, start, place, -⟩ := Opcode.bounds_of_mem_layout operand
        exact ⟨by omega, o.width_dvd_place, inside o operand⟩

/-- A step on arbitrary code executes an instruction whose operands are all inside the buffer, or fails
and leaves the state as it was. Where the operands stand is computed without wrapping around. -/
theorem step_decodes (vm : Vm) (image : Image) (ip : Nat) :
    vm.Dispatches image ip (vm.step image ip) ∧
    (image.code.size < 2 ^ 63 → ip < image.code.size →
      ∀ op : Opcode, ∀ o ∈ op.layout ip, o.FitsWords) := by
  constructor
  · exact vm.dispatches_step image ip
  · intro small inside op o operand
    exact Opcode.fitsWords_of_mem_layout (by omega) operand

end Vm

def Image.truncated : Image where
  code := ⟨#[1, 4, 0, 0, 1, 0, 0, 0, 2, 0, 0]⟩
  classes := .empty
  symbols := .empty
  strings := #[]
  globals := #[]
  entry := 0

theorem Vm.truncated_step :
    Image.truncated.code.size < 2 ^ 63 ∧ 1 < Image.truncated.code.size ∧
      ∀ vm : Vm, vm.Dispatches .truncated 1 (.error (.codeOverrun 1) vm) ∧
        Operand.FitsWords ⟨8, 4⟩ := by
  have small : Image.truncated.code.size < 2 ^ 63 := by decide
  have inside : 1 < Image.truncated.code.size := by decide
  refine ⟨small, inside, ?_⟩
  intro vm
  obtain ⟨dispatches, words⟩ := vm.step_decodes .truncated 1
  exact ⟨dispatches, words small inside .object ⟨8, 4⟩ (by decide)⟩

end SlotVM
