import SlotVM.Proofs.Code.RoundTrip

namespace SlotVM

structure Operand where
  start : Nat
  width : Nat
deriving DecidableEq

namespace Operand

def place (o : Operand) : Nat := alignUp o.start o.width

def stop (o : Operand) : Nat := o.place + o.width

def number (code : Code) (o : Operand) : Nat :=
  ofLittleEndian (code.bytes.extract o.place o.stop).toList

theorem width_dvd_place (o : Operand) : o.width ∣ o.place := Nat.dvd_mul_left _ _

end Operand

def layOut : Nat → List Nat → List Operand
  | _, [] => []
  | start, width :: widths => ⟨start, width⟩ :: layOut (Operand.stop ⟨start, width⟩) widths

def Opcode.layout (op : Opcode) (ip : Nat) : List Operand := layOut (ip + 1) op.operands

def Opcode.stop (op : Opcode) (ip : Nat) : Nat :=
  ((op.layout ip).map Operand.stop).getLastD (ip + 1)

def Instr.numbers : Instr → List Nat
  | .null | .array | .ret | .drop => []
  | .int value => [value.toUInt32.toNat]
  | .printf arity format => [arity.toNat, format.toNat]
  | .object nvars index => [nvars.toNat, index.toNat]
  | .slot name | .setSlot name => [name.toNat]
  | .callSlot arity name => [arity.toNat, name.toNat]
  | .call arity target => [arity.toNat, target.toNat]
  | .frame nargs nlocals => [nargs.toNat, nlocals.toNat]
  | .getLocal index | .setLocal index | .getGlobal index | .setGlobal index => [index.toNat]
  | .branch target | .goto target => [target.toNat]

def Opcode.Makes (op : Opcode) (numbers : List Nat) (instr : Instr) : Prop :=
  instr.opcode = op ∧ instr.numbers = numbers

theorem width_of_mem_operands {op : Opcode} {width : Nat} (mem : width ∈ op.operands) :
    width = 4 ∨ width = 8 := by
  cases op <;> simp [Opcode.operands] at mem <;> omega

theorem alignUp_lt (offset : Nat) {alignment : Nat} (pos : 0 < alignment) :
    alignUp offset alignment < offset + alignment := by
  have le : alignUp offset alignment ≤ offset + alignment - 1 := Nat.div_mul_le_self _ _
  omega

theorem bounds_of_mem_layOut {start : Nat} {widths : List Nat} (pos : ∀ width ∈ widths, 0 < width)
    {o : Operand} (mem : o ∈ layOut start widths) :
    o.width ∈ widths ∧ start ≤ o.start ∧ o.start ≤ o.place ∧ o.stop ≤ start + 2 * widths.sum := by
  induction widths generalizing start with
  | nil => cases mem
  | cons width widths ih =>
    have here : 0 < width := pos width List.mem_cons_self
    have above := le_alignUp start here
    have below := alignUp_lt start here
    rw [List.sum_cons]
    rcases List.mem_cons.mp mem with rfl | later
    · refine ⟨List.mem_cons_self, Nat.le_refl _, above, ?_⟩
      simp only [Operand.stop, Operand.place]
      omega
    · obtain ⟨width', start', place, stop⟩ :=
        ih (fun width' inside => pos width' (List.mem_cons_of_mem _ inside)) later
      simp only [Operand.stop, Operand.place] at start' stop
      refine ⟨List.mem_cons_of_mem _ width', ?_, place, ?_⟩
      · omega
      · simp only [Operand.stop, Operand.place]
        omega

theorem sum_operands_le (op : Opcode) : op.operands.sum ≤ 12 := by
  cases op <;> decide

theorem Opcode.bounds_of_mem_layout {op : Opcode} {ip : Nat} {o : Operand}
    (mem : o ∈ op.layout ip) :
    (o.width = 4 ∨ o.width = 8) ∧ ip < o.start ∧ o.start ≤ o.place ∧ o.stop ≤ ip + 25 := by
  have pos : ∀ width ∈ op.operands, 0 < width := by
    intro width inside
    rcases width_of_mem_operands inside with rfl | rfl <;> decide
  obtain ⟨width, start, place, stop⟩ := bounds_of_mem_layOut pos mem
  have sum := sum_operands_le op
  exact ⟨width_of_mem_operands width, by omega, place, by omega⟩

theorem Opcode.lt_stop (op : Opcode) (ip : Nat) : ip < op.stop ip := by
  have mem : op.stop ip ∈ (ip + 1) :: (op.layout ip).map Operand.stop := List.getLastD_mem_cons
  rcases List.mem_cons.mp mem with same | later
  · omega
  · obtain ⟨o, mem, same⟩ := List.mem_map.mp later
    obtain ⟨-, start, place, -⟩ := bounds_of_mem_layout mem
    rw [← same, Operand.stop]
    omega

/-- Alignment in 64-bit words, by a mask on the low bits. -/
def alignWord (offset alignment : UInt64) : UInt64 :=
  (offset + alignment - 1) &&& ~~~(alignment - 1)

theorem toNat_and_not_add_and (n mask : UInt64) :
    (n &&& ~~~mask).toNat + (n &&& mask).toNat = n.toNat := by
  have disjoint : (n.toBitVec &&& ~~~mask.toBitVec) &&& (n.toBitVec &&& mask.toBitVec) = 0#64 := by
    ext i
    simp only [BitVec.getElem_and, BitVec.getElem_not, BitVec.getElem_zero]
    cases n.toBitVec[i] <;> cases mask.toBitVec[i] <;> rfl
  have joined : (n.toBitVec &&& ~~~mask.toBitVec) ||| (n.toBitVec &&& mask.toBitVec) =
      n.toBitVec := by
    ext i
    simp only [BitVec.getElem_or, BitVec.getElem_and, BitVec.getElem_not]
    cases n.toBitVec[i] <;> cases mask.toBitVec[i] <;> rfl
  have sum := BitVec.toNat_add_of_and_eq_zero disjoint
  rw [BitVec.add_eq_or_of_and_eq_zero _ _ disjoint, joined] at sum
  exact sum.symm

theorem toNat_sub_one {n : UInt64} (pos : 0 < n.toNat) : (n - 1).toNat = n.toNat - 1 := by
  apply UInt64.toNat_sub_of_le
  exact UInt64.le_iff_toNat_le.mpr pos

theorem toNat_alignWord {offset alignment : UInt64} {k : Nat} (power : alignment.toNat = 2 ^ k)
    (room : offset.toNat + alignment.toNat < 2 ^ 64) :
    (alignWord offset alignment).toNat = alignUp offset.toNat alignment.toNat := by
  have pos : 0 < alignment.toNat := by
    rw [power]
    exact Nat.two_pow_pos k
  have mask : (alignment - 1).toNat = 2 ^ k - 1 := by
    rw [toNat_sub_one pos, power]
  have sum : (offset + alignment).toNat = offset.toNat + alignment.toNat := by
    rw [UInt64.toNat_add, Nat.mod_eq_of_lt room]
  have last : (offset + alignment - 1).toNat = offset.toNat + alignment.toNat - 1 := by
    rw [toNat_sub_one (by omega), sum]
  have parts := toNat_and_not_add_and (offset + alignment - 1) (alignment - 1)
  rw [UInt64.toNat_and _ (alignment - 1), mask, Nat.and_two_pow_sub_one_eq_mod, last, ← power]
    at parts
  have split := Nat.div_add_mod' (offset.toNat + alignment.toNat - 1) alignment.toNat
  unfold alignWord alignUp
  omega

/-- No step of computing where an operand stands leaves the 64-bit words. -/
structure Operand.FitsWords (o : Operand) : Prop where
  sum : o.start + o.width < 2 ^ 64
  place : (alignWord o.start.toUInt64 o.width.toUInt64).toNat = o.place
  stop : o.stop < 2 ^ 64

theorem Opcode.fitsWords_of_mem_layout {op : Opcode} {ip : Nat} (small : ip < 2 ^ 63) {o : Operand}
    (mem : o ∈ op.layout ip) : o.FitsWords := by
  obtain ⟨width, -, place, stop⟩ := bounds_of_mem_layout mem
  have sum : o.start + o.width < 2 ^ 64 := by
    unfold Operand.stop at stop
    omega
  refine ⟨sum, ?_, by omega⟩
  have start : o.start.toUInt64.toNat = o.start :=
    UInt64.toNat_ofNat_of_lt' (Nat.lt_of_le_of_lt (Nat.le_add_right _ _) sum)
  have step : o.width.toUInt64.toNat = o.width :=
    UInt64.toNat_ofNat_of_lt' (Nat.lt_of_le_of_lt (Nat.le_add_left _ _) sum)
  have power : ∃ k, o.width.toUInt64.toNat = 2 ^ k := by
    rw [step]
    rcases width with four | eight
    · exact ⟨2, four⟩
    · exact ⟨3, eight⟩
  obtain ⟨k, power⟩ := power
  rw [toNat_alignWord power (by omega), start, step, Operand.place]

theorem ofLittleEndian_lt (bytes : List UInt8) : ofLittleEndian bytes < 256 ^ bytes.length := by
  induction bytes with
  | nil => decide
  | cons byte bytes ih =>
    have low := byte.toNat_lt
    rw [ofLittleEndian, List.length_cons, Nat.pow_succ]
    omega

namespace Code

theorem number_lt (code : Code) (o : Operand) : o.number code < 256 ^ o.width := by
  have length : (code.bytes.extract o.place o.stop).toList.length ≤ o.width := by
    rw [Array.length_toList, Array.size_extract, Operand.stop]
    omega
  calc o.number code < 256 ^ (code.bytes.extract o.place o.stop).toList.length :=
        ofLittleEndian_lt _
    _ ≤ 256 ^ o.width := Nat.pow_le_pow_right (by decide) length

theorem readField?_eq (code : Code) (width start : Nat) :
    code.readField? width start =
      if Operand.stop ⟨start, width⟩ ≤ code.size then
        some (Operand.number code ⟨start, width⟩, Operand.stop ⟨start, width⟩)
      else none := rfl

/-- What a reader of operands gives: nothing if one of them is cut off, else the instruction that their
numbers make and the offset after them. -/
def Operates (code : Code) (makes : List Nat → Instr → Prop) (start : Nat) (widths : List Nat) :
    Option (Instr × Nat) → Prop
  | none => ∃ o ∈ layOut start widths, code.size < o.stop
  | some (instr, next) =>
    makes ((layOut start widths).map (Operand.number code)) instr ∧
      (∀ o ∈ layOut start widths, o.stop ≤ code.size) ∧
      next = ((layOut start widths).map Operand.stop).getLastD start

section
variable {code : Code} {makes : List Nat → Instr → Prop} {start : Nat} {widths : List Nat}

theorem operates_done {instr : Instr} (made : makes [] instr) :
    Operates code makes start [] (some (instr, start)) :=
  ⟨made, by simp [layOut], rfl⟩

theorem operates_field {β : Type} {width : Nat} {ofNat : Nat → β} {toNat : β → Nat}
    (small : ∀ n < 256 ^ width, toNat (ofNat n) = n) (rest : β → Nat → Option (Instr × Nat))
    (later : ∀ n, Operates code (fun numbers => makes (toNat n :: numbers))
      (Operand.stop ⟨start, width⟩) widths (rest n (Operand.stop ⟨start, width⟩))) :
    Operates code makes start (width :: widths)
      (((code.readField? width start).map fun (n, next) => (ofNat n, next)).bind
        fun found => rest found.1 found.2) := by
  have later := later (ofNat (Operand.number code ⟨start, width⟩))
  rw [small _ (code.number_lt ⟨start, width⟩)] at later
  rw [readField?_eq]
  by_cases inside : Operand.stop ⟨start, width⟩ ≤ code.size
  · rw [if_pos inside, Option.map_some, Option.bind_some]
    cases found : rest (ofNat (Operand.number code ⟨start, width⟩)) (Operand.stop ⟨start, width⟩) with
    | none =>
      rw [found] at later
      obtain ⟨o, mem, cut⟩ := later
      exact ⟨o, List.mem_cons_of_mem _ mem, cut⟩
    | some pair =>
      rw [found] at later
      obtain ⟨made, all, next⟩ := later
      refine ⟨made, List.forall_mem_cons.mpr ⟨inside, all⟩, ?_⟩
      rw [layOut, List.map_cons, List.getLastD_cons]
      exact next
  · rw [if_neg inside]
    exact ⟨⟨start, width⟩, List.mem_cons_self, Nat.not_le.mp inside⟩

theorem operates_read32 (rest : UInt32 → Nat → Option (Instr × Nat))
    (later : ∀ n, Operates code (fun numbers => makes (n.toNat :: numbers))
      (Operand.stop ⟨start, 4⟩) widths (rest n (Operand.stop ⟨start, 4⟩))) :
    Operates code makes start (4 :: widths)
      ((code.read32? start).bind fun found => rest found.1 found.2) :=
  operates_field (fun _ small => UInt32.toNat_ofNat_of_lt' small) rest later

theorem operates_read64 (rest : UInt64 → Nat → Option (Instr × Nat))
    (later : ∀ n, Operates code (fun numbers => makes (n.toNat :: numbers))
      (Operand.stop ⟨start, 8⟩) widths (rest n (Operand.stop ⟨start, 8⟩))) :
    Operates code makes start (8 :: widths)
      ((code.read64? start).bind fun found => rest found.1 found.2) :=
  operates_field (fun _ small => UInt64.toNat_ofNat_of_lt' small) rest later

theorem operates_operand32 {make : UInt32 → Instr} (made : ∀ n, makes [n.toNat] (make n)) :
    Operates code makes start [4] (code.operand32 start make) :=
  operates_read32 (fun n next => some (make n, next)) fun n => operates_done (made n)

theorem operates_operand64 {make : UInt64 → Instr} (made : ∀ n, makes [n.toNat] (make n)) :
    Operates code makes start [8] (code.operand64 start make) :=
  operates_read64 (fun n next => some (make n, next)) fun n => operates_done (made n)

theorem operates_operands32 {make : UInt32 → UInt32 → Instr}
    (made : ∀ m n, makes [m.toNat, n.toNat] (make m n)) :
    Operates code makes start [4, 4] (code.operands32 start make) :=
  operates_read32 (fun m next => code.operand32 next (make m)) fun m => operates_operand32 (made m)

theorem operates_operands32And64 {make : UInt32 → UInt64 → Instr}
    (made : ∀ m n, makes [m.toNat, n.toNat] (make m n)) :
    Operates code makes start [4, 8] (code.operands32And64 start make) :=
  operates_read32 (fun m next => code.operand64 next (make m)) fun m => operates_operand64 (made m)

theorem operates_decodeOperands? (code : Code) (op : Opcode) (start : Nat) :
    Operates code op.Makes start op.operands (code.decodeOperands? op start) := by
  cases op with
  | null | array | ret | drop => exact operates_done ⟨rfl, rfl⟩
  | int =>
    have made : ∀ n : UInt32, Opcode.int.Makes [n.toNat] (.int n.toInt32) := by
      intro n
      exact ⟨rfl, by simp [Instr.numbers]⟩
    exact operates_operand32 made
  | getLocal | setLocal | getGlobal | setGlobal => exact operates_operand32 fun n => ⟨rfl, rfl⟩
  | slot | setSlot | branch | goto => exact operates_operand64 fun n => ⟨rfl, rfl⟩
  | object | frame => exact operates_operands32 fun m n => ⟨rfl, rfl⟩
  | printf | callSlot | call => exact operates_operands32And64 fun m n => ⟨rfl, rfl⟩

end
end Code
end SlotVM
