import SlotVM.Code.Instr
import Mathlib.Algebra.Ring.Nat

namespace SlotVM

@[simp] theorem length_littleEndian (width n : Nat) : (littleEndian width n).length = width := by
  induction width generalizing n with
  | zero => rfl
  | succ width ih => rw [littleEndian, List.length_cons, ih]

theorem ofLittleEndian_littleEndian (width n : Nat) :
    ofLittleEndian (littleEndian width n) = n % 256 ^ width := by
  induction width generalizing n with
  | zero => simp [littleEndian, ofLittleEndian, Nat.mod_one]
  | succ width ih =>
    have low : n.toUInt8.toNat = n % 256 := UInt8.toNat_ofNat' ..
    rw [littleEndian, ofLittleEndian, ih, low, Nat.pow_succ', Nat.mod_mul]

theorem le_alignUp (offset : Nat) {alignment : Nat} (pos : 0 < alignment) :
    offset ≤ alignUp offset alignment := by
  unfold alignUp
  have split := Nat.div_add_mod (offset + alignment - 1) alignment
  have bound := Nat.mod_lt (offset + alignment - 1) pos
  rw [Nat.mul_comm] at split
  omega

namespace Code

def Begins (code full : Code) : Prop := code.bytes.toList <+: full.bytes.toList

theorem Begins.trans {a b c : Code} (ab : Begins a b) (bc : Begins b c) : Begins a c :=
  List.IsPrefix.trans ab bc

theorem size_eq_length (code : Code) : code.size = code.bytes.toList.length := by
  simp [size]

theorem toList_putByte (code : Code) (byte : UInt8) :
    (code.putByte byte).bytes.toList = code.bytes.toList ++ [byte] := by
  simp [putByte]

theorem toList_putField (code : Code) (width n : Nat) :
    (code.putField width n).bytes.toList = code.bytes.toList ++
      (List.replicate (alignUp code.size width - code.size) 0 ++ littleEndian width n) := by
  simp [putField, align]

theorem putByte_begins (code : Code) (byte : UInt8) : Begins code (code.putByte byte) := by
  rw [Begins, toList_putByte]
  exact List.prefix_append _ _

theorem putField_begins (code : Code) (width n : Nat) : Begins code (code.putField width n) := by
  rw [Begins, toList_putField]
  exact List.prefix_append _ _

@[simp] theorem size_putByte (code : Code) (byte : UInt8) :
    (code.putByte byte).size = code.size + 1 := by
  simp [putByte, size]

theorem size_putField (code : Code) {width : Nat} (n : Nat) (pos : 0 < width) :
    (code.putField width n).size = alignUp code.size width + width := by
  have le := le_alignUp code.size pos
  rw [size_eq_length, toList_putField]
  simp only [List.length_append, List.length_replicate, length_littleEndian, ← size_eq_length]
  omega

theorem Begins.byte {code full : Code} {byte : UInt8} (begins : Begins (code.putByte byte) full) :
    full.bytes[code.size]? = some byte := by
  obtain ⟨rest, bytes⟩ := begins
  rw [toList_putByte] at bytes
  rw [← Array.getElem?_toList, ← bytes, size_eq_length]
  simp

theorem Begins.extract {code full : Code} {width n : Nat} (pos : 0 < width)
    (begins : Begins (code.putField width n) full) :
    (full.bytes.extract (alignUp code.size width) (alignUp code.size width + width)).toList =
      littleEndian width n := by
  obtain ⟨rest, bytes⟩ := begins
  have le := le_alignUp code.size pos
  have before : (code.bytes.toList ++
      List.replicate (alignUp code.size width - code.size) 0).length = alignUp code.size width := by
    rw [List.length_append, List.length_replicate, ← size_eq_length]
    omega
  rw [Array.toList_extract, ← bytes, toList_putField, List.extract_eq_take_drop,
    Nat.add_sub_cancel_left, ← List.append_assoc, List.append_assoc,
    List.drop_left' before, List.take_left' (length_littleEndian width n)]

theorem Begins.field {code full : Code} {width n : Nat} (pos : 0 < width)
    (begins : Begins (code.putField width n) full) :
    full.readField? width code.size = some (n % 256 ^ width, (code.putField width n).size) := by
  have read := begins.extract pos
  obtain ⟨rest, bytes⟩ := begins
  have size := size_putField code n pos
  have inside : alignUp code.size width + width ≤ full.size := by
    rw [← size, size_eq_length, size_eq_length, ← bytes, List.length_append]
    omega
  simp only [readField?, inside, if_true, read, ofLittleEndian_littleEndian, size]

theorem put32_begins (code : Code) (n : UInt32) : Begins code (code.put32 n) :=
  putField_begins code 4 n.toNat

theorem put64_begins (code : Code) (n : UInt64) : Begins code (code.put64 n) :=
  putField_begins code 8 n.toNat

theorem Begins.read32 {code full : Code} {n : UInt32} (begins : Begins (code.put32 n) full) :
    full.read32? code.size = some (n, (code.put32 n).size) := by
  have small : n.toNat % 256 ^ 4 = n.toNat := Nat.mod_eq_of_lt n.toNat_lt
  rw [read32?, Begins.field (by decide) begins, small]
  simp [put32]

theorem Begins.read64 {code full : Code} {n : UInt64} (begins : Begins (code.put64 n) full) :
    full.read64? code.size = some (n, (code.put64 n).size) := by
  have small : n.toNat % 256 ^ 8 = n.toNat := Nat.mod_eq_of_lt n.toNat_lt
  rw [read64?, Begins.field (by decide) begins, small]
  simp [put64]

section
variable {code full : Code}

theorem Begins.operand32 {n : UInt32} (begins : Begins (code.put32 n) full)
    (make : UInt32 → Instr) :
    full.operand32 code.size make = some (make n, (code.put32 n).size) := by
  simp [Code.operand32, begins.read32]

theorem Begins.operand64 {n : UInt64} (begins : Begins (code.put64 n) full)
    (make : UInt64 → Instr) :
    full.operand64 code.size make = some (make n, (code.put64 n).size) := by
  simp [Code.operand64, begins.read64]

theorem Begins.operands32 {m n : UInt32} (begins : Begins ((code.put32 m).put32 n) full)
    (make : UInt32 → UInt32 → Instr) :
    full.operands32 code.size make = some (make m n, ((code.put32 m).put32 n).size) := by
  have first := ((put32_begins _ n).trans begins).read32
  simp [Code.operands32, first, begins.operand32]

theorem Begins.operands32And64 {m : UInt32} {n : UInt64}
    (begins : Begins ((code.put32 m).put64 n) full) (make : UInt32 → UInt64 → Instr) :
    full.operands32And64 code.size make = some (make m n, ((code.put32 m).put64 n).size) := by
  have first := ((put64_begins _ n).trans begins).read32
  simp [Code.operands32And64, first, begins.operand64]

theorem emit_begins_opcode (code : Code) (instr : Instr) :
    Begins (code.putByte instr.opcode.toByte) (code.emit instr) := by
  cases instr with
  | null | array | ret | drop => exact List.prefix_rfl
  | int | getLocal | setLocal | getGlobal | setGlobal => exact put32_begins _ _
  | slot | setSlot | branch | goto => exact put64_begins _ _
  | object | frame => exact (put32_begins _ _).trans (put32_begins _ _)
  | printf | callSlot | call => exact (put32_begins _ _).trans (put64_begins _ _)

theorem emit_begins (code : Code) (instr : Instr) : Begins code (code.emit instr) :=
  (putByte_begins _ _).trans (emit_begins_opcode code instr)

theorem size_emit (code : Code) (instr : Instr) :
    (code.emit instr).size = instr.opcode.endOffset code.size := by
  cases instr <;>
    simp [emit, put32, put64, size_putField, Instr.opcode, Opcode.endOffset, Opcode.operands]

theorem Begins.decode {instr : Instr} (begins : Begins (code.emit instr) full) :
    full.decode code.size = .ok (instr, (code.emit instr).size) := by
  have byte := ((emit_begins_opcode code instr).trans begins).byte
  have opcode : full.opcodeAt code.size = .ok instr.opcode := by
    simp [opcodeAt, byte, Opcode.ofByte?_toByte]
  have operands : full.decodeOperands? instr.opcode (code.size + 1) =
      some (instr, (code.emit instr).size) := by
    rw [← size_putByte code instr.opcode.toByte]
    cases instr with
    | null | array | ret | drop => rfl
    | int value =>
      have read := Begins.operand32 begins fun n => .int n.toInt32
      rw [Int32.toInt32_toUInt32] at read
      exact read
    | getLocal index | setLocal index | getGlobal index | setGlobal index =>
      exact Begins.operand32 begins _
    | slot operand | setSlot operand | branch operand | goto operand =>
      exact Begins.operand64 begins _
    | object first second | frame first second => exact Begins.operands32 begins _
    | printf first second | callSlot first second | call first second =>
      exact Begins.operands32And64 begins _
  simp [Code.decode, opcode, operands]

end

theorem foldl_emit_begins (code : Code) (instrs : List Instr) :
    Begins code (instrs.foldl emit code) := by
  induction instrs generalizing code with
  | nil => exact List.prefix_rfl
  | cons instr instrs ih => exact (emit_begins code instr).trans (ih _)

def endOffset (offset : Nat) (instrs : List Instr) : Nat :=
  instrs.foldl (fun pos instr => instr.opcode.endOffset pos) offset

theorem size_foldl_emit (code : Code) (instrs : List Instr) :
    (instrs.foldl emit code).size = endOffset code.size instrs := by
  induction instrs generalizing code with
  | nil => rfl
  | cons instr instrs ih =>
    rw [List.foldl_cons, ih, size_emit]
    rfl

theorem decode_foldl_emit (before after : List Instr) (instr : Instr) :
    ((before ++ instr :: after).foldl emit empty).decode (endOffset 0 before) =
      .ok (instr, endOffset 0 (before ++ [instr])) := by
  have begins := foldl_emit_begins ((before.foldl emit empty).emit instr) after
  have read := Begins.decode begins
  rw [size_emit, size_foldl_emit] at read
  have last : endOffset 0 (before ++ [instr]) = instr.opcode.endOffset (endOffset 0 before) := by
    simp [endOffset]
  rw [List.foldl_append, List.foldl_cons, last]
  exact read

/-- Decoding from one offset to another gives a run of instructions. -/
inductive Reads (code : Code) : Nat → List Instr → Nat → Prop
  | done (ip : Nat) : Reads code ip [] ip
  | next {ip after stop : Nat} {instr : Instr} {instrs : List Instr}
      (first : code.decode ip = .ok (instr, after)) (rest : Reads code after instrs stop) :
      Reads code ip (instr :: instrs) stop

theorem reads_foldl_emit (before instrs : List Instr) :
    ((before ++ instrs).foldl emit empty).Reads (endOffset 0 before) instrs
      ((before ++ instrs).foldl emit empty).size := by
  induction instrs generalizing before with
  | nil =>
    rw [size_foldl_emit, List.append_nil]
    exact .done _
  | cons instr instrs ih =>
    have rest := ih (before ++ [instr])
    rw [List.append_assoc, List.singleton_append] at rest
    exact .next (decode_foldl_emit before instrs instr) rest

end Code
end SlotVM
