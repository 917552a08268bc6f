import SlotVM.Code.Buffer
import SlotVM.Code.Opcode

namespace SlotVM

inductive Instr where
  | int (value : Int32)
  | null
  | printf (arity : UInt32) (format : UInt64)
  | array
  | object (nvars index : UInt32)
  | slot (name : UInt64)
  | setSlot (name : UInt64)
  | callSlot (arity : UInt32) (name : UInt64)
  | call (arity : UInt32) (target : UInt64)
  | frame (nargs nlocals : UInt32)
  | ret
  | getLocal (index : UInt32)
  | setLocal (index : UInt32)
  | getGlobal (index : UInt32)
  | setGlobal (index : UInt32)
  | branch (target : UInt64)
  | goto (target : UInt64)
  | drop
deriving DecidableEq

def Instr.opcode : Instr → Opcode
  | .int _ => .int
  | .null => .null
  | .printf _ _ => .printf
  | .array => .array
  | .object _ _ => .object
  | .slot _ => .slot
  | .setSlot _ => .setSlot
  | .callSlot _ _ => .callSlot
  | .call _ _ => .call
  | .frame _ _ => .frame
  | .ret => .ret
  | .getLocal _ => .getLocal
  | .setLocal _ => .setLocal
  | .getGlobal _ => .getGlobal
  | .setGlobal _ => .setGlobal
  | .branch _ => .branch
  | .goto _ => .goto
  | .drop => .drop

def Opcode.operands : Opcode → List Nat
  | .null | .array | .ret | .drop => []
  | .int | .getLocal | .setLocal | .getGlobal | .setGlobal => [4]
  | .slot | .setSlot | .branch | .goto => [8]
  | .object | .frame => [4, 4]
  | .printf | .callSlot | .call => [4, 8]

/-- Where an instruction that starts at `offset` ends: each operand stands at its own alignment. -/
def Opcode.endOffset (op : Opcode) (offset : Nat) : Nat :=
  op.operands.foldl (fun pos width => alignUp pos width + width) (offset + 1)

inductive DecodeError where
  | overrun
  | badOpcode (byte : UInt8)
deriving DecidableEq

namespace Code

def emit (code : Code) (instr : Instr) : Code :=
  let code := code.putByte instr.opcode.toByte
  match instr with
  | .null | .array | .ret | .drop => code
  | .int value => code.put32 value.toUInt32
  | .printf arity format => (code.put32 arity).put64 format
  | .object nvars index => (code.put32 nvars).put32 index
  | .slot name | .setSlot name => code.put64 name
  | .callSlot arity name => (code.put32 arity).put64 name
  | .call arity target => (code.put32 arity).put64 target
  | .frame nargs nlocals => (code.put32 nargs).put32 nlocals
  | .getLocal index | .setLocal index | .getGlobal index | .setGlobal index => code.put32 index
  | .branch target | .goto target => code.put64 target

def operand32 (code : Code) (ip : Nat) (make : UInt32 → Instr) : Option (Instr × Nat) := do
  let (n, next) ← code.read32? ip
  return (make n, next)

def operand64 (code : Code) (ip : Nat) (make : UInt64 → Instr) : Option (Instr × Nat) := do
  let (n, next) ← code.read64? ip
  return (make n, next)

def operands32 (code : Code) (ip : Nat) (make : UInt32 → UInt32 → Instr) :
    Option (Instr × Nat) := do
  let (m, next) ← code.read32? ip
  code.operand32 next (make m)

def operands32And64 (code : Code) (ip : Nat) (make : UInt32 → UInt64 → Instr) :
    Option (Instr × Nat) := do
  let (m, next) ← code.read32? ip
  code.operand64 next (make m)

def decodeOperands? (code : Code) (op : Opcode) (ip : Nat) : Option (Instr × Nat) :=
  match op with
  | .int => code.operand32 ip (fun n => .int n.toInt32)
  | .null => some (.null, ip)
  | .printf => code.operands32And64 ip .printf
  | .array => some (.array, ip)
  | .object => code.operands32 ip .object
  | .slot => code.operand64 ip .slot
  | .setSlot => code.operand64 ip .setSlot
  | .callSlot => code.operands32And64 ip .callSlot
  | .call => code.operands32And64 ip .call
  | .frame => code.operands32 ip .frame
  | .ret => some (.ret, ip)
  | .getLocal => code.operand32 ip .getLocal
  | .setLocal => code.operand32 ip .setLocal
  | .getGlobal => code.operand32 ip .getGlobal
  | .setGlobal => code.operand32 ip .setGlobal
  | .branch => code.operand64 ip .branch
  | .goto => code.operand64 ip .goto
  | .drop => some (.drop, ip)

def opcodeAt (code : Code) (ip : Nat) : Except DecodeError Opcode :=
  match code.bytes[ip]? with
  | none => .error .overrun
  | some byte =>
    match Opcode.ofByte? byte with
    | none => .error (.badOpcode byte)
    | some op => .ok op

def decode (code : Code) (ip : Nat) : Except DecodeError (Instr × Nat) :=
  match code.opcodeAt ip with
  | .error e => .error e
  | .ok op =>
    match code.decodeOperands? op (ip + 1) with
    | none => .error .overrun
    | some found => .ok found

end Code
end SlotVM
