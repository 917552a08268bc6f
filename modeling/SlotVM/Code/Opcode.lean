namespace SlotVM

inductive Opcode where
  | int
  | null
  | printf
  | array
  | object
  | slot
  | setSlot
  | callSlot
  | call
  | frame
  | ret
  | getLocal
  | setLocal
  | getGlobal
  | setGlobal
  | branch
  | goto
  | drop
deriving DecidableEq

namespace Opcode

def all : Array Opcode :=
  #[.int, .null, .printf, .array, .object, .slot, .setSlot, .callSlot, .call, .frame, .ret,
    .getLocal, .setLocal, .getGlobal, .setGlobal, .branch, .goto, .drop]

def ofByte? (byte : UInt8) : Option Opcode := all[byte.toNat]?

def toByte : Opcode → UInt8
  | .int => 0
  | .null => 1
  | .printf => 2
  | .array => 3
  | .object => 4
  | .slot => 5
  | .setSlot => 6
  | .callSlot => 7
  | .call => 8
  | .frame => 9
  | .ret => 10
  | .getLocal => 11
  | .setLocal => 12
  | .getGlobal => 13
  | .setGlobal => 14
  | .branch => 15
  | .goto => 16
  | .drop => 17

theorem ofByte?_toByte (op : Opcode) : ofByte? op.toByte = some op := by
  cases op <;> rfl

def mnemonic : Opcode → String
  | .int => "INT"
  | .null => "NULL"
  | .printf => "PRINTF"
  | .array => "ARRAY"
  | .object => "OBJECT"
  | .slot => "SLOT"
  | .setSlot => "SET_SLOT"
  | .callSlot => "CALL_SLOT"
  | .call => "CALL"
  | .frame => "FRAME"
  | .ret => "RETURN"
  | .getLocal => "GET_LOCAL"
  | .setLocal => "SET_LOCAL"
  | .getGlobal => "GET_GLOBAL"
  | .setGlobal => "SET_GLOBAL"
  | .branch => "BRANCH"
  | .goto => "GOTO"
  | .drop => "DROP"

end Opcode
end SlotVM
