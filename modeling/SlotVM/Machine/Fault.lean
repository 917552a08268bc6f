import SlotVM.Crash
import SlotVM.Json.Malformed
import SlotVM.Text.Number

namespace SlotVM

inductive TypeName where
  | int
  | null
  | object
  | array
deriving DecidableEq

def TypeName.text : TypeName → String
  | .int => "int"
  | .null => "null"
  | .object => "object"
  | .array => "array"

inductive Usage where
  | printf
  | arrayLength
  | slotLookup
  | integerOperand
  | arrayIndex
deriving DecidableEq

def Usage.context : Usage → String
  | .printf => "printf"
  | .arrayLength => "array length"
  | .slotLookup => "slot lookup"
  | .integerOperand => "integer built-in"
  | .arrayIndex => "array index"

def Usage.expected : Usage → String
  | .arrayLength => "non-negative int"
  | .slotLookup => "object"
  | _ => "int"

inductive RuntimeError where
  | nullReceiver (name : String)
  | unknownBuiltin (name : String) (receiver : TypeName)
  | builtinArity (name : String) (expected got : Nat)
  | slotNotFound (name : String)
  | notAMethod (name : String)
  | notAVariable (name : String)
  | typeMismatch (usage : Usage) (got : TypeName)
  | divisionByZero
  | indexOutOfBounds (index : Int) (length : Nat)
  | formatArity (given : Nat)
  | outOfMemory (requested : Nat)
  | badOpcode (byte : UInt8) (offset : Nat)
  | codeOverrun (offset : Nat)
  | stackUnderflow
  | output (cause : String)
deriving DecidableEq

def RuntimeError.cause : RuntimeError → String
  | .nullReceiver name => "cannot use slot " ++ accented name ++ " of null"
  | .unknownBuiltin name receiver => "no built-in " ++ accented name ++ " for " ++ receiver.text
  | .builtinArity name expected got =>
    "built-in " ++ accented name ++ " takes " ++ toString expected ++ " arguments, got " ++
      toString got
  | .slotNotFound name => "no slot named " ++ accented name
  | .notAMethod name => "slot " ++ accented name ++ " is not a method"
  | .notAVariable name => "slot " ++ accented name ++ " is a method, not a variable"
  | .typeMismatch usage got =>
    usage.context ++ ": expected " ++ usage.expected ++ ", got " ++ got.text
  | .divisionByZero => "division by zero"
  | .indexOutOfBounds index length =>
    "index " ++ toString index ++ " out of bounds for array of length " ++ toString length
  | .formatArity given =>
    "format string needs more than " ++ toString given ++ " arguments"
  | .outOfMemory requested =>
    "out of memory (requested " ++ toString requested ++ " bytes)"
  | .badOpcode byte offset =>
    "bad opcode " ++ Text.hex byte.toNat 2 ++ " at offset " ++ toString offset
  | .codeOverrun offset =>
    "execution ran past the end of code at offset " ++ toString offset
  | .stackUnderflow => "operand stack underflow"
  | .output cause => "output failed: " ++ cause

def RuntimeError.message (e : RuntimeError) : String := "runtime error: " ++ e.cause

inductive Fault where
  | error (e : RuntimeError)
  | crash (c : Crash)
deriving DecidableEq

def orCrash {α : Type} : Except Crash α → Except Fault α
  | .ok a => .ok a
  | .error c => .error (.crash c)

end SlotVM
