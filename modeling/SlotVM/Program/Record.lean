import SlotVM.Json.Basic
import SlotVM.Json.Malformed
import SlotVM.Program.Basic

namespace SlotVM

def mismatch {α : Type} : Except Malformed α := .error (.content .mismatch)

namespace Record

def integer (type : String) (low high : Int) : Json → Except Malformed Int
  | .number (.int n) =>
    if low ≤ n ∧ n ≤ high then .ok n else .error (.content (.integerRange n type))
  | _ => mismatch

def index (j : Json) : Except Malformed UInt64 := do
  return UInt64.ofInt (← integer "usize" 0 0xFFFFFFFFFFFFFFFF j)

def count (j : Json) : Except Malformed UInt32 := do
  return UInt32.ofInt (← integer "u32" 0 0xFFFFFFFF j)

def literal (j : Json) : Except Malformed Int32 := do
  return Int32.ofInt (← integer "i32" (-0x80000000) 0x7FFFFFFF j)

def text : Json → Except Malformed String
  | .string s => .ok s
  | _ => mismatch

def list {α : Type} (item : Json → Except Malformed α) : Json → Except Malformed (List α)
  | .array items => items.mapM item
  | _ => mismatch

abbrev Fields (α : Type) := List (String × (Json → Except Malformed α))

/-- Looks at the members in order: a known name is read once, any other is passed over. -/
def collect {α : Type} (fields : Fields α) :
    List (String × α) → List (String × Json) → Except Malformed (List (String × α))
  | seen, [] => .ok seen
  | seen, (name, j) :: members =>
    match fields.lookup name with
    | none => collect fields seen members
    | some field =>
      if (seen.lookup name).isSome then .error (.content (.duplicateField name))
      else do
        let a ← field j
        collect fields ((name, a) :: seen) members

def arrange {α : Type} (seen : List (String × α)) : List String → Except Malformed (List α)
  | [] => .ok []
  | name :: names =>
    match seen.lookup name with
    | none => .error (.content (.missingField name))
    | some a => do return a :: (← arrange seen names)

def zip {α : Type} : Fields α → List Json → Except Malformed (List α)
  | [], [] => .ok []
  | (_, field) :: fields, j :: items => do
    let a ← field j
    return a :: (← zip fields items)
  | _, _ => mismatch

def read {α : Type} (fields : Fields α) : Json → Except Malformed (List α)
  | .object members => do arrange (← collect fields [] members) (fields.map (·.1))
  | .array items => zip fields items
  | _ => mismatch

def variant (known : List String) (name : String) : Except Malformed String :=
  if name ∈ known then .ok name else .error (.content (.unknownVariant name known))

def tag (known : List String) : Json → Except Malformed String
  | .string name => variant known name
  | .number (.int n) =>
    if n < 0 then mismatch
    else match known[n.toNat]? with
      | some name => .ok name
      | none => .error (.content (.integerRange n
          ("variant index 0 <= i < " ++ toString known.length)))
  | _ => mismatch

def splitMembers (key : String) (known : List String) :
    Option String → List (String × Json) → List (String × Json) →
      Except Malformed (String × Json)
  | none, _, [] => .error (.content (.missingField key))
  | some name, rest, [] => .ok (name, .object rest.reverse)
  | found, rest, (name, j) :: members =>
    if name = key then
      if found.isSome then .error (.content (.duplicateField key))
      else do splitMembers key known (some (← tag known j)) rest members
    else splitMembers key known found ((name, j) :: rest) members

/-- A variant's name and its fields: the tag is the member `key` or the first item. -/
def tagged (key : String) (known : List String) : Json → Except Malformed (String × Json)
  | .object members => splitMembers key known none [] members
  | .array [] => .error (.content (.missingField key))
  | .array (j :: items) => do return (← tag known j, .array items)
  | _ => mismatch

end Record

open Record

namespace Ins

inductive Operand where
  | index (n : UInt64)
  | count (n : UInt32)

def tags : List String :=
  ["label", "lit", "printf", "array", "object", "slot", "set_slot", "call_slot", "call",
    "set_local", "get_local", "set_global", "get_global", "branch", "goto", "return", "drop"]

def indexField (name : String) : String × (Json → Except Malformed Operand) :=
  (name, fun j => do return .index (← index j))

def countField (name : String) : String × (Json → Except Malformed Operand) :=
  (name, fun j => do return .count (← count j))

def operands : String → Fields Operand
  | "label" | "slot" | "set_slot" | "set_global" | "get_global" | "branch" | "goto" =>
    [indexField "name"]
  | "lit" => [indexField "idx"]
  | "printf" => [indexField "format", countField "arity"]
  | "object" => [indexField "class"]
  | "call_slot" | "call" => [indexField "name", countField "arity"]
  | "set_local" | "get_local" => [countField "idx"]
  | _ => []

def ofOperands? : String → List Operand → Option Ins
  | "label", [.index name] => some (.label name)
  | "lit", [.index idx] => some (.lit idx)
  | "printf", [.index format, .count arity] => some (.printf format arity)
  | "array", [] => some .array
  | "object", [.index n] => some (.object n)
  | "slot", [.index name] => some (.slot name)
  | "set_slot", [.index name] => some (.setSlot name)
  | "call_slot", [.index name, .count arity] => some (.callSlot name arity)
  | "call", [.index name, .count arity] => some (.call name arity)
  | "set_local", [.count idx] => some (.setLocal idx)
  | "get_local", [.count idx] => some (.getLocal idx)
  | "set_global", [.index name] => some (.setGlobal name)
  | "get_global", [.index name] => some (.getGlobal name)
  | "branch", [.index name] => some (.branch name)
  | "goto", [.index name] => some (.goto name)
  | "return", [] => some .ret
  | "drop", [] => some .drop
  | _, _ => none

def ofJson (j : Json) : Except Malformed Ins := do
  let (name, body) ← tagged "op" tags j
  match ofOperands? name (← Record.read (operands name) body) with
  | some i => .ok i
  | none => mismatch

end Ins

namespace Constant

inductive Field where
  | literal (n : Int32)
  | text (s : String)
  | index (n : UInt64)
  | count (n : UInt32)
  | indices (ns : List UInt64)
  | code (body : List Ins)

def tags : List String := ["int", "null", "str", "method", "slot", "class"]

def fieldsOf : String → Fields Field
  | "int" => [("value", fun j => do return .literal (← literal j))]
  | "str" => [("value", fun j => do return .text (← Record.text j))]
  | "method" =>
    [("name", fun j => do return .index (← index j)),
      ("nargs", fun j => do return .count (← count j)),
      ("nlocals", fun j => do return .count (← count j)),
      ("code", fun j => do return .code (← list Ins.ofJson j))]
  | "slot" => [("name", fun j => do return .index (← index j))]
  | "class" => [("slots", fun j => do return .indices (← list index j))]
  | _ => []

def ofFields? : String → List Field → Option Constant
  | "int", [.literal n] => some (.int n)
  | "null", [] => some .null
  | "str", [.text s] => some (.str s)
  | "method", [.index name, .count nargs, .count nlocals, .code body] =>
    some (.method ⟨name, nargs, nlocals, body⟩)
  | "slot", [.index name] => some (.slot name)
  | "class", [.indices slots] => some (.classDef slots)
  | _, _ => none

def ofBody (name : String) (body : Json) : Except Malformed Constant := do
  match ofFields? name (← Record.read (fieldsOf name) body) with
  | some c => .ok c
  | none => mismatch

end Constant
end SlotVM
