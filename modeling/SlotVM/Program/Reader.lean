import SlotVM.Json.Reader
import SlotVM.Program.Record

namespace SlotVM

open Json.Reader Record

/-- What a failed peek at a value reports: a scalar must at least be well formed. -/
def wrongType (size : Nat) (cs : List Char) : Malformed :=
  match cs with
  | '[' :: _ | '\x7b' :: _ => .content .mismatch
  | _ =>
    match value size false 0 cs with
    | .error e => e
    | .ok _ => .content .mismatch

def constantLevels : Nat := maxLevels - 3

namespace Constant

def readTag (size : Nat) : Json.Reader String := fun cs =>
  match skipBlanks cs with
  | [] => .error .ended
  | '"' :: rest => do
    let (name, rest) ← string size false rest
    return (← variant tags name, rest)
  | rest => .error (wrongType size rest)

/-- The tag, once read, and the other members in reverse. -/
abbrev Partial := Option String × List (String × Json)

def readMember (size : Nat) (found : Partial) (name : String) : Json.Reader Partial := fun cs =>
  if name = "tag" then
    if found.1.isSome then .error (.content (.duplicateField "tag"))
    else do
      let (name, rest) ← readTag size (← colon cs)
      return ((some name, found.2), rest)
  else do
    let (j, rest) ← value size false constantLevels (← colon cs)
    return ((found.1, (name, j) :: found.2), rest)

def read (size : Nat) : Json.Reader Constant := fun cs =>
  match skipBlanks cs with
  | [] => .error .ended
  | '[' :: rest =>
    match skipBlanks rest with
    | [] => .error .ended
    | ']' :: _ => .error (.content (.missingField "tag"))
    | rest => do
      let (name, rest) ← readTag size rest
      let (items, rest) ← itemsAfter (value size false constantLevels) size rest
      return (← ofBody name (.array items), rest)
  | '\x7b' :: rest => do
    let (found, rest) ← members size false (readMember size) (none, []) rest
    match found with
    | (none, _) => .error (.content (.missingField "tag"))
    | (some name, fields) => return (← ofBody name (.object fields.reverse), rest)
  | rest => .error (wrongType size rest)

end Constant

namespace Program

def readList {α : Type} (size : Nat) (item : Json.Reader α) : Json.Reader (List α) := fun cs =>
  match skipBlanks cs with
  | [] => .error .ended
  | '[' :: rest => items size item rest
  | rest => .error (wrongType size rest)

def readIndex (size : Nat) : Json.Reader UInt64 := fun cs =>
  match skipBlanks cs with
  | [] => .error .ended
  | c :: rest =>
    if c = '-' || isDigit c then do
      let (n, rest) ← number false (c :: rest)
      return (← index (.number n), rest)
    else .error (wrongType size (c :: rest))

structure Partial where
  values : Option (List Constant)
  slots : Option (List UInt64)
  entry : Option UInt64

def duplicate {α : Type} (name : String) : Except Malformed α :=
  .error (.content (.duplicateField name))

def readMember (size : Nat) (found : Partial) (name : String) : Json.Reader Partial := fun cs =>
  match name with
  | "values" =>
    if found.values.isSome then duplicate name
    else do
      let (values, rest) ← readList size (Constant.read size) (← colon cs)
      return ({ found with values := some values }, rest)
  | "slots" =>
    if found.slots.isSome then duplicate name
    else do
      let (slots, rest) ← readList size (readIndex size) (← colon cs)
      return ({ found with slots := some slots }, rest)
  | "entry" =>
    if found.entry.isSome then duplicate name
    else do
      let (entry, rest) ← readIndex size (← colon cs)
      return ({ found with entry := some entry }, rest)
  | _ => do return (found, ← skip size (← colon cs))

def required {α : Type} (name : String) : Option α → Except Malformed α
  | some a => .ok a
  | none => .error (.content (.missingField name))

def Partial.complete (found : Partial) : Except Malformed Program := do
  let values ← required "values" found.values
  let slots ← required "slots" found.slots
  let entry ← required "entry" found.entry
  return ⟨values.toArray, slots, entry⟩

def nextField (cs : List Char) : Except Malformed (List Char) :=
  match skipBlanks cs with
  | [] => .error .ended
  | ']' :: _ => mismatch
  | ',' :: rest =>
    match skipBlanks rest with
    | [] => .error .ended
    | ']' :: _ => .error .grammar
    | rest => .ok rest
  | _ => .error .grammar

def readFields (size : Nat) : Json.Reader Program := fun cs =>
  match skipBlanks cs with
  | [] => .error .ended
  | ']' :: _ => mismatch
  | cs => do
    let (values, rest) ← readList size (Constant.read size) cs
    let (slots, rest) ← readList size (readIndex size) (← nextField rest)
    let (entry, rest) ← readIndex size (← nextField rest)
    match skipBlanks rest with
    | [] => .error .ended
    | ']' :: rest => return (⟨values.toArray, slots, entry⟩, rest)
    | _ => .error .grammar

def read (size : Nat) : Json.Reader Program := fun cs =>
  match skipBlanks cs with
  | [] => .error .ended
  | '[' :: rest => readFields size rest
  | '\x7b' :: rest => do
    let (found, rest) ← members size false (readMember size) ⟨none, none, none⟩ rest
    return (← found.complete, rest)
  | rest => .error (wrongType size rest)

def parse (s : String) : Except Malformed Program := whole read s

end Program
end SlotVM
