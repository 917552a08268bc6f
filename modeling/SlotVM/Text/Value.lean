import SlotVM.Value
import SlotVM.Text.Number

namespace SlotVM.Value

def text (v : Value) : String :=
  match v.kind? with
  | some .int => "Int(" ++ toString (v.raw.toInt64.toInt / 8) ++ ")"
  | some .object => "Ref(" ++ Text.hex (v.raw.toNat - 1) 1 ++ ")"
  | _ => if v.isNull then "Null" else "Raw(" ++ Text.hex v.raw.toNat 1 ++ ")"

def enclosed? (name s : String) : Option (List Char) :=
  let mark := name.toList ++ ['(']
  let cs := s.toList
  if mark.isPrefixOf cs ∧ cs.getLast? = some ')' then some (cs.drop mark.length).dropLast else none

/-- Reads the written form back. `Default` is another spelling of null. -/
def ofText? (s : String) : Option Value :=
  if s = "Null" ∨ s = "Default" then some null
  else if let some cs := enclosed? "Int" s then (Text.intLiteral? cs).map ofInt
  else if let some cs := enclosed? "Ref" s then (Text.hexLiteral? cs).map ofAddr
  else if let some cs := enclosed? "Raw" s then (Text.hexLiteral? cs).map (fun n => ⟨n.toUInt64⟩)
  else none

end SlotVM.Value
