import SlotVM.Json.Printer
import SlotVM.Program.Basic

namespace SlotVM

def Json.ofIndex (n : UInt64) : Json := .ofNat n.toNat

def Json.ofCount (n : UInt32) : Json := .ofNat n.toNat

namespace Ins

def tag : Ins → String
  | .label _ => "label"
  | .lit _ => "lit"
  | .printf _ _ => "printf"
  | .array => "array"
  | .object _ => "object"
  | .slot _ => "slot"
  | .setSlot _ => "set_slot"
  | .callSlot _ _ => "call_slot"
  | .call _ _ => "call"
  | .setLocal _ => "set_local"
  | .getLocal _ => "get_local"
  | .setGlobal _ => "set_global"
  | .getGlobal _ => "get_global"
  | .branch _ => "branch"
  | .goto _ => "goto"
  | .ret => "return"
  | .drop => "drop"

def fields : Ins → List (String × Json)
  | .label name | .slot name | .setSlot name | .setGlobal name | .getGlobal name
  | .branch name | .goto name => [("name", .ofIndex name)]
  | .lit idx => [("idx", .ofIndex idx)]
  | .printf format arity => [("format", .ofIndex format), ("arity", .ofCount arity)]
  | .object index => [("class", .ofIndex index)]
  | .callSlot name arity | .call name arity =>
    [("name", .ofIndex name), ("arity", .ofCount arity)]
  | .setLocal idx | .getLocal idx => [("idx", .ofCount idx)]
  | .array | .ret | .drop => []

def toJson (i : Ins) : Json := .object (("op", .string i.tag) :: i.fields)

end Ins

namespace Constant

def tag : Constant → String
  | .int _ => "int"
  | .null => "null"
  | .str _ => "str"
  | .method _ => "method"
  | .slot _ => "slot"
  | .classDef _ => "class"

def fields : Constant → List (String × Json)
  | .int value => [("value", .ofInt value.toInt)]
  | .null => []
  | .str value => [("value", .string value)]
  | .method m =>
    [("name", .ofIndex m.name), ("nargs", .ofCount m.nargs), ("nlocals", .ofCount m.nlocals),
      ("code", .array (m.code.map Ins.toJson))]
  | .slot name => [("name", .ofIndex name)]
  | .classDef slots => [("slots", .array (slots.map Json.ofIndex))]

def toJson (c : Constant) : Json := .object (("tag", .string c.tag) :: c.fields)

end Constant

namespace Program

def toJson (p : Program) : Json :=
  .object [("values", .array (p.values.toList.map Constant.toJson)),
    ("slots", .array (p.slots.map Json.ofIndex)), ("entry", .ofIndex p.entry)]

def render (p : Program) : String := p.toJson.pretty

end Program
end SlotVM
