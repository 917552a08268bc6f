import SlotVM.Json.Basic

namespace SlotVM.Json

structure Style where
  newline : Nat → List Char
  colon : List Char

def Style.pretty : Style := ⟨fun depth => '\n' :: List.replicate (2 * depth) ' ', [':', ' ']⟩

def Style.compact : Style := ⟨fun _ => [], [':']⟩

def hexEscape (c : Char) : List Char :=
  ['\\', 'u', '0', '0', Nat.digitChar (c.toNat / 16), Nat.digitChar (c.toNat % 16)]

def escape (c : Char) : List Char :=
  if c = '"' then ['\\', '"']
  else if c = '\\' then ['\\', '\\']
  else if c = '\n' then ['\\', 'n']
  else if c = '\r' then ['\\', 'r']
  else if c = '\t' then ['\\', 't']
  else if c = '\x08' then ['\\', 'b']
  else if c = '\x0c' then ['\\', 'f']
  else if c.toNat < 32 then hexEscape c
  else [c]

def quote (s : String) : List Char := '"' :: (s.toList.flatMap escape ++ ['"'])

def numberChars : Number → List Char
  | .int n => (toString n).toList
  | .real text => text.toList

mutual

def chars (style : Style) (depth : Nat) : Json → List Char
  | .null => ['n', 'u', 'l', 'l']
  | .bool true => ['t', 'r', 'u', 'e']
  | .bool false => ['f', 'a', 'l', 's', 'e']
  | .number n => numberChars n
  | .string s => quote s
  | .array [] => ['[', ']']
  | .array (item :: items) =>
    '[' :: (style.newline (depth + 1) ++ chars style (depth + 1) item ++
      itemsChars style (depth + 1) items ++ style.newline depth ++ [']'])
  | .object [] => ['\x7b', '\x7d']
  | .object ((name, value) :: members) =>
    '\x7b' :: (style.newline (depth + 1) ++ quote name ++ style.colon ++
      chars style (depth + 1) value ++ membersChars style (depth + 1) members ++
      style.newline depth ++ ['\x7d'])

def itemsChars (style : Style) (depth : Nat) : List Json → List Char
  | [] => []
  | item :: items =>
    ',' :: (style.newline depth ++ chars style depth item ++ itemsChars style depth items)

def membersChars (style : Style) (depth : Nat) : List (String × Json) → List Char
  | [] => []
  | (name, value) :: members =>
    ',' :: (style.newline depth ++ quote name ++ style.colon ++ chars style depth value ++
      membersChars style depth members)

end

def pretty (j : Json) : String := String.ofList (chars .pretty 0 j)

def compact (j : Json) : String := String.ofList (chars .compact 0 j)

end SlotVM.Json
