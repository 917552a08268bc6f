import SlotVM.Json.Malformed
import SlotVM.Text.Number

namespace SlotVM.Json

abbrev Reader (α : Type) := List Char → Except Malformed (α × List Char)

end SlotVM.Json

namespace SlotVM.Json.Reader

def isBlank (c : Char) : Bool := c = ' ' || c = '\n' || c = '\t' || c = '\r'

def skipBlanks (cs : List Char) : List Char := cs.dropWhile isBlank

def isDigit (c : Char) : Bool := '0' ≤ c && c ≤ '9'

def expect : List Char → List Char → Except Malformed (List Char)
  | [], cs => .ok cs
  | _ :: _, [] => .error .ended
  | w :: ws, c :: cs => if w = c then expect ws cs else .error .grammar

def hex4? (a b c d : Char) : Option Nat := Text.hexadecimal? [a, b, c, d]

def isHighSurrogate (n : Nat) : Bool := 0xD800 ≤ n && n < 0xDC00

def isLowSurrogate (n : Nat) : Bool := 0xDC00 ≤ n && n < 0xE000

def ofSurrogates (high low : Nat) : Char :=
  Char.ofNat (0x10000 + (high - 0xD800) * 0x400 + (low - 0xDC00))

def unescape? : Char → Option Char
  | '"' => some '"'
  | '\\' => some '\\'
  | '/' => some '/'
  | 'b' => some '\x08'
  | 'f' => some '\x0c'
  | 'n' => some '\n'
  | 'r' => some '\r'
  | 't' => some '\t'
  | _ => none

/-- Fewer than four characters are left where four digits should be. Room is counted in bytes, so
characters of several bytes can fill it. -/
def noHex4 (cs : List Char) : Malformed :=
  if (String.ofList cs).utf8ByteSize < 4 then .ended else .grammar

def lowSurrogate : Reader Nat
  | [] => .error .ended
  | c :: cs =>
    if c ≠ '\\' then .error .grammar
    else match cs with
      | [] => .error .ended
      | u :: cs =>
        if u ≠ 'u' then .error .grammar
        else match cs with
          | a :: b :: c :: d :: rest =>
            match hex4? a b c d with
            | none => .error .grammar
            | some n => if isLowSurrogate n then .ok (n, rest) else .error .grammar
          | cs => .error (noHex4 cs)

def unicodeEscape (lenient : Bool) : Reader Char
  | a :: b :: c :: d :: rest =>
    match hex4? a b c d with
    | none => .error .grammar
    | some n =>
      if lenient then .ok (Char.ofNat n, rest)
      else if isHighSurrogate n then
        match lowSurrogate rest with
        | .ok (low, rest) => .ok (ofSurrogates n low, rest)
        | .error e => .error e
      else if isLowSurrogate n then .error .grammar
      else .ok (Char.ofNat n, rest)
  | cs => .error (noHex4 cs)

def stringFrom (lenient : Bool) : Nat → List Char → Reader String
  | 0, _, _ => .error .ended
  | _ + 1, _, [] => .error .ended
  | fuel + 1, seen, c :: cs =>
    if c = '"' then .ok (String.ofList seen.reverse, cs)
    else if c = '\\' then
      match cs with
      | [] => .error .ended
      | e :: rest =>
        if e = 'u' then
          match unicodeEscape lenient rest with
          | .ok (u, rest) => stringFrom lenient fuel (u :: seen) rest
          | .error e => .error e
        else match unescape? e with
          | some u => stringFrom lenient fuel (u :: seen) rest
          | none => .error .grammar
    else if c.toNat < 32 then .error .grammar
    else stringFrom lenient fuel (c :: seen) cs

def string (size : Nat) (lenient : Bool) : Reader String := stringFrom lenient size []

end SlotVM.Json.Reader
