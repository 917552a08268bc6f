import SlotVM.Config.Basic
import SlotVM.Text.Number

namespace SlotVM.Config

inductive Setting where
  | int (n : Int)
  | bool (b : Bool)

def isBlank (c : Char) : Bool := c = ' ' || c = '\t'

def isPrintable (c : Char) : Bool := c = '\t' || (32 ≤ c.toNat && c.toNat ≠ 127)

def isTail (cs : List Char) : Bool :=
  match cs.dropWhile isBlank with
  | [] => true
  | '#' :: cs => cs.all isPrintable
  | _ => false

/-- The lines of a document; a carriage return belongs to the line break after it. -/
def lines : List Char → List Char → List (List Char)
  | line, [] => [line.reverse]
  | line, '\r' :: '\n' :: cs => line.reverse :: lines [] cs
  | line, '\n' :: cs => line.reverse :: lines [] cs
  | line, c :: cs => lines (c :: line) cs

def isKeyChar (c : Char) : Bool :=
  ('a' ≤ c && c ≤ 'z') || ('A' ≤ c && c ≤ 'Z') || ('0' ≤ c && c ≤ '9') || c = '_' || c = '-'

def scalar? (n : Nat) : Option Char := if n.isValidChar then some (Char.ofNat n) else none

def unescape? : Char → Option Char
  | 'b' => some '\x08'
  | 't' => some '\t'
  | 'n' => some '\n'
  | 'f' => some '\x0c'
  | 'r' => some '\r'
  | '"' => some '"'
  | '\\' => some '\\'
  | _ => none

def basicKey? : List Char → List Char → Option (List Char × List Char)
  | _, [] => none
  | seen, '"' :: cs => some (seen.reverse, cs)
  | seen, '\\' :: 'u' :: a :: b :: c :: d :: cs => do
    let u ← scalar? (← Text.hexadecimal? [a, b, c, d])
    basicKey? (u :: seen) cs
  | seen, '\\' :: 'U' :: a :: b :: c :: d :: e :: f :: g :: h :: cs => do
    let u ← scalar? (← Text.hexadecimal? [a, b, c, d, e, f, g, h])
    basicKey? (u :: seen) cs
  | seen, '\\' :: c :: cs => do basicKey? ((← unescape? c) :: seen) cs
  | seen, c :: cs => if isPrintable c && c ≠ '\\' then basicKey? (c :: seen) cs else none

def literalKey? (cs : List Char) : Option (List Char × List Char) :=
  match cs.dropWhile (fun c => isPrintable c && c ≠ '\'') with
  | '\'' :: rest => some (cs.takeWhile (fun c => isPrintable c && c ≠ '\''), rest)
  | _ => none

def bareKey? (cs : List Char) : Option (List Char × List Char) :=
  if (cs.takeWhile isKeyChar).isEmpty then none
  else some (cs.takeWhile isKeyChar, cs.dropWhile isKeyChar)

def key? : List Char → Option (List Char × List Char)
  | '"' :: cs => basicKey? [] cs
  | '\'' :: cs => literalKey? cs
  | cs => bareKey? cs

/-- The digits of a number without the underscores, each of which stands between two digits. -/
def joined? : List Char → Option (List Char)
  | [] => none
  | ['_'] => none
  | [c] => some [c]
  | c :: '_' :: cs => if c = '_' then none else (joined? cs).map (c :: ·)
  | c :: cs => if c = '_' then none else (joined? cs).map (c :: ·)

def digitOf? (base : Nat) (c : Char) : Option Nat := (Text.hexDigit? c).filter (· < base)

def numeral? (base : Nat) (cs : List Char) : Option Nat := do
  Text.numeral? base (digitOf? base) (← joined? cs)

def decimal? (cs : List Char) : Option Nat :=
  match cs with
  | '0' :: _ :: _ => none
  | _ => numeral? 10 cs

def inRange (n : Int) : Bool := -0x8000000000000000 ≤ n && n < 0x8000000000000000

def int? (cs : List Char) : Option Int :=
  let n : Option Int := match cs with
    | '0' :: 'x' :: cs => (numeral? 16 cs).map Int.ofNat
    | '0' :: 'o' :: cs => (numeral? 8 cs).map Int.ofNat
    | '0' :: 'b' :: cs => (numeral? 2 cs).map Int.ofNat
    | '+' :: cs => (decimal? cs).map Int.ofNat
    | '-' :: cs => (decimal? cs).map (fun n => -Int.ofNat n)
    | cs => (decimal? cs).map Int.ofNat
  n.filter inRange

def value? (word : List Char) : Option Setting :=
  if word = ['t', 'r', 'u', 'e'] then some (.bool true)
  else if word = ['f', 'a', 'l', 's', 'e'] then some (.bool false)
  else (int? word).map .int

def isWordChar (c : Char) : Bool := isKeyChar c || c = '+' || c = '.' || c = ':'

def setting? (cs : List Char) : Option (List Char × Setting) := do
  let (key, rest) ← key? cs
  match rest.dropWhile isBlank with
  | '=' :: rest =>
    let rest := rest.dropWhile isBlank
    let value ← value? (rest.takeWhile isWordChar)
    if isTail (rest.dropWhile isWordChar) then some (key, value) else none
  | _ => none

def settings? : List (List Char) → Option (List (List Char × Setting))
  | [] => some []
  | line :: lines => do
    let rest ← settings? lines
    if isTail line then return rest
    else return (← setting? (line.dropWhile isBlank)) :: rest

def assign? (config : Config) (key : String) (value : Setting) : Option Config :=
  match key, value with
  | "heap_size", .int n => if 0 ≤ n then some { config with heapSize := n.toNat } else none
  | "gc_stats", .bool b => some { config with gcStats := b }
  | "trace", .bool b => some { config with trace := b }
  | _, _ => none

def build? (pairs : List (List Char × Setting)) : Option Config :=
  if (pairs.map (·.1)).Nodup then
    pairs.foldlM (fun config (key, value) => config.assign? (String.ofList key) value) .default
  else none

/-- A byte order mark in front is passed over. -/
def parse (s : String) : Except ConfigError Config :=
  let cs := match s.toList with
    | '\ufeff' :: cs => cs
    | cs => cs
  match (settings? (lines [] cs)).bind build? with
  | some config => .ok config
  | none => .error .notToml

end SlotVM.Config
