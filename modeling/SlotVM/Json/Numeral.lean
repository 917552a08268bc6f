import SlotVM.Json.Basic
import SlotVM.Json.Scanner

namespace SlotVM.Json.Reader

/-- The parts of a number: sign, whole digits, and, if it is not a plain integer, the digits after
the point and the power of ten. -/
structure Numeral where
  negative : Bool
  whole : List Char
  fraction : Option (List Char)
  exponent : Option Int

def digitsValue (ds : List Char) : Nat := (Text.decimal? ds).getD 0

def Numeral.significand (n : Numeral) : Nat := digitsValue (n.whole ++ n.fraction.getD [])

def Numeral.scale (n : Numeral) : Int := n.exponent.getD 0 - (n.fraction.getD []).length

def doubleBound : Nat := Nat.pow 2 1024 - Nat.pow 2 970

/-- A number that no double approximates. Powers of ten far from the bound are not computed. -/
def Numeral.tooLarge (n : Numeral) : Bool :=
  let digits := n.significand
  let magnitude := (toString digits).length + n.scale
  if digits = 0 || magnitude < 300 then false
  else if 320 < magnitude then true
  else if 0 ≤ n.scale then doubleBound ≤ digits * Nat.pow 10 n.scale.toNat
  else doubleBound * Nat.pow 10 (-n.scale).toNat ≤ digits

def Numeral.int? (n : Numeral) : Option Int :=
  match n.fraction, n.exponent with
  | none, none =>
    let digits := digitsValue n.whole
    if n.negative then
      if digits = 0 ∨ 0x8000000000000000 < digits then none else some (-(digits : Int))
    else if digits < 0x10000000000000000 then some digits
    else none
  | _, _ => none

/-- A digit is missing here; at the end of the text only a lenient reader blames the number. -/
def noDigit (lenient : Bool) (cs : List Char) : Malformed :=
  if cs.isEmpty && !lenient then .ended else .grammar

def digits (lenient : Bool) : Reader (List Char) := fun cs =>
  let run := cs.takeWhile isDigit
  if run.isEmpty then .error (noDigit lenient cs) else .ok (run, cs.dropWhile isDigit)

def wholePart (lenient : Bool) : Reader (List Char) := fun cs => do
  let (run, rest) ← digits lenient cs
  if run.head? = some '0' ∧ run.length ≠ 1 then .error .grammar else return (run, rest)

def fractionPart (lenient : Bool) : Reader (Option (List Char))
  | '.' :: cs => do
    let (run, rest) ← digits lenient cs
    return (some run, rest)
  | cs => .ok (none, cs)

def exponentSign : List Char → Bool × List Char
  | '-' :: cs => (true, cs)
  | '+' :: cs => (false, cs)
  | cs => (false, cs)

def exponentPart (lenient : Bool) : Reader (Option Int)
  | c :: cs =>
    if c = 'e' ∨ c = 'E' then do
      let (negative, cs) := exponentSign cs
      let (run, rest) ← digits lenient cs
      let n : Int := digitsValue run
      return (some (if negative then -n else n), rest)
    else .ok (none, c :: cs)
  | [] => .ok (none, [])

def numeral (lenient : Bool) : Reader Numeral := fun cs => do
  let (negative, body) := match cs with
    | '-' :: body => (true, body)
    | _ => (false, cs)
  let (whole, rest) ← wholePart lenient body
  let (fraction, rest) ← fractionPart lenient rest
  let (exponent, rest) ← exponentPart lenient rest
  return (⟨negative, whole, fraction, exponent⟩, rest)

def number (lenient : Bool) : Reader Number := fun cs => do
  let (n, rest) ← numeral lenient cs
  if n.tooLarge && !lenient then .error .grammar
  else match n.int? with
    | some i => return (.int i, rest)
    | none => return (.real (String.ofList (cs.take (cs.length - rest.length))), rest)

end SlotVM.Json.Reader
