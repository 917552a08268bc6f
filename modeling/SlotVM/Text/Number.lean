namespace SlotVM.Text

/-- Lower-case hexadecimal digits with the mark `0x`, at least `width` digits. -/
def hex (n : Nat) (width : Nat) : String :=
  let digits := Nat.toDigits 16 n
  "0x" ++ String.ofList (List.replicate (width - digits.length) '0' ++ digits)

def padLeft (width : Nat) (s : String) : String :=
  String.ofList (List.replicate (width - s.length) ' ') ++ s

def padRight (width : Nat) (s : String) : String :=
  s ++ String.ofList (List.replicate (width - s.length) ' ')

def digit? (c : Char) : Option Nat :=
  if '0' ≤ c ∧ c ≤ '9' then some (c.toNat - '0'.toNat) else none

def hexDigit? (c : Char) : Option Nat :=
  if '0' ≤ c ∧ c ≤ '9' then some (c.toNat - '0'.toNat)
  else if 'a' ≤ c ∧ c ≤ 'f' then some (c.toNat - 'a'.toNat + 10)
  else if 'A' ≤ c ∧ c ≤ 'F' then some (c.toNat - 'A'.toNat + 10)
  else none

def numeral? (base : Nat) (digit : Char → Option Nat) : List Char → Option Nat
  | [] => none
  | cs => cs.foldlM (fun n c => (digit c).map (base * n + ·)) 0

def decimal? (cs : List Char) : Option Nat := numeral? 10 digit? cs

def hexadecimal? (cs : List Char) : Option Nat := numeral? 16 hexDigit? cs

def hexLiteral? : List Char → Option Nat
  | '0' :: 'x' :: cs => hexadecimal? cs
  | _ => none

def intLiteral? : List Char → Option Int
  | '-' :: cs => (decimal? cs).map (fun n => -(n : Int))
  | cs => (decimal? cs).map (fun n => (n : Int))

end SlotVM.Text
