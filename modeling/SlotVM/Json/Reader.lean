import SlotVM.Json.Numeral

namespace SlotVM.Json

namespace Reader

def itemsAfter {α : Type} (item : Reader α) : Nat → Reader (List α)
  | 0, _ => .error .ended
  | fuel + 1, cs =>
    match skipBlanks cs with
    | [] => .error .ended
    | ']' :: rest => .ok ([], rest)
    | ',' :: rest =>
      match skipBlanks rest with
      | [] => .error .ended
      | ']' :: _ => .error .grammar
      | rest => do
        let (x, rest) ← item rest
        let (xs, rest) ← itemsAfter item fuel rest
        return (x :: xs, rest)
    | _ => .error .grammar

def items {α : Type} (size : Nat) (item : Reader α) : Reader (List α) := fun cs =>
  match skipBlanks cs with
  | [] => .error .ended
  | ']' :: rest => .ok ([], rest)
  | rest => do
    let (x, rest) ← item rest
    let (xs, rest) ← itemsAfter item size rest
    return (x :: xs, rest)

def colon (cs : List Char) : Except Malformed (List Char) :=
  match skipBlanks cs with
  | [] => .error .ended
  | ':' :: rest => .ok rest
  | _ => .error .grammar

/-- The members of an object from the first name on. The step takes what was read so far and a name,
and reads the colon and the value. -/
def membersFrom {σ : Type} (size : Nat) (lenient : Bool) (step : σ → String → Reader σ) :
    Nat → σ → Reader σ
  | 0, _, _ => .error .ended
  | fuel + 1, s, cs =>
    match cs with
    | '"' :: rest => do
      let (name, rest) ← string size lenient rest
      let (s, rest) ← step s name rest
      match skipBlanks rest with
      | [] => .error .ended
      | '\x7d' :: rest => return (s, rest)
      | ',' :: rest =>
        match skipBlanks rest with
        | [] => .error .ended
        | rest => membersFrom size lenient step fuel s rest
      | _ => .error .grammar
    | _ => .error .grammar

def members {σ : Type} (size : Nat) (lenient : Bool) (step : σ → String → Reader σ) (s : σ) :
    Reader σ := fun cs =>
  match skipBlanks cs with
  | [] => .error .ended
  | '\x7d' :: rest => .ok (s, rest)
  | rest => membersFrom size lenient step size s rest

def value (size : Nat) (lenient : Bool) : Nat → Reader Json := fun levels cs =>
  match skipBlanks cs with
  | [] => .error .ended
  | 'n' :: rest => do return (.null, ← expect ['u', 'l', 'l'] rest)
  | 't' :: rest => do return (.bool true, ← expect ['r', 'u', 'e'] rest)
  | 'f' :: rest => do return (.bool false, ← expect ['a', 'l', 's', 'e'] rest)
  | '"' :: rest => do
    let (s, rest) ← string size lenient rest
    return (.string s, rest)
  | '[' :: rest =>
    match levels with
    | 0 => .error .grammar
    | levels + 1 => do
      let (xs, rest) ← items size (value size lenient levels) rest
      return (.array xs, rest)
  | '\x7b' :: rest =>
    match levels with
    | 0 => .error .grammar
    | levels + 1 => do
      let step (seen : List (String × Json)) (name : String) : Reader (List (String × Json)) :=
        fun cs => do
          let (v, rest) ← value size lenient levels (← colon cs)
          return ((name, v) :: seen, rest)
      let (seen, rest) ← members size lenient step [] rest
      return (.object seen.reverse, rest)
  | c :: rest =>
    if c = '-' || isDigit c then do
      let (n, rest) ← number lenient (c :: rest)
      return (.number n, rest)
    else .error .grammar
termination_by structural levels => levels

/-- Passes over a value, however deep. -/
def skip (size : Nat) (cs : List Char) : Except Malformed (List Char) := do
  let (_, rest) ← value size true size cs
  return rest

def maxLevels : Nat := 127

def whole {α : Type} (document : Nat → Reader α) (s : String) : Except Malformed α := do
  let cs := s.toList
  let (a, rest) ← document (cs.length + 1) cs
  if (skipBlanks rest).isEmpty then return a else .error .grammar

end Reader

def parse (s : String) : Except Malformed Json :=
  Reader.whole (fun size => Reader.value size false Reader.maxLevels) s

end SlotVM.Json
