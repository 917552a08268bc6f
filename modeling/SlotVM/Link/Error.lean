import SlotVM.Crash
import SlotVM.Json.Malformed

namespace SlotVM

inductive Subject where
  | name (name : String)
  | global (name : String)
  | method (name : Option String) (index : UInt64)
  | constant (index : UInt64)
deriving DecidableEq

def Subject.text : Subject → String
  | .name s => accented s
  | .global s => "global " ++ accented s
  | .method (some s) index => "method " ++ accented s ++ " (#" ++ toString index.toNat ++ ")"
  | .method none index => "method #" ++ toString index.toNat
  | .constant index => "#" ++ toString index.toNat

inductive LinkError where
  | unresolvedSymbol (symbol : Subject)
  | symbolKind (symbol : Subject) (expected found : String)
  | duplicateSymbol (symbol : Subject)
  | unsupportedLiteral (index : UInt64) (found : String)
  | badConstant (index : UInt64) (expected found : String)
  | badGlobal (index : UInt64) (found : String)
  | badEntry (index : UInt64)
  | badLocal (method : Subject) (index frameSize : UInt32)
  | callArity (symbol : Subject) (expected got : UInt32)
deriving DecidableEq

def LinkError.message : LinkError → String
  | .unresolvedSymbol symbol => "link error: unresolved symbol " ++ symbol.text
  | .symbolKind symbol expected found =>
    "link error: symbol " ++ symbol.text ++ " is a " ++ found ++ ", expected a " ++ expected
  | .duplicateSymbol symbol => "link error: symbol " ++ symbol.text ++ " defined twice"
  | .unsupportedLiteral index found =>
    "link error: literal #" ++ toString index.toNat ++ " is a " ++ found ++
      ", only int and null can be quickened"
  | .badConstant index expected found =>
    "link error: constant #" ++ toString index.toNat ++ " should be a " ++ expected ++
      ", found " ++ found
  | .badGlobal index found =>
    "link error: global #" ++ toString index.toNat ++ " is a " ++ found ++
      ", expected a method or slot"
  | .badEntry index =>
    "link error: entry point #" ++ toString index.toNat ++ " is not a method"
  | .badLocal method index frameSize =>
    "link error: " ++ method.text ++ " uses local " ++ toString index.toNat ++
      ", but its frame has " ++ toString frameSize.toNat ++ " slots"
  | .callArity symbol expected got =>
    "link error: call to " ++ symbol.text ++ " passes " ++ toString got.toNat ++
      " arguments, it takes " ++ toString expected.toNat

/-- Why linking came to no end: what the program has wrong, or a crash. -/
inductive LinkFault where
  | error (e : LinkError)
  | crash (c : Crash)
deriving DecidableEq

namespace LinkFault

def ofResult {α : Type} (result : Except LinkError α) : Except LinkFault α := result.mapError .error

def ofPatched {α : Type} : Option α → Except LinkFault α
  | some a => .ok a
  | none => .error (.crash .patch)

end LinkFault

end SlotVM
