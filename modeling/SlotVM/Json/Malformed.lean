namespace SlotVM

inductive ContentError where
  | unknownVariant (found : String) (known : List String)
  | missingField (name : String)
  | duplicateField (name : String)
  | integerRange (value : Int) (expected : String)
  | mismatch
deriving DecidableEq

inductive Malformed where
  | grammar
  | ended
  | content (e : ContentError)
deriving DecidableEq

def accented (name : String) : String := "`" ++ name ++ "`"

def ContentError.message : ContentError → String
  | .unknownVariant found known =>
    "unknown variant " ++ accented found ++ ", expected one of " ++
      ", ".intercalate (known.map accented)
  | .missingField name => "missing field " ++ accented name
  | .duplicateField name => "duplicate field " ++ accented name
  | .integerRange value expected =>
    "invalid value: integer " ++ accented (toString value) ++ ", expected " ++ expected
  | .mismatch => "invalid type or length"

def Malformed.message : Malformed → String
  | .grammar => "not a JSON document"
  | .ended => "the document ends too early"
  | .content e => e.message

end SlotVM
