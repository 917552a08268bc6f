namespace SlotVM

structure Config where
  /-- Bytes per semispace; the heap reserves twice as many. -/
  heapSize : Nat
  gcStats : Bool
  trace : Bool
deriving DecidableEq

def Config.default : Config := ⟨1024 * 1024, false, false⟩

inductive ConfigError where
  | unreadable (path cause : String)
  | notToml
  | heapSize (size : Nat)
deriving DecidableEq

def ConfigError.message : ConfigError → String
  | .unreadable path cause => "failed to read config " ++ path ++ ": " ++ cause
  | .notToml => "invalid config: TOML"
  | .heapSize size =>
    "invalid config: heap size " ++ toString size ++ " does not fit in memory"

end SlotVM
