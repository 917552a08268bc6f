namespace SlotVM

inductive Level where
  | info
  | debug
  | trace
deriving DecidableEq

def Level.name : Level → String
  | .info => "INFO"
  | .debug => "DEBUG"
  | .trace => "TRACE"

def Level.rank : Level → Nat
  | .info => 0
  | .debug => 1
  | .trace => 2

structure Report where
  level : Level
  text : String

def Report.line (r : Report) : String := r.level.name ++ " " ++ r.text

end SlotVM
