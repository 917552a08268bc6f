import SlotVM.Config.Reader
import SlotVM.Program.Reader

namespace SlotVM

inductive FileError where
  | missing
  | notUtf8
  | other (cause : String)
deriving DecidableEq

def FileError.message : FileError → String
  | .missing => "No such file or directory (os error 2)"
  | .notUtf8 => "stream did not contain valid UTF-8"
  | .other cause => cause

def textOfBytes (bytes : ByteArray) : Except FileError String :=
  match String.fromUTF8? bytes with
  | some s => .ok s
  | none => .error .notUtf8

inductive LoadError where
  | unreadable (path cause : String)
  | malformed (m : Malformed)
deriving DecidableEq

def LoadError.message : LoadError → String
  | .unreadable path cause => "failed to read " ++ path ++ ": " ++ cause
  | .malformed m => "malformed program: " ++ m.message

def Program.ofText (s : String) : Except LoadError Program :=
  match Program.parse s with
  | .ok p => .ok p
  | .error m => .error (.malformed m)

def Program.load (path : String) : Except FileError String → Except LoadError Program
  | .error e => .error (.unreadable path e.message)
  | .ok s => Program.ofText s

def Config.load (path : String) : Except FileError String → Except ConfigError Config
  | .error e => .error (.unreadable path e.message)
  | .ok s => Config.parse s

end SlotVM
