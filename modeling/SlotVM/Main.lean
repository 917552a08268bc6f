import SlotVM.Command

namespace SlotVM

def usage : String :=
  "usage: run FILE [--heap-size N] [--gc-stats] [--trace] [--config FILE]\n" ++
    "       link FILE\n"

/-- More instructions than any run can execute. -/
def endless : Nat := 0x4000000000000000

def readText (path : String) : IO (Except FileError String) := do
  try
    return textOfBytes (← IO.FS.readBinFile path)
  catch
    | .noFileOrDirectory .. => return .error .missing
    | e => return .error (.other (toString e))

def readAll (paths : List String) : IO (List (String × Except FileError String)) :=
  paths.mapM fun path => do return (path, ← readText path)

end SlotVM

open SlotVM in
def main (args : List String) : IO UInt32 := do
  match Command.parse? args with
  | none =>
    IO.eprint usage
    return 2
  | some command =>
    let texts ← readAll command.files
    let result := command.perform (fun path => (texts.lookup path).getD (.error .missing)) endless
    IO.print result.stdout
    IO.eprint result.stderr
    return result.exit.toUInt32
