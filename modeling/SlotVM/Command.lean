import SlotVM.Files
import SlotVM.Session
import SlotVM.Text.Number

namespace SlotVM

structure RunOptions where
  file : String
  heapSize : Option Nat
  gcStats : Bool
  trace : Bool
  config : Option String
deriving DecidableEq

inductive Command where
  | run (options : RunOptions)
  | link (file : String)
deriving DecidableEq

structure Transcript where
  exit : Nat
  stdout : String
  stderr : String

namespace Command

structure Partial where
  file : Option String
  heapSize : Option Nat
  gcStats : Bool
  trace : Bool
  config : Option String

def size? (s : String) : Option Nat :=
  let digits := match s.toList with
    | '+' :: cs => cs
    | cs => cs
  (Text.decimal? digits).filter (· < 0x10000000000000000)

def setFile? (o : Partial) (s : String) : Option Partial :=
  if s.isEmpty || o.file.isSome then none else some { o with file := some s }

def setHeapSize? (o : Partial) (s : String) : Option Partial := do
  let n ← size? s
  if o.heapSize.isSome then none else some { o with heapSize := some n }

def setConfig? (o : Partial) (s : String) : Option Partial :=
  if s.isEmpty || o.config.isSome then none else some { o with config := some s }

def after? (mark s : String) : Option String :=
  if mark.toList.isPrefixOf s.toList then some (String.ofList (s.toList.drop mark.length)) else none

def isOption (s : String) : Bool := s.startsWith "-" && s ≠ "-"

def files? (o : Partial) : List String → Option Partial
  | [] => some o
  | s :: rest => do files? (← setFile? o s) rest

/-- The words after `run`; an option's value is the next word or follows an equals sign. -/
def options? (o : Partial) : List String → Option Partial
  | [] => some o
  | "--" :: rest => files? o rest
  | "--gc-stats" :: rest => if o.gcStats then none else options? { o with gcStats := true } rest
  | "--trace" :: rest => if o.trace then none else options? { o with trace := true } rest
  | "--heap-size" :: s :: rest =>
    if isOption s then none else do options? (← setHeapSize? o s) rest
  | "--config" :: s :: rest =>
    if isOption s then none else do options? (← setConfig? o s) rest
  | s :: rest =>
    if let some value := after? "--heap-size=" s then do options? (← setHeapSize? o value) rest
    else if let some value := after? "--config=" s then do options? (← setConfig? o value) rest
    else if isOption s then none
    else do options? (← setFile? o s) rest

def linkFile? : List String → Option String
  | ["--", s] => if s.isEmpty then none else some s
  | [s] => if s.isEmpty || isOption s then none else some s
  | [s, "--"] => if s.isEmpty || isOption s then none else some s
  | _ => none

def parse? : List String → Option Command
  | "run" :: rest => do
    let o ← options? ⟨none, none, false, false, none⟩ rest
    return .run ⟨← o.file, o.heapSize, o.gcStats, o.trace, o.config⟩
  | "link" :: rest => do return .link (← linkFile? rest)
  | _ => none

def files : Command → List String
  | .run o => o.config.toList ++ [o.file]
  | .link file => [file]

def failure (line : String) : Transcript := ⟨1, "", line ++ "\n"⟩

def settings (o : RunOptions) (read : String → Except FileError String) :
    Except ConfigError Config := do
  let config ← match o.config with
    | none => .ok Config.default
    | some path => Config.load path (read path)
  return ⟨o.heapSize.getD config.heapSize, config.gcStats || o.gcStats, config.trace || o.trace⟩

def statistics (vm : Vm) : String :=
  "[GC] cycles: " ++ toString vm.heap.cycles ++ ", bytes copied: " ++
    toString vm.heap.bytesCopied ++ "\n"

def verdict : Result → Nat × String
  | .ok => (0, "")
  | .error e => (1, e.message ++ "\n")
  | .crash _ => (101, "the machine crashed\n")
  | .unfinished => (1, "the run was stopped\n")

def performRun (o : RunOptions) (read : String → Except FileError String) (fuel : Nat) :
    Transcript :=
  match settings o read with
  | .error e => failure ("error: " ++ e.message)
  | .ok config =>
    match Program.load o.file (read o.file) with
    | .error e => failure ("error: " ++ e.message)
    | .ok program =>
      match Session.create config .unbounded with
      | .error e => failure ("error: " ++ e.message)
      | .ok session =>
        let (result, session) := session.run program fuel
        let (exit, lines) := verdict result
        let stats := if config.gcStats then statistics session.vm else ""
        ⟨exit, session.takeOutput.1, stats ++ lines⟩

def summary (image : Image) : String :=
  "code:    " ++ toString image.code.size ++ " bytes\n" ++
    "classes: " ++ toString image.classes.size ++ "\n" ++
    "globals: " ++ toString image.globals.size ++ "\n" ++
    "symbols: " ++ toString image.symbols.size ++ "\n" ++
    "entry:   " ++ toString image.entry ++ "\n"

def performLink (file : String) (read : String → Except FileError String) : Transcript :=
  match Program.load file (read file) with
  | .error e => failure ("error: " ++ e.message)
  | .ok program =>
    match SlotVM.link program with
    | .error (.error e) => failure e.message
    | .error (.crash c) =>
      let (exit, lines) := verdict (.crash c)
      ⟨exit, "", lines⟩
    | .ok image => ⟨0, summary image, ""⟩

def perform (read : String → Except FileError String) (fuel : Nat) : Command → Transcript
  | .run o => performRun o read fuel
  | .link file => performLink file read

end Command
end SlotVM
