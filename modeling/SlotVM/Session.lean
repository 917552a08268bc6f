import SlotVM.Link.Journal
import SlotVM.Machine.Journal

namespace SlotVM

inductive VmError where
  | config (e : ConfigError)
  | link (e : LinkError)
  | runtime (e : RuntimeError)

def VmError.message : VmError → String
  | .config e => e.message
  | .link e => e.message
  | .runtime e => e.message

structure Session where
  config : Config
  vm : Vm
  classes : ClassTable

inductive Result where
  | ok
  | error (e : VmError)
  | crash (c : Crash)
  | unfinished

namespace Session

def create (config : Config) (sink : Sink) : Except ConfigError Session := do
  return ⟨config, ← Vm.create config sink, .empty⟩

/-- The session after a run; a crash leaves it as it was before. -/
def after (s : Session) (image : Image) : Ending → Result × Session
  | .ok vm => (.ok, { s with vm := vm, classes := image.classes })
  | .error e vm => (.error (.runtime e), { s with vm := vm, classes := image.classes })
  | .crash c => (.crash c, s)
  | .unfinished _ vm => (.unfinished, { s with vm := vm, classes := image.classes })

def execute (s : Session) (image : Image) (fuel : Nat) : Result × Session :=
  s.after image (s.vm.execute image fuel)

def run (s : Session) (p : Program) (fuel : Nat) : Result × Session :=
  match link p with
  | .error (.error e) => (.error (.link e), s)
  | .error (.crash c) => (.crash c, s)
  | .ok image => s.execute image fuel

def executeWatched (s : Session) (image : Image) (fuel : Nat) :
    (Result × Session) × Array Report :=
  let (ending, log) := s.vm.watch image s.config fuel
  (s.after image ending, log)

def runWatched (s : Session) (p : Program) (fuel : Nat) : (Result × Session) × Array Report :=
  let linking := linkJournal p
  match link p with
  | .error (.error e) => ((.error (.link e), s), linking)
  | .error (.crash c) => ((.crash c, s), linking)
  | .ok image =>
    let (result, log) := s.executeWatched image fuel
    (result, linking ++ log)

def takeOutput (s : Session) : String × Session :=
  (s.vm.sink.written, { s with vm := { s.vm with sink := s.vm.sink.clear } })

def census (s : Session) (scope : Scope) : Except Crash (List Listed) :=
  s.vm.heap.census s.classes scope (s.vm.stack.toList ++ s.vm.globals.toList)

end Session
end SlotVM
