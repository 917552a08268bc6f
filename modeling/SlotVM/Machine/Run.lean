import SlotVM.Machine.Step

namespace SlotVM

inductive Ending where
  | ok (vm : Vm)
  | error (e : RuntimeError) (vm : Vm)
  | crash (c : Crash)
  | unfinished (ip : Nat) (vm : Vm)

namespace Vm

def runFrom (image : Image) : Nat → Nat → Vm → Ending
  | 0, ip, vm => .unfinished ip vm
  | fuel + 1, ip, vm =>
    match vm.step image ip with
    | .next ip vm => runFrom image fuel ip vm
    | .halt vm => .ok vm
    | .error e vm => .error e vm
    | .crash c => .crash c

/-- The machine at the start of a run: empty stack, null globals, and a header whose return ends the
run. The heap stays as it is. -/
def start (vm : Vm) (image : Image) : Vm :=
  { vm with
    stack := #[]
    frames := Frames.empty.pushCall 0
    globals := Array.replicate image.globals.size .null }

end Vm

/-- Flushes the output of a run; a failure to do so hides how the run ended. -/
def Ending.flush : Ending → Ending
  | .ok vm =>
    match vm.sink.flush with
    | .ok _ => .ok vm
    | .error e => .error e vm
  | .error e vm =>
    match vm.sink.flush with
    | .ok _ => .error e vm
    | .error e => .error e vm
  | ending => ending

def Vm.execute (vm : Vm) (image : Image) (fuel : Nat) : Ending :=
  (runFrom image fuel image.entry (vm.start image)).flush

end SlotVM
