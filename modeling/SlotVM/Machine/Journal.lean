import SlotVM.Machine.Run
import SlotVM.Report
import SlotVM.Text.Value

namespace SlotVM

namespace Vm

def topText (vm : Vm) : String :=
  match vm.peek? 0 with
  | none => "None"
  | some v => "Some(" ++ v.text ++ ")"

def stepReport (vm : Vm) (image : Image) (ip : Nat) : List Report :=
  match image.code.opcodeAt ip with
  | .error _ => []
  | .ok op =>
    [⟨.trace, Text.padLeft 6 (toString ip) ++ ": " ++ Text.padRight 10 op.mnemonic ++ " depth=" ++
      toString vm.stack.size ++ " top=" ++ vm.topText⟩]

/-- The report on a collection that a step made, told by the heap before and after the step. -/
def collectionReport (cycles used copied : Nat) (vm : Vm) : List Report :=
  if vm.heap.cycles = cycles then []
  else
    [⟨.debug, "gc #" ++ toString vm.heap.cycles ++ ": " ++ toString used ++ " -> " ++
      toString (vm.heap.bytesCopied - copied) ++ " bytes live"⟩]

def watchFrom (image : Image) (trace : Bool) :
    Nat → Nat → Vm → Array Report → Ending × Array Report
  | 0, ip, vm, log => (.unfinished ip vm, log)
  | fuel + 1, ip, vm, log =>
    let log := if trace then log ++ vm.stepReport image ip else log
    let cycles := vm.heap.cycles
    let used := vm.heap.used
    let copied := vm.heap.bytesCopied
    match vm.step image ip with
    | .next next vm =>
      watchFrom image trace fuel next vm (log ++ collectionReport cycles used copied vm)
    | .halt vm => (.ok vm, log.push ⟨.debug, "halt at " ++ toString ip⟩)
    | .error e vm => (.error e vm, log ++ collectionReport cycles used copied vm)
    | .crash c => (.crash c, log)

def totals (vm : Vm) : Report :=
  ⟨.info, "gc: " ++ toString vm.heap.cycles ++ " cycles, " ++ toString vm.heap.bytesCopied ++
    " bytes copied"⟩

end Vm

/-- The report at the end of a run; there is none when the output could not be flushed. -/
def Ending.totals (gcStats : Bool) : Ending → List Report
  | .ok vm | .error _ vm => if gcStats && vm.sink.flushes then [vm.totals] else []
  | _ => []

def Vm.watch (vm : Vm) (image : Image) (config : Config) (fuel : Nat) : Ending × Array Report :=
  let (ending, log) := watchFrom image config.trace fuel image.entry (vm.start image) #[]
  (ending.flush, log ++ ending.totals config.gcStats)

end SlotVM
