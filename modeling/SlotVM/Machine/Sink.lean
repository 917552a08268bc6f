import SlotVM.Machine.Fault

namespace SlotVM

structure Sink where
  written : String
  limit : Option Nat
  flushes : Bool

namespace Sink

def unbounded : Sink := ⟨"", none, true⟩

def accepts (sink : Sink) (text : String) : Bool :=
  match sink.limit with
  | none => true
  | some limit => sink.written.utf8ByteSize + text.utf8ByteSize ≤ limit

def write (sink : Sink) (text : String) : Sink := { sink with written := sink.written ++ text }

def full : RuntimeError := .output "sink full"

def flush (sink : Sink) : Except RuntimeError Unit :=
  if sink.flushes then .ok () else .error (.output "flush failed")

/-- Empties the text; the limit counts anew. -/
def clear (sink : Sink) : Sink := { sink with written := "" }

end Sink
end SlotVM
