import SlotVM.Value
import SlotVM.Text.Number
import SlotVM.Text.Value
import SlotVM.Code.Opcode
import SlotVM.Code.Buffer
import SlotVM.Code.Instr
import SlotVM.Symbols
import SlotVM.ClassTable
import SlotVM.Program.Basic
import SlotVM.Program.Builder
import SlotVM.Json.Basic
import SlotVM.Json.Printer
import SlotVM.Json.Malformed
import SlotVM.Json.Scanner
import SlotVM.Json.Numeral
import SlotVM.Json.Reader
import SlotVM.Program.Printer
import SlotVM.Program.Record
import SlotVM.Program.Reader
import SlotVM.Config.Basic
import SlotVM.Config.Reader
import SlotVM.Crash
import SlotVM.Frames
import SlotVM.Heap.Memory
import SlotVM.Heap.Basic
import SlotVM.Heap.Collector
import SlotVM.Heap.Census
import SlotVM.Link.Error
import SlotVM.Link.Draft
import SlotVM.Link.Quicken
import SlotVM.Link.Resolve
import SlotVM.Link.Patch
import SlotVM.Link.Image
import SlotVM.Report
import SlotVM.Link.Journal
import SlotVM.Machine.Fault
import SlotVM.Machine.Builtin
import SlotVM.Machine.Sink
import SlotVM.Machine.State
import SlotVM.Machine.Slots
import SlotVM.Machine.Printf
import SlotVM.Machine.Alloc
import SlotVM.Machine.Variables
import SlotVM.Machine.Call
import SlotVM.Machine.Step
import SlotVM.Machine.Run
import SlotVM.Machine.Journal
import SlotVM.Session
import SlotVM.Files
import SlotVM.Command
import SlotVM.Main
import SlotVM.Proofs.Except
import SlotVM.Proofs.Pointwise
import SlotVM.Proofs.Value
import SlotVM.Proofs.Heap.Memory
import SlotVM.Proofs.Heap.Graph
import SlotVM.Proofs.Heap.Packing
import SlotVM.Proofs.Heap.Forwarding
import SlotVM.Proofs.Heap.Scanning
import SlotVM.Proofs.Frames.Walk
import SlotVM.Proofs.Heap.Collection
import SlotVM.Proofs.Heap.BreadthFirst
import SlotVM.Proofs.Json.Grammar
import SlotVM.Proofs.Json.Scanning
import SlotVM.Proofs.Json.Reading
import SlotVM.Proofs.Program.Spelling
import SlotVM.Proofs.Program.Records
import SlotVM.Proofs.Program.RoundTrip
import SlotVM.Proofs.Code.RoundTrip
import SlotVM.Proofs.Source.Layout
import SlotVM.Proofs.Link.Growth
import SlotVM.Proofs.Link.Sketching
import SlotVM.Proofs.Link.Drafting
import SlotVM.Proofs.Link.Tracking
import SlotVM.Proofs.Link.Positions
import SlotVM.Proofs.Link.Resolution
import SlotVM.Proofs.Link.Patches
import SlotVM.Proofs.Link.Listing
import SlotVM.Proofs.Source.WellFormed
import SlotVM.Proofs.Link.Obligations
import SlotVM.Proofs.Link.Acceptance
import SlotVM.Proofs.Heap.Objects
import SlotVM.Proofs.Heap.Ancestry
import SlotVM.Proofs.Heap.Pairing
import SlotVM.Proofs.Machine.Soundness
import SlotVM.Proofs.Machine.Calls
import SlotVM.Proofs.Machine.Pairing
import SlotVM.Proofs.Machine.PairedCalls
import SlotVM.Proofs.Frames.Build
import SlotVM.Proofs.Machine.Framing
import SlotVM.Proofs.Source.Machine
import SlotVM.Proofs.Source.Flow
import SlotVM.Proofs.Source.Classes
import SlotVM.Proofs.Source.Simulation
import SlotVM.Proofs.Source.Soundness
import SlotVM.Proofs.Source.Lockstep
import SlotVM.Proofs.Session.Invariant
import SlotVM.Proofs.Source.Confinement
import SlotVM.Proofs.Source.Pairing
import SlotVM.Proofs.Session.Renaming
import SlotVM.Proofs.Session.MethodCalls
import SlotVM.Proofs.Session.Allocation
import SlotVM.Proofs.Session.Lookup
import SlotVM.Proofs.Heap.Contents
import SlotVM.Proofs.Machine.RootWalk
import SlotVM.Proofs.Machine.Arithmetic
import SlotVM.Proofs.Machine.Printing
import SlotVM.Proofs.Code.Operands
import SlotVM.Proofs.Machine.Decoding
import SlotVM.Proofs.Link.Interning
import SlotVM.Proofs.Link.Naming
import SlotVM.Proofs.Program.Assembly
import SlotVM.Proofs.Code.Patching
