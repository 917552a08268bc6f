import SlotVM.Value

namespace SlotVM

/-- Frames one after another. The two header words of a frame are offsets and not values:

    fp -> [saved fp] [return ip] [argument 0 ..] [local 0 ..] -/
structure Frames where
  words : Array Value
  fp : Nat
deriving DecidableEq

inductive Return where
  | halt
  | resume (ip : Nat)
deriving DecidableEq

namespace Frames

def empty : Frames := ⟨#[], 0⟩

def size (frames : Frames) : Nat := frames.words.size

/-- The most words there can be: together they take less than `2 ^ 63` bytes. -/
def capacity : Nat := 0xFFFFFFFFFFFFFFF

def rawWord (n : Nat) : Value := ⟨n.toUInt64⟩

def pushCall (frames : Frames) (returnIp : Nat) : Frames :=
  { frames with words := (frames.words.push (rawWord frames.fp)).push (rawWord returnIp) }

/-- Completes the frame whose header was just pushed: the arguments, then null for each local.
`none` when there is no header. -/
def enter? (frames : Frames) (args : Array Value) (nlocals : Nat) : Option Frames :=
  if 2 ≤ frames.size then
    some ⟨frames.words ++ args ++ Array.replicate nlocals Value.null, frames.size - 2⟩
  else none

def ret? (frames : Frames) : Option (Return × Frames) := do
  let saved ← frames.words[frames.fp]?
  let ip ← frames.words[frames.fp + 1]?
  if frames.fp = 0 then return (.halt, empty)
  else return (.resume ip.raw.toNat, ⟨frames.words.shrink frames.fp, saved.raw.toNat⟩)

def local? (frames : Frames) (index : Nat) : Option Value := frames.words[frames.fp + 2 + index]?

def setLocal? (frames : Frames) (index : Nat) (value : Value) : Option Frames :=
  if frames.fp + 2 + index < frames.size then
    some { frames with words := frames.words.setIfInBounds (frames.fp + 2 + index) value }
  else none

/-- The places of the argument and local words below `stop`, innermost frame first. Each frame lies
below the one it called, so the chain is followed at most `fuel` times; `none` when it leaves the
stack. -/
def rootsBelow? (words : Array Value) : Nat → Nat → Nat → Option (List Nat)
  | 0, _, _ => none
  | fuel + 1, fp, stop =>
    if fp + 2 ≤ stop ∧ stop ≤ words.size then
      let here := List.range' (fp + 2) (stop - (fp + 2))
      if fp = 0 then some here
      else do
        let saved ← words[fp]?
        return here ++ (← rootsBelow? words fuel saved.raw.toNat fp)
    else none

def rootPlaces? (frames : Frames) : Option (List Nat) :=
  if frames.words.isEmpty then some []
  else rootsBelow? frames.words frames.size frames.fp frames.size

def roots? (frames : Frames) : Option (List Value) := do
  (← frames.rootPlaces?).mapM (frames.words[·]?)

def setPlaces (words : Array Value) : List Nat → List Value → Array Value
  | place :: places, value :: values => setPlaces (words.setIfInBounds place value) places values
  | _, _ => words

def withRoots? (frames : Frames) (values : List Value) : Option Frames := do
  return { frames with words := setPlaces frames.words (← frames.rootPlaces?) values }

section
variable {m : Type → Type} [Monad m]

def visitSlots (f : Value → m Value) : Nat → Nat → Array Value → m (Array Value)
  | 0, _, words => pure words
  | count + 1, place, words => do
    let v ← f (words[place]?.getD .null)
    visitSlots f count (place + 1) (words.setIfInBounds place v)

/-- Replaces the arguments and locals of the frame at `fp`, which ends at `stop`, and then those of
the frame whose pointer its header has by now. -/
def visitFrames (f : Value → m Value) : Nat → Nat → Nat → Array Value → m (Option (Array Value))
  | 0, _, _, _ => pure none
  | fuel + 1, fp, stop, words =>
    if fp + 2 ≤ stop ∧ stop ≤ words.size then do
      let words ← visitSlots f (stop - (fp + 2)) (fp + 2) words
      if fp = 0 then pure (some words)
      else
        match words[fp]? with
        | some saved => visitFrames f fuel saved.raw.toNat fp words
        | none => pure none
    else pure none

def visitRoots (f : Value → m Value) (frames : Frames) : m (Option Frames) :=
  if frames.words.isEmpty then pure (some frames)
  else do
    let words ← visitFrames f frames.size frames.fp frames.size frames.words
    return words.map fun words => { frames with words := words }

end

end Frames
end SlotVM
