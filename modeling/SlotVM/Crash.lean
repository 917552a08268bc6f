namespace SlotVM

inductive Crash where
  /-- A word outside the heap's memory, or a field of a value that is no reference. -/
  | memory
  | frameWord
  /-- More words than the frame stack can hold. -/
  | frameMemory
  | localSlot
  | globalSlot
  | formatString
  | valueTag
  | parentCycle
  | patch
deriving DecidableEq

end SlotVM
