import SlotVM.Program.Basic

namespace SlotVM

structure Builder where
  values : Array Constant
  slots : Array UInt64

namespace Builder

def empty : Builder := ⟨#[], #[]⟩

def push (b : Builder) (c : Constant) : Builder × UInt64 :=
  ({ b with values := b.values.push c }, b.values.size.toUInt64)

def intern (b : Builder) (c : Constant) : Builder × UInt64 :=
  match b.values.idxOf? c with
  | some index => (b, index.toUInt64)
  | none => b.push c

def string (b : Builder) (value : String) : Builder × UInt64 := b.intern (.str value)

def int (b : Builder) (value : Int32) : Builder × UInt64 := b.intern (.int value)

def null (b : Builder) : Builder × UInt64 := b.intern .null

def method (b : Builder) (name : String) (nargs nlocals : UInt32) (code : List Ins) :
    Builder × UInt64 :=
  let (b, name) := b.string name
  b.push (.method ⟨name, nargs, nlocals, code⟩)

def slot (b : Builder) (name : String) : Builder × UInt64 :=
  let (b, name) := b.string name
  b.push (.slot name)

def classDef (b : Builder) (slots : List UInt64) : Builder × UInt64 := b.push (.classDef slots)

def global (b : Builder) (index : UInt64) : Builder := { b with slots := b.slots.push index }

def finish (b : Builder) (entry : UInt64) : Program := ⟨b.values, b.slots.toList, entry⟩

end Builder
end SlotVM
