namespace SlotVM

def alignUp (offset alignment : Nat) : Nat :=
  (offset + alignment - 1) / alignment * alignment

def littleEndian : Nat → Nat → List UInt8
  | 0, _ => []
  | width + 1, n => n.toUInt8 :: littleEndian width (n / 256)

def ofLittleEndian : List UInt8 → Nat
  | [] => 0
  | byte :: bytes => byte.toNat + 256 * ofLittleEndian bytes

structure Code where
  bytes : Array UInt8
deriving DecidableEq

namespace Code

def empty : Code := ⟨#[]⟩

def size (code : Code) : Nat := code.bytes.size

def align (code : Code) (alignment : Nat) : Code :=
  ⟨code.bytes ++ Array.replicate (alignUp code.size alignment - code.size) 0⟩

def putField (code : Code) (width n : Nat) : Code :=
  ⟨(code.align width).bytes ++ littleEndian width n⟩

def putByte (code : Code) (byte : UInt8) : Code := ⟨code.bytes.push byte⟩

def put16 (code : Code) (n : UInt16) : Code := code.putField 2 n.toNat

def put32 (code : Code) (n : UInt32) : Code := code.putField 4 n.toNat

def put64 (code : Code) (n : UInt64) : Code := code.putField 8 n.toNat

def patchField? (code : Code) (width pos n : Nat) : Option Code :=
  if pos + width ≤ code.size then
    some ⟨code.bytes.extract 0 pos ++ littleEndian width n ++
      code.bytes.extract (pos + width) code.size⟩
  else none

def patch32? (code : Code) (pos : Nat) (n : UInt32) : Option Code := code.patchField? 4 pos n.toNat

def patch64? (code : Code) (pos : Nat) (n : UInt64) : Option Code := code.patchField? 8 pos n.toNat

def readByte? (code : Code) (ip : Nat) : Option (UInt8 × Nat) :=
  code.bytes[ip]?.map (·, ip + 1)

/-- The field of `width` bytes at the first multiple of `width` from `ip` on. -/
def readField? (code : Code) (width ip : Nat) : Option (Nat × Nat) :=
  let pos := alignUp ip width
  if pos + width ≤ code.size then
    some (ofLittleEndian (code.bytes.extract pos (pos + width)).toList, pos + width)
  else none

def read32? (code : Code) (ip : Nat) : Option (UInt32 × Nat) :=
  (code.readField? 4 ip).map fun (n, next) => (n.toUInt32, next)

def read64? (code : Code) (ip : Nat) : Option (UInt64 × Nat) :=
  (code.readField? 8 ip).map fun (n, next) => (n.toUInt64, next)

end Code
end SlotVM
