import SlotVM.Link.Image
import SlotVM.Machine.Alloc
import SlotVM.Machine.Call
import SlotVM.Machine.Printf
import SlotVM.Machine.Variables

namespace SlotVM

def Vm.branch (vm : Vm) (target next : Nat) : Outcome :=
  match vm.peek? 0 with
  | none => .error .stackUnderflow vm
  | some v => .next (if v.isTruthy then target else next) (vm.dropTop 1)

/-- A symbol operand; the code has room for more bits than a symbol has. -/
def Symbol.ofOperand (n : UInt64) : Symbol := ⟨n.toUInt32⟩

def Image.selector (image : Image) (name : Symbol) : Selector Nat where
  name := image.symbols.nameOf name
  declares index := ((image.classes.get? index).bind (·.find? name)).map (·.kind)

def Vm.exec (vm : Vm) (image : Image) (next : Nat) : Instr → Outcome
  | .int value => .next next (vm.push (.ofInt value.toInt))
  | .null => .next next (vm.push .null)
  | .printf arity format =>
    match image.strings[format.toNat]? with
    | none => .crash .formatString
    | some text => vm.after next (vm.store.printf text arity.toNat)
  | .array => vm.newArray image.classes next
  | .object nvars index => vm.newObject image.classes nvars.toNat index.toNat next
  | .slot name => vm.after next (vm.store.getSlot (image.selector (.ofOperand name)))
  | .setSlot name => vm.after next (vm.store.setSlot (image.selector (.ofOperand name)))
  | .callSlot arity name => vm.callSlot arity.toNat (image.selector (.ofOperand name)) next
  | .call _ target => vm.jump target.toNat next
  | .frame nargs nlocals => vm.enter nargs.toNat nlocals.toNat next
  | .ret => vm.ret
  | .getLocal index => vm.getLocal index.toNat next
  | .setLocal index => vm.setLocal index.toNat next
  | .getGlobal index => vm.after next (vm.store.getGlobal index.toNat)
  | .setGlobal index => vm.after next (vm.store.setGlobal index.toNat)
  | .branch target => vm.branch target.toNat next
  | .goto target => .next target.toNat vm
  | .drop => vm.after next vm.store.drop

def RuntimeError.ofDecode (e : DecodeError) (ip : Nat) : RuntimeError :=
  match e with
  | .overrun => .codeOverrun ip
  | .badOpcode byte => .badOpcode byte ip

def Vm.step (vm : Vm) (image : Image) (ip : Nat) : Outcome :=
  match image.code.decode ip with
  | .error e => .error (.ofDecode e ip) vm
  | .ok (instr, next) => vm.exec image next instr

end SlotVM
