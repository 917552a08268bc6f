import SlotVM.Machine.Slots
import SlotVM.Machine.State

namespace SlotVM

def renderFormat (given : Nat) : List Char → List Char → List Value → Except Fault String
  | seen, [], _ => .ok (String.ofList seen.reverse)
  | seen, c :: cs, args =>
    if c = '~' then
      match args with
      | [] => .error (.error (.formatArity given))
      | arg :: args =>
        match arg.toInt? with
        | some n => renderFormat given ((toString n).toList.reverse ++ seen) cs args
        | none => do .error (.error (.typeMismatch .printf (← orCrash arg.typeName)))
    else renderFormat given (c :: seen) cs args

namespace Store

/-- Prints a format with the top `arity` operands and replaces them by null. Nothing is printed and
no operand dropped unless all goes well. -/
def printf (s : Store) (format : String) (arity : Nat) : Effect :=
  if s.stack.size < arity then .error .stackUnderflow s
  else
    match renderFormat arity [] format.toList (s.top arity).toList with
    | .error f => .ofFault f s
    | .ok text =>
      if s.sink.accepts text then
        .done ({ s with sink := s.sink.write text }.dropTop arity |>.push .null)
      else .error Sink.full s

end Store
end SlotVM
