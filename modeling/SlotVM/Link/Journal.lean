import SlotVM.Link.Image
import SlotVM.Report
import SlotVM.Text.Number

namespace SlotVM

namespace Ins

def variantText (name : String) (operands : List (String × Nat)) : String :=
  name ++ " \x7b " ++ ", ".intercalate (operands.map fun (field, n) => field ++ ": " ++ toString n) ++
    " \x7d"

def text : Ins → String
  | .label name => variantText "Label" [("name", name.toNat)]
  | .lit idx => variantText "Lit" [("idx", idx.toNat)]
  | .printf format arity =>
    variantText "Printf" [("format", format.toNat), ("arity", arity.toNat)]
  | .array => "Array"
  | .object index => variantText "Object" [("class", index.toNat)]
  | .slot name => variantText "Slot" [("name", name.toNat)]
  | .setSlot name => variantText "SetSlot" [("name", name.toNat)]
  | .callSlot name arity =>
    variantText "CallSlot" [("name", name.toNat), ("arity", arity.toNat)]
  | .call name arity => variantText "Call" [("name", name.toNat), ("arity", arity.toNat)]
  | .setLocal idx => variantText "SetLocal" [("idx", idx.toNat)]
  | .getLocal idx => variantText "GetLocal" [("idx", idx.toNat)]
  | .setGlobal name => variantText "SetGlobal" [("name", name.toNat)]
  | .getGlobal name => variantText "GetGlobal" [("name", name.toNat)]
  | .branch name => variantText "Branch" [("name", name.toNat)]
  | .goto name => variantText "Goto" [("name", name.toNat)]
  | .ret => "Return"
  | .drop => "Drop"

end Ins

namespace Draft

def announce (d : Draft) (p : Program) : Task → List Report
  | .method index m =>
    [⟨.debug, "method #" ++ toString index.toNat ++ " " ++
      accented ((p.string? m.name).getD "?") ++ " at " ++ toString d.offset ++ " (" ++
      toString m.nargs.toNat ++ " args, " ++ toString m.nlocals.toNat ++ " locals, " ++
      toString m.code.length ++ " instructions)"⟩]
  | .ins _ ins => [⟨.trace, Text.padLeft 6 (toString d.offset) ++ ": " ++ ins.text⟩]
  | _ => []

def conclude (d : Draft) : Task → List Report
  | .classDef index _ =>
    match d.classes.classes.back? with
    | some layout =>
      [⟨.debug, "class #" ++ toString index.toNat ++ ": " ++ toString layout.nvars ++ " vars, " ++
        toString layout.nslots ++ " slots"⟩]
    | none => []
  | _ => []

/-- The reports on a list of tasks up to the first failure, and the draft if there was none. -/
def journal (p : Program) : Draft → Array Report → List Task → Array Report × Option Draft
  | d, log, [] => (log, some d)
  | d, log, task :: tasks =>
    let log := log ++ d.announce p task
    match d.perform p task with
    | .error _ => (log, none)
    | .ok d => journal p d (log ++ d.conclude task) tasks

def closing (d : Draft) (p : Program) : List Report :=
  match d.resolvePatches p with
  | .error _ => []
  | .ok code =>
    let count := d.scaffold.patches.size
    let resolved : Report := ⟨.debug, "resolved " ++ toString count ++ " patches"⟩
    match d.entry p with
    | .error _ => [resolved]
    | .ok entry =>
      let image := d.image code entry
      [resolved, ⟨.debug, "linked " ++ toString image.code.size ++ " bytes of code, " ++
        toString image.classes.size ++ " classes, " ++ toString image.globals.size ++
        " globals, entry at " ++ toString entry⟩]

end Draft

def linkJournal (p : Program) : Array Report :=
  match Draft.empty.journal p #[] (Task.all p) with
  | (log, none) => log
  | (log, some d) => log ++ d.closing p

end SlotVM
