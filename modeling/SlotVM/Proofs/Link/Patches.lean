import SlotVM.Link.Image
import SlotVM.Proofs.Code.Patching
import SlotVM.Proofs.Except

namespace SlotVM

namespace Code

theorem alignUp_of_dvd {offset width : Nat} (pos : 0 < width) (aligned : width ∣ offset) :
    alignUp offset width = offset := by
  obtain ⟨k, rfl⟩ := aligned
  have quotient : (width * k + width - 1) / width = k := by
    rw [Nat.add_sub_assoc pos, Nat.mul_add_div pos, Nat.div_eq_of_lt (by omega), Nat.add_zero]
  rw [alignUp, quotient, Nat.mul_comm]

theorem size_align (code : Code) {width : Nat} (pos : 0 < width) :
    (code.align width).size = alignUp code.size width := by
  have above := le_alignUp code.size pos
  simp only [align, size, Array.size_append, Array.size_replicate] at above ⊢
  omega

theorem putField_align (code : Code) {width : Nat} (pos : 0 < width) (n : Nat) :
    (code.align width).putField width n = code.putField width n := by
  have aligned : alignUp (code.align width).size width = (code.align width).size := by
    rw [size_align code pos]
    exact alignUp_of_dvd pos (Nat.dvd_mul_left _ _)
  have again : (code.align width).align width = code.align width := by
    conv => lhs; rw [align, aligned, Nat.sub_self]
    simp
  rw [putField, again, putField]

theorem size_put32 (code : Code) (n : UInt32) : (code.put32 n).size = alignUp code.size 4 + 4 :=
  size_putField code n.toNat (by decide)

theorem patch32?_put (code : Code) (m n : UInt32) (rest : List Scalar) :
    ((code.put32 m).putAll rest).patch32? (alignUp code.size 4) n =
      some ((code.put32 n).putAll rest) := by
  have patched := @patchField?_put code (.u32 m) (.u32 0 n) rfl rest
  simp only [Scalar.format, Format.scalar, Patch.number, Nat.toUInt32_eq, UInt32.ofNat_toNat] at patched
  exact patched

theorem patch64?_put (code : Code) (m n : UInt64) (rest : List Scalar) :
    ((code.put64 m).putAll rest).patch64? (alignUp code.size 8) n =
      some ((code.put64 n).putAll rest) := by
  have patched := @patchField?_put code (.u64 m) (.u64 0 n) rfl rest
  simp only [Scalar.format, Format.scalar, Patch.number, Nat.toUInt64_eq, UInt64.ofNat_toNat] at patched
  exact patched

def fields (instr : Instr) : List Scalar :=
  .byte instr.opcode.toByte ::
    match instr with
    | .null | .array | .ret | .drop => []
    | .int value => [.i32 value]
    | .printf arity format => [.u32 arity, .u64 format]
    | .object nvars index => [.u32 nvars, .u32 index]
    | .slot name | .setSlot name => [.u64 name]
    | .callSlot arity name => [.u32 arity, .u64 name]
    | .call arity target => [.u32 arity, .u64 target]
    | .frame nargs nlocals => [.u32 nargs, .u32 nlocals]
    | .getLocal index | .setLocal index | .getGlobal index | .setGlobal index => [.u32 index]
    | .branch target | .goto target => [.u64 target]

theorem emit_eq_putAll (code : Code) (instr : Instr) : code.emit instr = code.putAll (fields instr) := by
  cases instr <;> rfl

theorem foldl_emit_eq_putAll (code : Code) (instrs : List Instr) :
    instrs.foldl emit code = code.putAll (instrs.flatMap fields) := by
  induction instrs generalizing code with
  | nil => rfl
  | cons instr instrs ih =>
    rw [List.foldl_cons, ih, List.flatMap_cons, emit_eq_putAll, putAll, putAll, putAll, List.foldl_append]

end Code

namespace Sketch

def blank : Sketch → Instr
  | .ready instr => instr
  | .object _ => .object 0 0
  | .call arity _ => .call arity 0
  | .getGlobal _ => .getGlobal 0
  | .setGlobal _ => .setGlobal 0
  | .branch _ => .branch 0
  | .goto _ => .goto 0

theorem opcode_blank (sketch : Sketch) : sketch.blank.opcode = sketch.opcode := by
  cases sketch <;> rfl

def patches (offset : Nat) : Sketch → List Patch
  | .ready _ => []
  | .object index =>
    let first := alignUp offset 4
    [⟨first, .classArity index⟩, ⟨alignUp (first + 4) 4, .classTag index⟩]
  | .call arity name => [⟨alignUp (alignUp offset 4 + 4) 8, .function name arity⟩]
  | .getGlobal name | .setGlobal name => [⟨alignUp offset 4, .global name⟩]
  | .branch name | .goto name => [⟨alignUp offset 8, .label name⟩]

def patchesFrom : Nat → List Sketch → List Patch
  | _, [] => []
  | offset, sketch :: sketches =>
    sketch.patches (offset + 1) ++ patchesFrom (sketch.opcode.endOffset offset) sketches

end Sketch

namespace Scaffold

@[simp] theorem code_opcode (s : Scaffold) (op : Opcode) :
    (s.opcode op).code = s.code.putByte op.toByte := rfl

@[simp] theorem patches_opcode (s : Scaffold) (op : Opcode) : (s.opcode op).patches = s.patches := rfl

@[simp] theorem code_open32 (s : Scaffold) (reference : Reference) :
    (s.open32 reference).code = s.code.put32 0 :=
  Code.putField_align s.code (by decide) 0

@[simp] theorem code_open64 (s : Scaffold) (reference : Reference) :
    (s.open64 reference).code = s.code.put64 0 :=
  Code.putField_align s.code (by decide) 0

@[simp] theorem patches_open32 (s : Scaffold) (reference : Reference) :
    (s.open32 reference).patches.toList =
      s.patches.toList ++ [⟨alignUp s.code.size 4, reference⟩] := by
  simp [open32, Code.size_align]

@[simp] theorem patches_open64 (s : Scaffold) (reference : Reference) :
    (s.open64 reference).patches.toList =
      s.patches.toList ++ [⟨alignUp s.code.size 8, reference⟩] := by
  simp [open64, Code.size_align]

theorem code_write (s : Scaffold) (sketch : Sketch) :
    (s.write sketch).code = s.code.emit sketch.blank := by
  cases sketch with
  | ready instr => rfl
  | object | call | getGlobal | setGlobal | branch | goto =>
    simp [write, Sketch.blank, Code.emit, Instr.opcode]

theorem patches_write (s : Scaffold) (sketch : Sketch) :
    (s.write sketch).patches.toList = s.patches.toList ++ sketch.patches (s.code.size + 1) := by
  cases sketch with
  | ready instr => simp [write, Sketch.patches]
  | object | call | getGlobal | setGlobal | branch | goto =>
    simp [write, Sketch.patches, Code.put32, Code.size_putField]

theorem foldl_write (s : Scaffold) (sketches : List Sketch) :
    (sketches.foldl write s).code = (sketches.map Sketch.blank).foldl Code.emit s.code ∧
      (sketches.foldl write s).patches.toList =
        s.patches.toList ++ Sketch.patchesFrom s.code.size sketches := by
  induction sketches generalizing s with
  | nil => simp [Sketch.patchesFrom]
  | cons sketch sketches ih =>
    obtain ⟨code, patches⟩ := ih (s.write sketch)
    rw [code_write] at code patches
    rw [Code.size_emit, Sketch.opcode_blank, patches_write, List.append_assoc] at patches
    exact ⟨code, patches⟩

end Scaffold

namespace LinkFault

variable {α β : Type}

theorem ofResult_bind (first : Except LinkError α) (rest : α → Except LinkError β) :
    ofResult (first >>= rest) = ofResult first >>= fun a => ofResult (rest a) := by
  cases first <;> rfl

theorem ofResult_map (f : α → β) (result : Except LinkError α) :
    ofResult (result.map f) = f <$> ofResult result := by
  cases result <;> rfl

theorem ofResult_eq_ok_iff {result : Except LinkError α} {a : α} :
    ofResult result = .ok a ↔ result = .ok a := by
  cases result <;> simp [ofResult, Except.mapError]

end LinkFault

namespace Draft

/-- The instruction of a sketch with its open operands known. -/
def close (d : Draft) (p : Program) : Sketch → Except LinkError Instr
  | .ready instr => .ok instr
  | .object index => do
    let place ← d.classPlace p index
    return .object (d.classes.nvars place).toUInt32 place.toUInt32
  | .call arity name => do return .call arity (← d.function p name arity)
  | .getGlobal name => do return .getGlobal (← d.globalPlace name)
  | .setGlobal name => do return .setGlobal (← d.globalPlace name)
  | .branch name => do return .branch (← d.label p name)
  | .goto name => do return .goto (← d.label p name)

def closeAll (d : Draft) (p : Program) : Except LinkError (List Instr) :=
  d.body.toList.mapM (d.close p)

variable (d : Draft) (p : Program)

section
variable {α : Type} {start code : Code} {make : α → Instr} (found : Except LinkError α)
    (rest : List Code.Scalar)

theorem fill32 {operand : α → UInt32} (emits : ∀ a, start.emit (make a) = code.put32 (operand a)) :
    (do LinkFault.ofPatched (((code.put32 0).putAll rest).patch32? (alignUp code.size 4)
      (operand (← LinkFault.ofResult found)))) =
      LinkFault.ofResult ((do return make (← found) : Except LinkError Instr).map
        fun instr => (start.emit instr).putAll rest) := by
  cases found with
  | error e => rfl
  | ok a =>
    have patched := Code.patch32?_put code 0 (operand a) rest
    rw [← emits] at patched
    exact congrArg LinkFault.ofPatched patched

theorem fill64 {operand : α → UInt64} (emits : ∀ a, start.emit (make a) = code.put64 (operand a)) :
    (do LinkFault.ofPatched (((code.put64 0).putAll rest).patch64? (alignUp code.size 8)
      (operand (← LinkFault.ofResult found)))) =
      LinkFault.ofResult ((do return make (← found) : Except LinkError Instr).map
        fun instr => (start.emit instr).putAll rest) := by
  cases found with
  | error e => rfl
  | ok a =>
    have patched := Code.patch64?_put code 0 (operand a) rest
    rw [← emits] at patched
    exact congrArg LinkFault.ofPatched patched

end

theorem close_opcode {d : Draft} {p : Program} {sketch : Sketch} {instr : Instr}
    (closed : d.close p sketch = .ok instr) : instr.opcode = sketch.opcode := by
  cases sketch with
  | ready =>
    cases closed
    rfl
  | _ =>
    obtain ⟨_, -, closed⟩ := bind_eq_ok.mp closed
    cases closed
    rfl

/-- The patches of one instruction fill in its open operands, whatever code follows it. -/
theorem foldlM_patch (code : Code) (sketch : Sketch) (rest : List Code.Scalar) :
    (sketch.patches (code.size + 1)).foldlM (d.patch p) ((code.emit sketch.blank).putAll rest) =
      LinkFault.ofResult ((d.close p sketch).map fun instr => (code.emit instr).putAll rest) := by
  rw [← Code.size_putByte code sketch.opcode.toByte]
  cases sketch with
  | ready instr => rfl
  | object index =>
    simp only [Sketch.patches, List.foldlM_cons, List.foldlM_nil, bind_pure]
    generalize operands : code.putByte (Sketch.object index).opcode.toByte = start
    cases found : d.classPlace p index with
    | error e => simp [Draft.patch, close, found, LinkFault.ofResult, bind, Except.bind, Except.map,
        Except.mapError]
    | ok place =>
      let nvars := (d.classes.nvars place).toUInt32
      -- the second patch is for code in which the first operand is known
      have first : d.patch p (((start.put32 0).put32 0).putAll rest)
          ⟨alignUp start.size 4, .classArity index⟩ =
          .ok (((start.put32 nvars).put32 0).putAll rest) := by
        have patched := Code.patch32?_put start 0 nvars (.u32 0 :: rest)
        rw [Code.putAll_cons, Code.putAll_cons, Code.put] at patched
        simp only [Draft.patch, found]
        exact congrArg LinkFault.ofPatched patched
      have second : d.patch p (((start.put32 nvars).put32 0).putAll rest)
          ⟨alignUp (alignUp start.size 4 + 4) 4, .classTag index⟩ =
          .ok (((start.put32 nvars).put32 place.toUInt32).putAll rest) := by
        have patched := Code.patch32?_put (start.put32 nvars) 0 place.toUInt32 rest
        rw [Code.size_put32] at patched
        simp only [Draft.patch, found]
        exact congrArg LinkFault.ofPatched patched
      subst operands
      rw [close, found]
      exact (congrArg (· >>= _) first).trans second
  | call arity name =>
    simp only [Sketch.patches, List.foldlM_cons, List.foldlM_nil, bind_pure]
    rw [← Code.size_put32 _ arity]
    exact fill64 (d.function p name arity) rest fun _ => rfl
  | getGlobal name | setGlobal name =>
    simp only [Sketch.patches, List.foldlM_cons, List.foldlM_nil, bind_pure]
    exact fill32 (d.globalPlace name) rest fun _ => rfl
  | branch name | goto name =>
    simp only [Sketch.patches, List.foldlM_cons, List.foldlM_nil, bind_pure]
    exact fill64 (d.label p name) rest fun _ => rfl

/-- Patching from the first instruction on: what is behind has its operands, what is ahead has zeros. -/
theorem foldlM_patchesFrom (code : Code) (sketches : List Sketch) :
    (Sketch.patchesFrom code.size sketches).foldlM (d.patch p)
        ((sketches.map Sketch.blank).foldl Code.emit code) =
      LinkFault.ofResult ((sketches.mapM (d.close p)).map fun instrs => instrs.foldl Code.emit code) := by
  induction sketches generalizing code with
  | nil => rfl
  | cons sketch sketches ih =>
    have first := d.foldlM_patch p code sketch ((sketches.map Sketch.blank).flatMap Code.fields)
    rw [← Code.foldl_emit_eq_putAll] at first
    rw [Sketch.patchesFrom, List.foldlM_append, List.map_cons, List.foldl_cons, first, List.mapM_cons]
    cases closed : d.close p sketch with
    | error e => rfl
    | ok instr =>
      have rest := ih (code.emit instr)
      rw [Code.size_emit, close_opcode closed, Code.foldl_emit_eq_putAll] at rest
      apply rest.trans
      cases sketches.mapM (d.close p) <;> rfl

theorem resolvePatches_eq :
    d.resolvePatches p =
      LinkFault.ofResult ((d.closeAll p).map fun instrs => instrs.foldl Code.emit .empty) := by
  obtain ⟨code, patches⟩ := Scaffold.foldl_write .empty d.body.toList
  rw [resolvePatches, scaffold, code, patches]
  exact d.foldlM_patchesFrom p .empty d.body.toList

end Draft

/-- Linking by patches is linking with every operand known before the code is written: the code is the
same, the first error is the same, and no patch misses the code. -/
theorem link_eq (p : Program) :
    link p = LinkFault.ofResult (do
      let d ← Draft.empty.performAll p (Task.all p)
      let instrs ← d.closeAll p
      let entry ← d.entry p
      return d.image (instrs.foldl Code.emit .empty) entry) := by
  simp only [link, LinkFault.ofResult_bind, Draft.resolvePatches_eq, LinkFault.ofResult_map,
    bind_map_left]
  rfl

theorem link_eq_error {p : Program} {fault : LinkFault} (failed : link p = .error fault) :
    ∃ e, fault = .error e := by
  rw [link_eq, LinkFault.ofResult] at failed
  generalize (do
    let d ← Draft.empty.performAll p (Task.all p)
    let instrs ← d.closeAll p
    let entry ← d.entry p
    return d.image (instrs.foldl Code.emit .empty) entry : Except LinkError Image) = result at failed
  cases result with
  | error e => exact ⟨e, (Except.error.inj failed).symm⟩
  | ok image => cases failed

theorem link_eq_ok_iff {p : Program} {image : Image} :
    link p = .ok image ↔ ∃ d instrs entry, Draft.empty.performAll p (Task.all p) = .ok d ∧
      d.closeAll p = .ok instrs ∧ d.entry p = .ok entry ∧
      d.image (instrs.foldl Code.emit .empty) entry = image := by
  rw [link_eq, LinkFault.ofResult_eq_ok_iff]
  simp only [bind_eq_ok, pure, Except.pure, Except.ok.injEq, exists_and_left]

end SlotVM
