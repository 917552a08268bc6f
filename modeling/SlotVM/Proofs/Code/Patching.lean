import SlotVM.Proofs.Code.RoundTrip
import Mathlib.Data.List.Induction

namespace SlotVM.Code

inductive Format where
  | byte
  | u32
  | i32
  | u64

def Format.width : Format → Nat
  | .byte => 1
  | .u32 | .i32 => 4
  | .u64 => 8

inductive Scalar where
  | byte (n : UInt8)
  | u32 (n : UInt32)
  | i32 (n : Int32)
  | u64 (n : UInt64)

def Format.scalar : Format → Nat → Scalar
  | .byte, n => .byte n.toUInt8
  | .u32, n => .u32 n.toUInt32
  | .i32, n => .i32 n.toUInt32.toInt32
  | .u64, n => .u64 n.toUInt64

namespace Scalar

def format : Scalar → Format
  | .byte _ => .byte
  | .u32 _ => .u32
  | .i32 _ => .i32
  | .u64 _ => .u64

def width (x : Scalar) : Nat := x.format.width

def number : Scalar → Nat
  | .byte n => n.toNat
  | .u32 n => n.toNat
  | .i32 n => n.toUInt32.toNat
  | .u64 n => n.toNat

end Scalar

def put (code : Code) : Scalar → Code
  | .byte n => code.putByte n
  | .u32 n => code.put32 n
  | .i32 n => code.put32 n.toUInt32
  | .u64 n => code.put64 n

def read? (code : Code) (ip : Nat) : Format → Option (Scalar × Nat)
  | .byte => (code.readByte? ip).map fun (n, next) => (.byte n, next)
  | .u32 => (code.read32? ip).map fun (n, next) => (.u32 n, next)
  | .i32 => (code.read32? ip).map fun (n, next) => (.i32 n.toInt32, next)
  | .u64 => (code.read64? ip).map fun (n, next) => (.u64 n, next)

def putAll (code : Code) (xs : List Scalar) : Code := xs.foldl put code

def readAll? (code : Code) : Nat → List Format → Option (List Scalar × Nat)
  | ip, [] => some ([], ip)
  | ip, format :: formats => do
    let (x, next) ← code.read? ip format
    let (xs, stop) ← code.readAll? next formats
    return (x :: xs, stop)

structure Cell where
  place : Nat
  scalar : Scalar

def Cell.stop (cell : Cell) : Nat := cell.place + cell.scalar.width

/-- The fields of a run of writes: each ends where the buffer ends after its write. -/
def cells (code : Code) : List Scalar → List Cell
  | [] => []
  | x :: xs => ⟨(code.put x).size - x.width, x⟩ :: cells (code.put x) xs

inductive Patch where
  | u32 (place : Nat) (n : UInt32)
  | u64 (place : Nat) (n : UInt64)

namespace Patch

def place : Patch → Nat
  | .u32 place _ | .u64 place _ => place

def width : Patch → Nat
  | .u32 _ _ => 4
  | .u64 _ _ => 8

def number : Patch → Nat
  | .u32 _ n => n.toNat
  | .u64 _ n => n.toNat

def Aims (patch : Patch) (cell : Cell) : Prop :=
  patch.place = cell.place ∧ patch.width = cell.scalar.width

instance (patch : Patch) (cell : Cell) : Decidable (patch.Aims cell) :=
  inferInstanceAs (Decidable (_ ∧ _))

end Patch

def patch? (code : Code) : Patch → Option Code
  | .u32 place n => code.patch32? place n
  | .u64 place n => code.patch64? place n

def patchAll? (code : Code) (patches : List Patch) : Option Code := patches.foldlM patch? code

/-- The field with the number last patched into it, or as it was written. -/
def Cell.patched (patches : List Patch) (cell : Cell) : Cell :=
  match patches.reverse.find? (·.place = cell.place) with
  | some patch => ⟨cell.place, cell.scalar.format.scalar patch.number⟩
  | none => cell

theorem putByte_eq_putField (code : Code) (n : UInt8) : code.putByte n = code.putField 1 n.toNat := by
  have none : alignUp code.size 1 - code.size = 0 := by simp [alignUp]
  simp [putByte, putField, align, none, littleEndian]

theorem put_eq_putField (code : Code) (x : Scalar) : code.put x = code.putField x.width x.number := by
  cases x with
  | byte n => exact putByte_eq_putField code n
  | u32 n | i32 n | u64 n => rfl

theorem Scalar.width_pos (x : Scalar) : 0 < x.width := by
  cases x <;> simp [width, format, Format.width]

theorem Scalar.format_scalar (format : Format) (n : Nat) : (format.scalar n).format = format := by
  cases format <;> rfl

theorem patch?_eq (code : Code) (patch : Patch) :
    code.patch? patch = code.patchField? patch.width patch.place patch.number := by
  cases patch <;> rfl

theorem number_scalar {patch : Patch} {format : Format} (same : patch.width = format.width) :
    (format.scalar patch.number).number = patch.number := by
  cases patch <;> cases format <;>
    simp_all [Patch.width, Format.width, Patch.number, Format.scalar, Scalar.number]

theorem put_begins (code : Code) (x : Scalar) : Begins code (code.put x) := by
  rw [put_eq_putField]
  exact putField_begins code x.width x.number

theorem size_put (code : Code) (x : Scalar) :
    (code.put x).size = alignUp code.size x.width + x.width := by
  rw [put_eq_putField, size_putField code x.number x.width_pos]

theorem Begins.read? {code full : Code} {x : Scalar} (begins : Begins (code.put x) full) :
    full.read? code.size x.format = some (x, (code.put x).size) := by
  cases x with
  | byte n =>
    have byte := Begins.byte begins
    simp [Code.read?, Scalar.format, readByte?, byte, put]
  | u32 n =>
    have read := Begins.read32 begins
    simp [Code.read?, Scalar.format, read, put]
  | i32 n =>
    have read := Begins.read32 begins
    simp [Code.read?, Scalar.format, read, put]
  | u64 n =>
    have read := Begins.read64 begins
    simp [Code.read?, Scalar.format, read, put]

theorem putAll_begins (code : Code) (xs : List Scalar) : Begins code (code.putAll xs) := by
  induction xs generalizing code with
  | nil => exact List.prefix_rfl
  | cons x xs ih => exact (put_begins code x).trans (ih (code.put x))

theorem Begins.readAll? {code full : Code} {xs : List Scalar} (begins : Begins (code.putAll xs) full) :
    full.readAll? code.size (xs.map Scalar.format) = some (xs, (code.putAll xs).size) := by
  induction xs generalizing code with
  | nil => rfl
  | cons x xs ih =>
    have first := Begins.read? ((putAll_begins (code.put x) xs).trans begins)
    have rest := ih begins
    simp [Code.readAll?, first, rest, putAll]

theorem map_cells (code : Code) (xs : List Scalar) : (code.cells xs).map Cell.scalar = xs := by
  induction xs generalizing code with
  | nil => rfl
  | cons x xs ih => rw [cells, List.map_cons, ih]

theorem cells_cons (code : Code) (x : Scalar) (xs : List Scalar) :
    code.cells (x :: xs) = ⟨alignUp code.size x.width, x⟩ :: (code.put x).cells xs := by
  rw [cells, size_put, Nat.add_sub_cancel]

theorem putAll_cons (code : Code) (x : Scalar) (xs : List Scalar) :
    code.putAll (x :: xs) = (code.put x).putAll xs := rfl

theorem size_le_place {code : Code} {xs : List Scalar} {cell : Cell} (here : cell ∈ code.cells xs) :
    code.size ≤ cell.place := by
  induction xs generalizing code with
  | nil => cases here
  | cons x xs ih =>
    have above := le_alignUp code.size x.width_pos
    rw [cells_cons] at here
    rcases List.mem_cons.mp here with rfl | later
    · exact above
    · have next := ih later
      rw [size_put] at next
      omega

theorem Begins.getElem? {code full : Code} (begins : Begins code full) {i : Nat}
    (inside : i < code.size) : full.bytes[i]? = code.bytes[i]? := by
  obtain ⟨rest, bytes⟩ := begins
  rw [size_eq_length] at inside
  rw [← Array.getElem?_toList, ← bytes, List.getElem?_append_left inside, Array.getElem?_toList]

def fieldBytes (size : Nat) (x : Scalar) : List UInt8 :=
  List.replicate (alignUp size x.width - size) 0 ++ littleEndian x.width x.number

theorem toList_put (code : Code) (x : Scalar) :
    (code.put x).bytes.toList = code.bytes.toList ++ fieldBytes code.size x := by
  rw [put_eq_putField, toList_putField, fieldBytes]

theorem toList_putAll {code code' : Code} (same : code.size = code'.size) (xs : List Scalar) :
    ∃ rest, (code.putAll xs).bytes.toList = code.bytes.toList ++ rest ∧
      (code'.putAll xs).bytes.toList = code'.bytes.toList ++ rest := by
  -- what a write adds depends on the size of the buffer only
  induction xs generalizing code code' with
  | nil => exact ⟨[], by simp [putAll], by simp [putAll]⟩
  | cons x xs ih =>
    obtain ⟨rest, left, right⟩ := ih (show (code.put x).size = (code'.put x).size by
      rw [size_put, size_put, same])
    rw [toList_put, List.append_assoc] at left right
    exact ⟨fieldBytes code.size x ++ rest, left, same ▸ right⟩

theorem put_padding {code : Code} {x : Scalar} {i : Nat} (above : code.size ≤ i)
    (below : i < alignUp code.size x.width) : (code.put x).bytes[i]? = some 0 := by
  rw [← Array.getElem?_toList, toList_put, fieldBytes, size_eq_length] at *
  rw [List.getElem?_append_right above, List.getElem?_append_left, List.getElem?_replicate, if_pos]
  · omega
  · rw [List.length_replicate]
    omega

/-- The bytes of `after` behind those of `before`: fields at their places, and zeros between them. -/
structure Laid (before after : Code) (cells : List Cell) : Prop where
  aligned : ∀ cell ∈ cells, cell.scalar.width ∣ cell.place
  apart : cells.Pairwise fun cell later => cell.stop ≤ later.place
  stored : ∀ cell ∈ cells, (after.bytes.extract cell.place cell.stop).toList =
    littleEndian cell.scalar.width cell.scalar.number
  padding : ∀ i, before.size ≤ i → i < after.size →
    (∀ cell ∈ cells, i < cell.place ∨ cell.stop ≤ i) → after.bytes[i]? = some 0
  kept : ∀ i, i < before.size → after.bytes[i]? = before.bytes[i]?

theorem laid_putAll (code : Code) (xs : List Scalar) : Laid code (code.putAll xs) (code.cells xs) := by
  induction xs generalizing code with
  | nil =>
    refine ⟨nofun, .nil, nofun, ?_, fun _ _ => rfl⟩
    intro i above below
    exact absurd above (Nat.not_le.mpr below)
  | cons x xs ih =>
    have later := ih (code.put x)
    have size := size_put code x
    have begins := putAll_begins (code.put x) xs
    rw [cells_cons, putAll_cons]
    refine ⟨?_, ?_, ?_, ?_, ?_⟩
    · exact List.forall_mem_cons.mpr ⟨Nat.dvd_mul_left _ _, later.aligned⟩
    · refine List.pairwise_cons.mpr ⟨fun cell here => ?_, later.apart⟩
      rw [Cell.stop, ← size]
      exact size_le_place here
    · rw [put_eq_putField] at begins
      refine List.forall_mem_cons.mpr ⟨?_, later.stored⟩
      rw [put_eq_putField]
      exact begins.extract x.width_pos
    · intro i above below outside
      obtain ⟨here, others⟩ := List.forall_mem_cons.mp outside
      rw [Cell.stop, ← size] at here
      rcases here with before | beyond
      · change i < alignUp code.size x.width at before
        rw [begins.getElem? (by omega)]
        exact put_padding above before
      · exact later.padding i beyond below others
    · intro i inside
      exact (putAll_begins code (x :: xs)).getElem? inside

theorem patchField?_middle {full : Code} {before old after : List UInt8}
    (bytes : full.bytes.toList = before ++ (old ++ after)) (n : Nat) :
    full.patchField? old.length before.length n =
      some ⟨(before ++ (littleEndian old.length n ++ after)).toArray⟩ := by
  have size : full.size = before.length + (old.length + after.length) := by
    rw [size_eq_length, bytes, List.length_append, List.length_append]
  have first : full.bytes.extract 0 before.length = before.toArray := by
    apply Array.toList_inj.mp
    rw [Array.toList_extract, bytes, List.extract_eq_take_drop]
    simp
  have last : full.bytes.extract (before.length + old.length) full.size = after.toArray := by
    apply Array.toList_inj.mp
    rw [Array.toList_extract, bytes, size, List.extract_eq_take_drop, ← List.append_assoc,
      List.drop_left' (by simp), List.take_of_length_le (by omega)]
  rw [patchField?, if_pos (by omega), first, last]
  simp

theorem Cell.patched_one (patch : Patch) (cell : Cell) :
    cell.patched [patch] = if patch.place = cell.place then
      ⟨cell.place, cell.scalar.format.scalar patch.number⟩ else cell := by
  by_cases same : patch.place = cell.place <;> simp [patched, same]

theorem patchField?_put (code : Code) {x : Scalar} {patch : Patch} (same : patch.width = x.width)
    (xs : List Scalar) :
    ((code.put x).putAll xs).patchField? patch.width (alignUp code.size x.width) patch.number =
      some ((code.put (x.format.scalar patch.number)).putAll xs) := by
  have number : (x.format.scalar patch.number).number = patch.number := number_scalar same
  have width : (x.format.scalar patch.number).width = x.width := by
    rw [Scalar.width, Scalar.format_scalar, Scalar.width]
  have sizes : (code.put x).size = (code.put (x.format.scalar patch.number)).size := by
    rw [size_put, size_put, width]
  obtain ⟨rest, left, right⟩ := toList_putAll sizes xs
  rw [toList_put, fieldBytes] at left right
  rw [number, width] at right
  have start : (code.bytes.toList ++ List.replicate (alignUp code.size x.width - code.size) 0).length =
      alignUp code.size x.width := by
    have above := le_alignUp code.size x.width_pos
    rw [List.length_append, List.length_replicate, ← size_eq_length]
    omega
  simp only [← List.append_assoc] at left right
  rw [List.append_assoc] at left
  have middle := patchField?_middle left patch.number
  rw [start, length_littleEndian, ← List.append_assoc, ← right] at middle
  rw [same, middle]

theorem patch?_putAll {code : Code} {xs : List Scalar} {patch : Patch}
    (aimed : ∃ cell ∈ code.cells xs, patch.Aims cell) :
    (code.putAll xs).patch? patch =
      some (code.putAll ((code.cells xs).map fun cell => (cell.patched [patch]).scalar)) := by
  rw [patch?_eq]
  induction xs generalizing code with
  | nil =>
    obtain ⟨cell, here, -⟩ := aimed
    cases here
  | cons x xs ih =>
    obtain ⟨cell, here, place, width⟩ := aimed
    have behind : ∀ cell ∈ (code.put x).cells xs, alignUp code.size x.width ≠ cell.place := by
      intro cell later
      have above := size_le_place later
      have some_byte := x.width_pos
      rw [size_put] at above
      omega
    rw [cells_cons] at here ⊢
    rw [putAll_cons, List.map_cons, putAll_cons, Cell.patched_one]
    rcases List.mem_cons.mp here with rfl | later
    · have others : ((code.put x).cells xs).map (fun cell => (cell.patched [patch]).scalar) = xs := by
        conv => rhs; rw [← map_cells (code.put x) xs]
        apply List.map_congr_left
        intro cell later
        rw [Cell.patched_one, place, if_neg (behind cell later)]
      rw [if_pos place, others, place]
      exact patchField?_put code width xs
    · rw [if_neg (fun same => behind cell later (same.symm.trans place))]
      exact ih ⟨cell, later, place, width⟩

theorem Cell.place_patched (patches : List Patch) (cell : Cell) :
    (cell.patched patches).place = cell.place := by
  unfold patched
  split <;> rfl

theorem Cell.format_patched (patches : List Patch) (cell : Cell) :
    (cell.patched patches).scalar.format = cell.scalar.format := by
  unfold patched
  split
  · exact Scalar.format_scalar _ _
  · rfl

theorem Cell.width_patched (patches : List Patch) (cell : Cell) :
    (cell.patched patches).scalar.width = cell.scalar.width := by
  rw [Scalar.width, format_patched, Scalar.width]

theorem Cell.patched_snoc (patches : List Patch) (patch : Patch) (cell : Cell) :
    (cell.patched patches).patched [patch] = cell.patched (patches ++ [patch]) := by
  rw [patched_one, place_patched, format_patched]
  by_cases same : patch.place = cell.place <;> simp [patched, same]

theorem cells_patched (patches : List Patch) {code code' : Code} (same : code.size = code'.size)
    (xs : List Scalar) :
    code'.cells ((code.cells xs).map fun cell => (cell.patched patches).scalar) =
      (code.cells xs).map (Cell.patched patches) := by
  -- a place depends on the widths of the fields before it, which patches keep
  induction xs generalizing code code' with
  | nil => rfl
  | cons x xs ih =>
    have width := Cell.width_patched patches ⟨alignUp code.size x.width, x⟩
    have place := Cell.place_patched patches ⟨alignUp code.size x.width, x⟩
    have sizes : (code.put x).size =
        (code'.put (Cell.patched patches ⟨alignUp code.size x.width, x⟩).scalar).size := by
      rw [size_put, size_put, width, same]
    rw [cells_cons, List.map_cons, List.map_cons, cells_cons, ih sizes, width, ← same]
    exact congrArg (· :: _) (congrArg (Cell.mk · _) place.symm)

theorem patchAll?_putAll {code : Code} {xs : List Scalar} {patches : List Patch}
    (aimed : ∀ patch ∈ patches, ∃ cell ∈ code.cells xs, patch.Aims cell) :
    (code.putAll xs).patchAll? patches =
      some (code.putAll ((code.cells xs).map fun cell => (cell.patched patches).scalar)) := by
  -- the patches so far have given a buffer of written fields, which the last one patches again
  induction patches using List.reverseRecOn with
  | nil =>
    conv => lhs; rw [← map_cells code xs]
    rfl
  | append_singleton patches patch ih =>
    have earlier := ih fun patch here => aimed patch (List.mem_append_left _ here)
    obtain ⟨cell, here, place, width⟩ := aimed patch (by simp)
    have cells : code.cells ((code.cells xs).map fun cell => (cell.patched patches).scalar) =
        (code.cells xs).map (Cell.patched patches) := cells_patched patches rfl xs
    have aims : patch.Aims (cell.patched patches) := by
      rw [Patch.Aims, Cell.place_patched, Cell.width_patched]
      exact ⟨place, width⟩
    have last := patch?_putAll ⟨_, cells ▸ List.mem_map_of_mem here, aims⟩
    rw [cells, List.map_map] at last
    simp only [Function.comp_def, Cell.patched_snoc] at last
    rw [patchAll?, List.foldlM_append]
    change (code.putAll xs).patchAll? patches >>= _ = _
    rw [earlier]
    simpa using last

/-- Fields written from any offset and then patched read back as they were last set, each at its natural
alignment and with nothing but zeros between them; what stood before is unchanged. -/
theorem patched_fields_read_back (code : Code) (written : List Scalar) (patches : List Patch)
    (aimed : ∀ patch ∈ patches, ∃ cell ∈ code.cells written, patch.Aims cell) :
    ∃ final, (code.putAll written).patchAll? patches = some final ∧
      final.readAll? code.size (written.map Scalar.format) =
        some ((code.cells written).map fun cell => (cell.patched patches).scalar, final.size) ∧
      Laid code final ((code.cells written).map (Cell.patched patches)) := by
  refine ⟨_, patchAll?_putAll aimed, ?_, ?_⟩
  · have formats : ((code.cells written).map fun cell => (cell.patched patches).scalar).map
        Scalar.format = written.map Scalar.format := by
      rw [List.map_map]
      conv => rhs; rw [← map_cells code written, List.map_map]
      exact List.map_congr_left fun cell _ => Cell.format_patched patches cell
    rw [← formats]
    exact Begins.readAll? List.prefix_rfl
  · rw [← cells_patched patches rfl written]
    exact laid_putAll code _

theorem fields_from_three_read_back :
    ∃ final,
      (putAll ⟨#[7, 7, 7]⟩ [.byte 1, .i32 (-2), .byte 4, .u64 5, .byte 9, .u32 3]).patchAll?
        [.u64 16 11, .u32 4 0xFFFFFFF0, .u64 16 99] = some final ∧
      final.readAll? 3 [.byte, .i32, .byte, .u64, .byte, .u32] =
        some ([.byte 1, .i32 (-16), .byte 4, .u64 99, .byte 9, .u32 3], final.size) ∧
      Laid ⟨#[7, 7, 7]⟩ final
        [⟨3, .byte 1⟩, ⟨4, .i32 (-16)⟩, ⟨8, .byte 4⟩, ⟨16, .u64 99⟩, ⟨24, .byte 9⟩, ⟨28, .u32 3⟩] :=
  patched_fields_read_back ⟨#[7, 7, 7]⟩ [.byte 1, .i32 (-2), .byte 4, .u64 5, .byte 9, .u32 3]
    [.u64 16 11, .u32 4 0xFFFFFFF0, .u64 16 99] (by decide)

end SlotVM.Code
