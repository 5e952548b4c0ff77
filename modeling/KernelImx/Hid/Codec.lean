/-
**Fields of HID reports** (drivers/hid/hid-core.c).

A report is a string of bits, least significant first, and a field is `report_count` values of
`report_size` bits in it. The driver reads and writes them as parts of 64-bit words.

* **`hid_round_trip_iff`**: values come back from the report when they fit. `hid_set_field` asks that
  of signed values only.
-/

import KernelImx.Lib.Bytes

namespace KernelImx.Hid

open List BitVec KernelImx.Lib

/-! ### The bits of a report -/

theorem mask_bit {n : Nat} (short : n ≤ 32) (k : Nat) :
    ((1#64 <<< n) - 1).getLsbD k = decide (k < n) := by
  have inWord : ∀ n < 33, ∀ k < 64, ((1#64 <<< n) - 1).getLsbD k = decide (k < n) := by decide +kernel
  by_cases word : k < 64
  · exact inWord n (by omega) k word
  · rw [getLsbD_of_ge _ _ (by omega), decide_eq_false (by omega)]

/-- A memory of bytes; a report is a pointer into it. -/
abbrev Memory := Nat → BitVec 8

def extract (mem : Memory) (report offset n : Nat) : BitVec 32 :=
  let x := BitVec.ofNat 64 (load 8 mem (report + offset / 8))
  ((x >>> (offset % 8)) &&& ((1#64 <<< n) - 1)).setWidth 32

def implement (mem : Memory) (report offset n : Nat) (value : BitVec 32) : Memory :=
  let m := (1#64 <<< n) - 1
  let value := value &&& m.setWidth 32
  let x := BitVec.ofNat 64 (load 8 mem (report + offset / 8))
  let x := x &&& ~~~(m <<< (offset % 8)) ||| value.setWidth 64 <<< (offset % 8)
  store 8 mem (report + offset / 8) x.toNat

/-- A signed number of `n` bits. -/
def snto32 (value : BitVec 32) (n : Nat) : BitVec 32 :=
  if n = 8 then (value.setWidth 8).signExtend 32
  else if n = 16 then (value.setWidth 16).signExtend 32
  else if n = 32 then value
  else if value &&& 1#32 <<< (n - 1) ≠ 0 then value ||| -1#32 <<< n
  else value

/-- The other way, saturating; C leaves `1 << 32` open, `wide` here. -/
def s32ton (wide value : BitVec 32) (n : Nat) : BitVec 32 :=
  let a := value.sshiftRight (n - 1)
  if a ≠ 0 ∧ a ≠ -1 then if value.slt 0 then 1#32 <<< (n - 1) else (1#32 <<< (n - 1)) - 1
  else value &&& ((if n < 32 then 1#32 <<< n else wide) - 1)

/-- `struct hid_field` -/
structure Field where
  reportOffset : Nat
  reportSize : Nat
  reportCount : Nat
  logicalMinimum : Int
  value : Nat → BitVec 32

/-- `hid_set_field`; `none` is -1. -/
def hidSetField (wide : BitVec 32) (field : Field) (offset : Nat) (value : BitVec 32) :
    Option Field :=
  if offset ≥ field.reportCount then none
  else if field.logicalMinimum < 0 ∧
      value ≠ snto32 (s32ton wide value field.reportSize) field.reportSize then none
  else some { field with value := Function.update field.value offset value }

/-- What is written for a value. -/
def Field.sent (wide : BitVec 32) (field : Field) (n : Nat) : BitVec 32 :=
  if field.logicalMinimum < 0 then s32ton wide (field.value n) field.reportSize else field.value n

def hidOutputField (wide : BitVec 32) (report : Nat) (mem : Memory) (field : Field) : Memory :=
  (range field.reportCount).foldl (fun mem n => implement mem report
    (field.reportOffset + n * field.reportSize) field.reportSize (field.sent wide n)) mem

/-- `struct hid_report` -/
structure Report where
  id : BitVec 32
  size : BitVec 32
  field : List Field

/-- Where the fields of a report begin that is written to `data`. -/
def Report.start (report : Report) (data : Nat) : Nat := if report.id > 0 then data + 1 else data

def hidOutputReport (wide : BitVec 32) (report : Report) (mem : Memory) (data : Nat) : Memory :=
  let mem := if report.id > 0 then Function.update mem data (report.id.setWidth 8) else mem
  let mem := store (((report.size - 1) >>> 3).toNat + 1) mem (report.start data) 0
  report.field.foldl (hidOutputField wide (report.start data)) mem

/-- What `hid_input_field` reads as a value of the field. -/
def inputValue (mem : Memory) (report : Nat) (field : Field) (n : Nat) : BitVec 32 :=
  let value := extract mem report (field.reportOffset + n * field.reportSize) field.reportSize
  if field.logicalMinimum < 0 then snto32 value field.reportSize else value

variable {mem : Memory} {report offset n i : Nat} {value wide : BitVec 32}

theorem implement_bit (short : n ≤ 32) : bitAt (implement mem report offset n value) (8 * report + i) =
    if offset ≤ i ∧ i < offset + n then value.getLsbD (i - offset) else bitAt mem (8 * report + i) := by
  unfold implement
  rw [bitAt_store]
  by_cases inside : offset / 8 * 8 ≤ i ∧ i < offset / 8 * 8 + 64
  · obtain ⟨k, rfl⟩ := Nat.exists_eq_add_of_le inside.1
    have word : k < 64 := by omega
    rw [if_pos (by omega), show 8 * report + (offset / 8 * 8 + k) = 8 * (report + offset / 8) + k by omega,
      Nat.add_sub_cancel_left, testBit_toNat, show offset / 8 * 8 + k - offset = k - offset % 8 by omega]
    simp only [getLsbD_or, getLsbD_and, getLsbD_not, getLsbD_shiftLeft, getLsbD_ofNat, getLsbD_setWidth,
      testBit_load 8 word, mask_bit short, word]
    by_cases low : k < offset % 8
    · rw [if_neg (by omega)]
      simp [low]
    by_cases high : k - offset % 8 < n
    · rw [if_pos (by omega)]
      simp [low, high, lt_of_lt_of_le high short, show k - offset % 8 < 64 by omega]
    · rw [if_neg (by omega)]
      simp [high]
  · rw [if_neg (by omega), if_neg (by omega)]

/-- Bits that are those of a value are read as the value, up to its size. -/
theorem extract_eq (short : n ≤ 32)
    (bits : ∀ k < n, bitAt mem (8 * report + (offset + k)) = value.getLsbD k) :
    extract mem report offset n = (value.setWidth n).setWidth 32 := by
  refine eq_of_getLsbD_eq fun k less => ?_
  simp only [extract, getLsbD_setWidth, getLsbD_and, getLsbD_ushiftRight, getLsbD_ofNat, mask_bit short]
  by_cases few : k < n
  · rw [testBit_load 8 (by omega),
      show 8 * (report + offset / 8) + (offset % 8 + k) = 8 * report + (offset + k) by omega, bits k few]
    simp [few, less, show offset % 8 + k < 64 by omega]
  · simp [few]

theorem setWidth_eq_iff : (value.setWidth n).setWidth 32 = value ↔ value.toNat < 2 ^ n := by
  have less : value.toNat % 2 ^ n < 2 ^ 32 := lt_of_le_of_lt (Nat.mod_le _ _) value.isLt
  rw [← toNat_inj, toNat_setWidth, toNat_setWidth, Nat.mod_eq_of_lt less]
  exact Nat.mod_eq_iff_lt (Nat.two_pow_pos n).ne'

theorem power_toNat : ∀ n < 32, (1#32 <<< n).toNat = 2 ^ n ∧ (1#32 <<< n - 1).toNat = 2 ^ n - 1 := by
  decide +kernel

theorem s32ton_lt (pos : 1 ≤ n) (short : n ≤ 32) : (s32ton wide value n).toNat < 2 ^ n := by
  have half : 2 ^ (n - 1) < 2 ^ n := Nat.pow_lt_pow_right (by decide) (by omega)
  obtain ⟨top, low⟩ := power_toNat (n - 1) (by omega)
  unfold s32ton
  dsimp only
  split_ifs with _ _ less
  · rwa [top]
  · rw [low]
    omega
  · rw [toNat_and, (power_toNat n less).2]
    have := @Nat.and_le_right value.toNat (2 ^ n - 1)
    omega
  · obtain rfl : n = 32 := by omega
    exact isLt _

/-! ### Fields -/

/-- A value with its place. -/
structure Slot where
  offset : Nat
  size : Nat
  value : BitVec 32

def Slot.write (report : Nat) (mem : Memory) (slot : Slot) : Memory :=
  implement mem report slot.offset slot.size slot.value

def Field.slots (wide : BitVec 32) (field : Field) : List Slot :=
  (range field.reportCount).map fun n =>
    ⟨field.reportOffset + n * field.reportSize, field.reportSize, field.sent wide n⟩

theorem hidOutputField_eq (wide : BitVec 32) (report : Nat) (mem : Memory) (field : Field) :
    hidOutputField wide report mem field = (field.slots wide).foldl (Slot.write report) mem := by
  rw [Field.slots, foldl_map]
  rfl

variable {slots : List Slot}

theorem foldl_write_outside (short : ∀ slot ∈ slots, slot.size ≤ 32)
    (outside : ∀ slot ∈ slots, i < slot.offset ∨ slot.offset + slot.size ≤ i) :
    bitAt (slots.foldl (Slot.write report) mem) (8 * report + i) = bitAt mem (8 * report + i) := by
  induction slots generalizing mem with
  | nil => rfl
  | cons slot rest ih =>
    rw [forall_mem_cons] at short outside
    rw [foldl_cons, ih short.2 outside.2, Slot.write, implement_bit short.1, if_neg (by omega)]

/-- **Values that lie apart are all there.** -/
theorem foldl_write (short : ∀ slot ∈ slots, slot.size ≤ 32)
    (apart : slots.Pairwise fun one two =>
      one.offset + one.size ≤ two.offset ∨ two.offset + two.size ≤ one.offset) :
    ∀ slot ∈ slots, ∀ k < slot.size, bitAt (slots.foldl (Slot.write report) mem)
      (8 * report + (slot.offset + k)) = slot.value.getLsbD k := by
  induction slots generalizing mem with
  | nil => exact forall_mem_nil _
  | cons first rest ih =>
    rw [forall_mem_cons] at short
    obtain ⟨others, apart⟩ := pairwise_cons.mp apart
    refine forall_mem_cons.mpr ⟨fun k less => ?_, ih short.2 apart⟩
    rw [foldl_cons, foldl_write_outside short.2 fun slot member => by have := others slot member; omega,
      Slot.write, implement_bit short.1, if_pos (by omega), Nat.add_sub_cancel_left]

/-- The fields have 1 to 32 bits and lie apart. -/
structure Report.Proper (report : Report) : Prop where
  sizes : ∀ field ∈ report.field, 1 ≤ field.reportSize ∧ field.reportSize ≤ 32
  apart : report.field.Pairwise fun one two =>
    one.reportOffset + one.reportCount * one.reportSize ≤ two.reportOffset ∨
      two.reportOffset + two.reportCount * two.reportSize ≤ one.reportOffset

/-- Every value is one that `hid_set_field` accepts. -/
abbrev Report.Assigned (wide : BitVec 32) (report : Report) : Prop :=
  ∀ field ∈ report.field, ∀ n < field.reportCount, (hidSetField wide field n (field.value n)).isSome

theorem slot_inside {field : Field} {slot : Slot} (member : slot ∈ field.slots wide) :
    field.reportOffset ≤ slot.offset ∧ slot.size = field.reportSize ∧
      slot.offset + slot.size ≤ field.reportOffset + field.reportCount * field.reportSize := by
  obtain ⟨n, less, rfl⟩ := mem_map.mp member
  have := Nat.mul_le_mul_right field.reportSize (Nat.succ_le_of_lt (mem_range.mp less))
  rw [Nat.succ_mul] at this
  exact ⟨Nat.le_add_right _ _, rfl, by dsimp only; omega⟩

theorem Report.Proper.slots_apart {report : Report} (proper : report.Proper) (wide : BitVec 32) :
    (report.field.flatMap (Field.slots wide)).Pairwise fun one two =>
      one.offset + one.size ≤ two.offset ∨ two.offset + two.size ≤ one.offset := by
  refine pairwise_flatMap.mpr ⟨fun field member => ?_, proper.apart.imp fun apart one inOne two inTwo => ?_⟩
  · refine pairwise_map.mpr (pairwise_lt_range.imp fun {n k} less => .inl ?_)
    have := Nat.mul_le_mul_right field.reportSize (Nat.succ_le_of_lt less)
    rw [Nat.succ_mul] at this
    dsimp only
    omega
  · have := slot_inside inOne
    have := slot_inside inTwo
    omega

theorem hidSetField_isSome {field : Field} : (hidSetField wide field n value).isSome ↔
    n < field.reportCount ∧ (field.logicalMinimum < 0 →
      snto32 (s32ton wide value field.reportSize) field.reportSize = value) := by
  unfold hidSetField
  split_ifs with outside unfit
  · simp [outside]
  · exact iff_of_false (by simp) fun both => unfit.2 (both.2 unfit.1).symm
  · simpa [eq_comm (a := value), not_le.mp outside] using unfit

/-- **The round trip**: every value is read back, and a field leaves the bits of the others. -/
structure RoundTrips (wide : BitVec 32) (report : Report) (mem : Memory) (data : Nat) : Prop where
  back : ∀ field ∈ report.field, ∀ n < field.reportCount,
    inputValue (hidOutputReport wide report mem data) (report.start data) field n = field.value n
  frame : ∀ field ∈ report.field, ∀ mem i, (i < field.reportOffset ∨
      field.reportOffset + field.reportCount * field.reportSize ≤ i) →
    bitAt (hidOutputField wide (report.start data) mem field) (8 * report.start data + i) =
      bitAt mem (8 * report.start data + i)

/-- **Values come back when they fit.** -/
theorem hid_round_trip_iff (wide : BitVec 32) (report : Report) (mem : Memory) (data : Nat)
    (proper : report.Proper) (assigned : report.Assigned wide) :
    RoundTrips wide report mem data ↔ ∀ field ∈ report.field, 0 ≤ field.logicalMinimum →
      ∀ n < field.reportCount, (field.value n).toNat < 2 ^ field.reportSize := by
  have read : ∀ field ∈ report.field, ∀ n < field.reportCount,
      extract (hidOutputReport wide report mem data) (report.start data)
        (field.reportOffset + n * field.reportSize) field.reportSize =
        ((field.sent wide n).setWidth field.reportSize).setWidth 32 := by
    intro field member n less
    obtain ⟨cleared, whole⟩ : ∃ cleared, hidOutputReport wide report mem data =
        (report.field.flatMap (Field.slots wide)).foldl (Slot.write (report.start data)) cleared := by
      simp only [foldl_flatMap, ← hidOutputField_eq]
      exact ⟨_, rfl⟩
    rw [whole]
    refine extract_eq (proper.sizes field member).2 (foldl_write (fun slot inReport => ?_)
      (proper.slots_apart wide) ⟨_, field.reportSize, _⟩
      (mem_flatMap.mpr ⟨field, member, mem_map.mpr ⟨n, mem_range.mpr less, rfl⟩⟩))
    obtain ⟨other, inReport, inField⟩ := mem_flatMap.mp inReport
    exact (slot_inside inField).2.1 ▸ (proper.sizes other inReport).2
  constructor
  · intro trips field member unsigned n less
    have back := trips.back field member n less
    rw [inputValue, read field member n less, Field.sent, if_neg (not_lt.mpr unsigned),
      if_neg (not_lt.mpr unsigned)] at back
    exact setWidth_eq_iff.mp back
  refine fun fits => ⟨fun field member n less => ?_, fun field member mem i outside => ?_⟩
  · have sizes := proper.sizes field member
    dsimp only [inputValue]
    rw [read field member n less, Field.sent]
    by_cases signed : field.logicalMinimum < 0
    · rw [if_pos signed, if_pos signed, setWidth_eq_iff.mpr (s32ton_lt sizes.1 sizes.2)]
      exact (hidSetField_isSome.mp (assigned field member n less)).2 signed
    · rw [if_neg signed, if_neg signed]
      exact setWidth_eq_iff.mpr (fits field member (not_lt.mp signed) n less)
  · rw [hidOutputField_eq]
    refine foldl_write_outside (fun slot inField => ?_) fun slot inField => ?_
    · exact (slot_inside inField).2.1 ▸ (proper.sizes field member).2
    · have := slot_inside inField
      omega

/-- A signed field of 4 bits and an unsigned one of 9 bits behind it, across a byte. -/
def twoFields (value : BitVec 32) : Report :=
  ⟨1, 13, [⟨0, 4, 1, -8, fun _ => -3#32⟩, ⟨4, 9, 1, 0, fun _ => value⟩]⟩

theorem hid_round_trip_iff_two : (twoFields 300#32).Proper ∧
    RoundTrips 0 (twoFields 300#32) (fun _ => 0) 0 := by
  have proper : (twoFields 300#32).Proper := ⟨by decide, by decide⟩
  exact ⟨proper, (hid_round_trip_iff 0 _ _ 0 proper (by decide)).mpr (by decide)⟩

/-- **A value of ten bits in a field of nine** is accepted, and 88 comes back for 600. -/
theorem large_value_cut : (twoFields 600#32).Proper ∧ (twoFields 600#32).Assigned 0 ∧
    ¬ RoundTrips 0 (twoFields 600#32) (fun _ => 0) 0 := by
  refine ⟨⟨by decide, by decide⟩, by decide, fun trips => ?_⟩
  exact absurd (trips.back _ (mem_cons_of_mem _ mem_cons_self) 0 (by decide)) (by decide)

end KernelImx.Hid
