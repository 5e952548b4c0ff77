/-
**The pages of an address space.**

What an address space says about an address is the page of the area that covers it: its flags, its
file and its offset in the file (`pageOf`, `pagesOf`). Flags are compared under a mask, since two
areas that differ in `VM_CAN_NONLINEAR` only may be merged.

Main result: `repaint`.
-/

import KernelImx.Lib.Segments
import KernelImx.Mmap.Vmas

namespace KernelImx.Mmap

open List KernelImx.Lib Nat

/-! ### Pages -/

/-- The flags under a mask, the file and the offset of an address. -/
structure Page where
  flags : Flags
  file : Option Nat
  offset : Pgoff
  deriving DecidableEq, Repr

def pageOf (mask : Flags) (vma : Vma) (addr : Nat) : Page :=
  ⟨vma.vmFlags &&& mask, vma.vmFile, vma.vmPgoff + pages (addr - vma.vmStart)⟩

def pagesOf (mask : Flags) (mmap : List Vma) (addr : Nat) : Option Page :=
  valueAt Vma.vmStart Vma.vmEnd (pageOf mask) mmap addr

theorem pages_eq (bytes : Nat) : pages bytes = BitVec.ofNat 32 (bytes / pageSize) := by
  rw [pages, shiftRight_eq_div_pow]
  rfl

theorem pages_add {low middle high : Nat} (lower : low ≤ middle) (upper : middle ≤ high)
    (alignedLow : pageSize ∣ low) (aligned : pageSize ∣ middle) :
    pages (high - low) = pages (middle - low) + pages (high - middle) := by
  have sum : (high - low) / pageSize = (middle - low) / pageSize + (high - middle) / pageSize := by
    unfold pageSize at *
    omega
  rw [pages_eq, pages_eq, pages_eq, sum, BitVec.ofNat_add]

/-! ### Lists of areas -/

/-- What the areas of an address space keep. -/
@[mk_iff] structure Areas (mask : Flags) (ignored : Option Nat → Flags) (mmap : List Vma) : Prop where
  ascending : Ascending Vma.vmStart Vma.vmEnd mmap
  aligned : ∀ vma ∈ mmap, pageSize ∣ vma.vmStart ∧ pageSize ∣ vma.vmEnd
  loyal : ∀ vma ∈ mmap, vma.vmFlags &&& vmCanNonlinear &&& mask = ignored vma.vmFile

/-- Two lists of areas with the same pages. -/
structure Same (mask : Flags) (ignored : Option Nat → Flags) (one two : List Vma) : Prop where
  areas : Areas mask ignored one ↔ Areas mask ignored two
  pages : ∀ addr, pagesOf mask one addr = pagesOf mask two addr

variable {mask : Flags} {ignored : Option Nat → Flags}

theorem Same.refl (mmap : List Vma) : Same mask ignored mmap mmap := ⟨Iff.rfl, fun _ => rfl⟩

theorem Same.symm {one two : List Vma} (same : Same mask ignored one two) :
    Same mask ignored two one :=
  ⟨same.areas.symm, fun addr => (same.pages addr).symm⟩

theorem Same.trans {one two three : List Vma} (first : Same mask ignored one two)
    (second : Same mask ignored two three) : Same mask ignored one three :=
  ⟨first.areas.trans second.areas, fun addr => (first.pages addr).trans (second.pages addr)⟩

/-- Two neighbours and the area that covers both. -/
structure Joins (mask : Flags) (whole one two : Vma) : Prop where
  start : one.vmStart = whole.vmStart
  middle : one.vmEnd = two.vmStart
  stop : two.vmEnd = whole.vmEnd
  lower : one.vmStart < one.vmEnd
  upper : two.vmStart < two.vmEnd
  lowerFlags : one.vmFlags &&& mask = whole.vmFlags &&& mask
  upperFlags : two.vmFlags &&& mask = whole.vmFlags &&& mask
  lowerFile : one.vmFile = whole.vmFile
  upperFile : two.vmFile = whole.vmFile
  lowerOffset : one.vmPgoff = whole.vmPgoff
  upperOffset : two.vmPgoff = whole.vmPgoff + pages (two.vmStart - whole.vmStart)
  alignedStart : pageSize ∣ whole.vmStart
  aligned : pageSize ∣ two.vmStart

section Joins

variable {whole one two : Vma} (joins : Joins mask whole one two)

include joins

theorem Joins.cut : Cut Vma.vmStart Vma.vmEnd (pageOf mask) whole one two := by
  refine ⟨joins.start, joins.middle, joins.stop, joins.lower, joins.upper, ?_, ?_⟩
  · intro addr _ _
    rw [pageOf, pageOf, joins.lowerFlags, joins.lowerFile, joins.lowerOffset, joins.start]
  intro addr reached _
  have below : whole.vmStart ≤ two.vmStart := by
    rw [← joins.start, ← joins.middle]
    exact le_of_lt joins.lower
  rw [pageOf, pageOf, joins.upperFlags, joins.upperFile, joins.upperOffset,
    pages_add below reached joins.alignedStart joins.aligned, add_assoc]

theorem Joins.loyal_iff : ((one.vmFlags &&& vmCanNonlinear &&& mask = ignored one.vmFile) ∧
    two.vmFlags &&& vmCanNonlinear &&& mask = ignored two.vmFile) ↔
      whole.vmFlags &&& vmCanNonlinear &&& mask = ignored whole.vmFile := by
  have through (flags : Flags) :
      flags &&& vmCanNonlinear &&& mask = flags &&& mask &&& vmCanNonlinear := by
    rw [BitVec.and_assoc, BitVec.and_comm vmCanNonlinear, ← BitVec.and_assoc]
  rw [through, through, through, joins.lowerFlags, joins.upperFlags, joins.lowerFile,
    joins.upperFile]
  exact and_self_iff

theorem Joins.same (front back : List Vma) :
    Same mask ignored (front ++ one :: two :: back) (front ++ whole :: back) := by
  refine ⟨?_, fun addr => joins.cut.valueAt_eq⟩
  have boundaries : (((pageSize ∣ one.vmStart ∧ pageSize ∣ one.vmEnd) ∧
      pageSize ∣ two.vmStart ∧ pageSize ∣ two.vmEnd)) ↔
        (pageSize ∣ whole.vmStart ∧ pageSize ∣ whole.vmEnd) := by
    rw [joins.start, joins.middle, joins.stop]
    have := joins.aligned
    tauto
  simp only [areas_iff, joins.cut.ascending, forall_mem_append, forall_mem_cons, ← boundaries,
    ← joins.loyal_iff, and_assoc]

end Joins

/-! ### New flags for a part -/

/-- The pages after those from `start` to `stop` have got new flags. -/
def Repainted (mask : Flags) (before after : List Vma) (start stop : Nat) (newflags : Flags) :
    Prop :=
  ∀ addr, pagesOf mask after addr =
    if start ≤ addr ∧ addr < stop then
      (pagesOf mask before addr).map fun page => { page with flags := newflags &&& mask }
    else pagesOf mask before addr

/-- An area between two lists with the same pages gets new flags: those of its own addresses change,
and nothing else. -/
theorem repaint {before after front back : List Vma} {piece : Vma} {newflags : Flags}
    (cut : Same mask ignored before (front ++ piece :: back))
    (joined : Same mask ignored (front ++ { piece with vmFlags := newflags } :: back) after)
    (areas : Areas mask ignored before)
    (kept : newflags &&& vmCanNonlinear = piece.vmFlags &&& vmCanNonlinear) :
    Areas mask ignored after ∧
      Repainted mask before after piece.vmStart piece.vmEnd newflags := by
  obtain ⟨ascending, aligned, loyal⟩ := cut.areas.mp areas
  have renewed := @Ascending.renew _ _ _ _ _ _ { piece with vmFlags := newflags } ascending rfl rfl
  constructor
  · refine joined.areas.mp ⟨renewed, ?_, ?_⟩
    · simpa only [forall_mem_append, forall_mem_cons] using aligned
    · simpa only [forall_mem_append, forall_mem_cons, kept] using loyal
  intro addr
  rw [← joined.pages addr, cut.pages addr, pagesOf, pagesOf, renewed.valueAt_middle,
    ascending.valueAt_middle]
  split_ifs
  · rfl
  · rfl

theorem Areas.pagesOf_member {mmap : List Vma} {vma : Vma} {addr : Nat}
    (areas : Areas mask ignored mmap) (member : vma ∈ mmap) (reached : vma.vmStart ≤ addr)
    (short : addr < vma.vmEnd) : pagesOf mask mmap addr = some (pageOf mask vma addr) := by
  obtain ⟨front, back, rfl⟩ := append_of_mem member
  rw [pagesOf, areas.ascending.valueAt_middle, if_pos ⟨reached, short⟩]

end KernelImx.Mmap
