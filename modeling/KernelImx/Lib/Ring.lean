/-
**Circular buffers.**

A buffer is a map from cell numbers to values; only the cells below `size` are used. The lemmas say
what a write that wraps at the end of the buffer does to a read that wraps.
-/

import Mathlib.Data.List.GetD
import Mathlib.Tactic.Ring

namespace KernelImx.Lib

open List Nat Function

variable {α : Type*}

/-! ### Wrapping offsets -/

/-- The number of cells from `start` forward to `stop`. -/
def ringDist (size start stop : Nat) : Nat := (stop + size - start) % size

variable {size : Nat}

theorem add_mod_wrap {a b : Nat} (inside : a < size) (bounded : b ≤ size) :
    (a + b) % size = if a + b < size then a + b else a + b - size := by
  split
  next small => exact mod_eq_of_lt small
  next large =>
    rw [mod_eq_sub_mod (by omega)]
    exact mod_eq_of_lt (by omega)

variable {start stop : Nat}

theorem ringDist_eq (startIn : start < size) (stopIn : stop < size) :
    ringDist size start stop = if start ≤ stop then stop - start else stop + size - start := by
  unfold ringDist
  have shifted : stop + size - start = stop + (size - start) := by omega
  rw [shifted, add_mod_wrap stopIn (by omega)]
  split <;> split <;> omega

variable {count : Nat}

theorem ringDist_behind {index : Nat} (startIn : start < size)
    (ends : (start + count) % size = stop) (fits : count ≤ size) (before : index < count) :
    ringDist size stop ((start + index) % size) = size - count + index := by
  have stopIn : stop < size := ends ▸ mod_lt _ (by omega)
  have cellIn : (start + index) % size < size := mod_lt _ (by omega)
  rw [ringDist_eq stopIn cellIn]
  rw [add_mod_wrap startIn fits] at ends
  rw [add_mod_wrap startIn (by omega : index ≤ size)]
  split at ends <;> split <;> split <;> omega

theorem ringDist_add {index : Nat} (startIn : start < size) (inside : index < size) :
    ringDist size start ((start + index) % size) = index := by
  have cellIn : (start + index) % size < size := mod_lt _ (by omega)
  rw [ringDist_eq startIn cellIn, add_mod_wrap startIn (by omega : index ≤ size)]
  split <;> split <;> omega

theorem mod_add_mod_assoc (size off a b : Nat) : ((off + a) % size + b) % size = (off + (a + b)) % size := by
  rw [mod_add_mod, add_assoc]

/-! ### Copies and wrapping copies -/

variable (cells : Nat → α)

/-- `memcpy` of `source` to the cells from `dst` on. -/
def memcpy (dst : Nat) (source : List α) : Nat → α := fun cell =>
  if cell < dst then cells cell else source.getD (cell - dst) (cells cell)

@[simp] theorem memcpy_nil (dst : Nat) : memcpy cells dst [] = cells := by
  funext cell
  simp [memcpy]

/-- The `count` cells from `off` on. -/
def cellsFrom (off count : Nat) : List α :=
  (range count).map fun index => cells (off + index)

/-- A copy that goes on at cell `0` when it reaches the end of the buffer. -/
def ringWrite (size off : Nat) (source : List α) : Nat → α :=
  memcpy (memcpy cells off (source.take (size - off))) 0 (source.drop (size - off))

/-- The `count` cells from `off` on, wrapping at `size`. -/
def ringRead (size off count : Nat) : List α :=
  (range count).map fun index => cells ((off + index) % size)

@[simp] theorem ringRead_length (size off count : Nat) :
    (ringRead cells size off count).length = count := by
  simp [ringRead]

variable {off : Nat}

theorem ringRead_eq_cellsFrom (offIn : off < size) (fits : count ≤ size) :
    ringRead cells size off count =
      cellsFrom cells off (min count (size - off)) ++
        cellsFrom cells 0 (count - min count (size - off)) := by
  have parts : count = min count (size - off) + (count - min count (size - off)) := by omega
  conv_lhs => rw [ringRead, parts, range_add, map_append, map_map]
  congr 1
  · refine map_congr_left fun index inside => ?_
    have index_lt := mem_range.mp inside
    rw [mod_eq_of_lt (by omega)]
  · refine map_congr_left fun index inside => ?_
    have index_lt := mem_range.mp inside
    have wraps : off + (min count (size - off) + index) = size + index := by omega
    rw [comp_apply, wraps, add_mod_left, mod_eq_of_lt (by omega), zero_add]

/-- A read splits at every point. -/
theorem ringRead_add (size off first second : Nat) :
    ringRead cells size off (first + second) =
      ringRead cells size off first ++ ringRead cells size ((off + first) % size) second := by
  simp only [ringRead, range_add, map_append, map_map]
  congr 1
  refine map_congr_left fun index _ => ?_
  simp only [comp_apply, mod_add_mod_assoc]

theorem memcpy_memcpy_eq_ringWrite (size off : Nat) {first second : List α}
    (fits : first.length ≤ size - off) (wraps : second = [] ∨ first.length = size - off) :
    memcpy (memcpy cells off first) 0 second = ringWrite cells size off (first ++ second) := by
  unfold ringWrite
  rcases wraps with rfl | full
  · rw [append_nil, take_of_length_le fits, drop_eq_nil_of_le fits]
  · rw [← full, take_left, drop_left]

theorem ringWrite_apply {cell : Nat} (source : List α) (offIn : off < size) (cellIn : cell < size)
    (fits : source.length ≤ size) :
    ringWrite cells size off source cell =
      source.getD (ringDist size off cell) (cells cell) := by
  rw [ringDist_eq offIn cellIn]
  simp only [ringWrite, memcpy, getD_eq_getElem?_getD, getElem?_drop, not_lt_zero,
    if_false, Nat.sub_zero]
  by_cases ahead : off ≤ cell
  · -- the first copy covers the cell, the second one stops before `off`
    have beyond : source[size - off + cell]? = none := by
      rw [getElem?_eq_none_iff]
      omega
    rw [beyond, if_pos ahead, if_neg (by omega), Option.getD_none, getElem?_take_of_lt (by omega)]
  · rw [if_neg ahead, if_pos (by omega), show size - off + cell = cell + size - off by omega]

/-- **The frame of a write**: nothing changes outside the `length` cells from `off` on. -/
def FrameFrom (size off length : Nat) (before after : Nat → α) : Prop :=
  ∀ cell, cell < size → length ≤ ringDist size off cell → after cell = before cell

variable {length : Nat}

theorem FrameFrom.trans {first second third : Nat → α}
    (left : FrameFrom size off length first second) (right : FrameFrom size off length second third) :
    FrameFrom size off length first third :=
  fun cell cellIn far => (right cell cellIn far).trans (left cell cellIn far)

theorem ringWrite_frame (source : List α) (offIn : off < size) (fits : source.length ≤ size) :
    FrameFrom size off source.length cells (ringWrite cells size off source) := by
  intro cell cellIn far
  rw [ringWrite_apply cells source offIn cellIn fits, getD_eq_default _ _ far]

theorem FrameFrom.of_later {skip total : Nat} {before after : Nat → α} (offIn : off < size)
    (fits : skip + length ≤ total) (small : total < size)
    (frame : FrameFrom size ((off + skip) % size) length before after) :
    FrameFrom size off total before after := by
  intro cell cellIn far
  refine frame cell cellIn ?_
  have laterIn : (off + skip) % size < size := mod_lt _ (by omega)
  rw [ringDist_eq offIn cellIn] at far
  rw [ringDist_eq laterIn cellIn, add_mod_wrap offIn (by omega : skip ≤ size)]
  split at far <;> split <;> split <;> omega

/-- **A read that ends where a write begins does not see the write.** -/
theorem ringRead_congr_behind {before after : Nat → α} (startIn : start < size)
    (ends : (start + count) % size = stop) (room : count + length ≤ size)
    (frame : FrameFrom size stop length before after) :
    ringRead after size start count = ringRead before size start count := by
  refine map_congr_left fun index inside => ?_
  have index_lt : index < count := mem_range.mp inside
  refine frame _ (mod_lt _ (by omega)) ?_
  rw [ringDist_behind startIn ends (by omega) index_lt]
  omega

/-- A read of what was just written. -/
theorem ringRead_ringWrite_self (source : List α) (offIn : off < size) (fits : source.length ≤ size) :
    ringRead (ringWrite cells size off source) size off source.length = source := by
  refine ext_getElem (by simp) fun index inside inside' => ?_
  have index_lt : index < size := by omega
  simp only [ringRead, getElem_map, getElem_range]
  rw [ringWrite_apply cells source offIn (mod_lt _ (by omega)) fits,
    ringDist_add offIn index_lt, getD_eq_getElem _ _ inside']

end KernelImx.Lib
