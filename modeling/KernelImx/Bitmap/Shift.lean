/-
**Shifting a bitmap.**

`__bitmap_shift_right` and `__bitmap_shift_left` of `lib/bitmap.c`, over a memory of 32-bit words. The
bits behind the length of the source may be anything, and the destination may be the source.

Main result: `bitmap_shift`.
-/

import Mathlib.Data.BitVec

namespace KernelImx.Bitmap

open BitVec Function

/-! ### The model -/

abbrev Memory := Nat → BitVec 32

/-- A bit of the bitmap at an address. -/
def bitAt (memory : Memory) (base i : Nat) : Bool := (memory (base + i / 32)).getLsbD (i % 32)

/-- `BITS_TO_LONGS` -/
def bitsToLongs (bits : Nat) : Nat := (bits + 31) / 32

/-- `(1UL << left) - 1` -/
def lowMask (left : Nat) : BitVec 32 := 1#32 <<< left - 1#32

/-- The word `k` of a bitmap, without the bits behind its length. -/
def trim (bits k : Nat) (word : BitVec 32) : BitVec 32 :=
  if bits % 32 ≠ 0 ∧ k + 1 = bitsToLongs bits then word &&& lowMask (bits % 32) else word

/-- The word that a round of `__bitmap_shift_right` stores at `dst[k]`. -/
def shiftedRight (src shift bits : Nat) (memory : Memory) (k : Nat) : BitVec 32 :=
  let next := shift / 32 + k + 1
  let upper :=
    if shift % 32 = 0 ∨ bitsToLongs bits ≤ next then 0 else trim bits next (memory (src + next))
  let lower := trim bits (shift / 32 + k) (memory (src + (shift / 32 + k)))
  trim bits k (upper <<< (32 - shift % 32) ||| lower >>> (shift % 32))

/-- **`__bitmap_shift_right`.** -/
def bitmapShiftRight (memory : Memory) (dst src shift bits : Nat) : Memory :=
  let kept := bitsToLongs bits - shift / 32
  let moved := (List.range kept).foldl (fun memory k =>
    update memory (dst + k) (shiftedRight src shift bits memory k)) memory
  fun address => if dst + kept ≤ address ∧ address < dst + bitsToLongs bits then 0 else moved address

/-- The word that a round of `__bitmap_shift_left` stores at `dst[k + off]`. -/
def shiftedLeft (src shift bits : Nat) (memory : Memory) (k : Nat) : BitVec 32 :=
  let lower := if shift % 32 ≠ 0 ∧ 0 < k then memory (src + (k - 1)) else 0
  let upper := trim bits k (memory (src + k))
  trim bits (k + shift / 32) (lower >>> (32 - shift % 32) ||| upper <<< (shift % 32))

/-- **`__bitmap_shift_left`**, from the last word down. -/
def bitmapShiftLeft (memory : Memory) (dst src shift bits : Nat) : Memory :=
  let kept := bitsToLongs bits - shift / 32
  let moved := (List.range kept).foldl (fun memory round =>
    update memory (dst + (kept - 1 - round + shift / 32))
      (shiftedLeft src shift bits memory (kept - 1 - round))) memory
  fun address => if dst ≤ address ∧ address < dst + shift / 32 then 0 else moved address

/-! ### The loops -/

/-- **A loop that stores a word in each round**: each word is computed from the memory before the
loop. -/
theorem foldl_update {target : Nat → Nat} {word : Memory → Nat → BitVec 32} {memory : Memory} {n : Nat}
    (apart : ∀ k < n, ∀ j < k, target k ≠ target j)
    (stable : ∀ k < n, ∀ current : Memory,
      (∀ address, (∀ j < k, address ≠ target j) → current address = memory address) →
      word current k = word memory k) (address : Nat) :
    (∀ k < n, address = target k → (List.range n).foldl
        (fun memory k => update memory (target k) (word memory k)) memory address = word memory k) ∧
      ((∀ k < n, address ≠ target k) → (List.range n).foldl
        (fun memory k => update memory (target k) (word memory k)) memory address = memory address) := by
  induction n generalizing address with
  | zero => exact ⟨nofun, fun _ => rfl⟩
  | succ n ih =>
    have earlier := ih (fun k less => apart k (by omega)) (fun k less => stable k (by omega))
    rw [List.range_succ, List.foldl_append, List.foldl_cons, List.foldl_nil,
      stable n (by omega) _ fun address => (earlier address).2]
    constructor
    · rintro k less rfl
      rcases Nat.lt_succ_iff_lt_or_eq.mp less with before | rfl
      · rw [update_of_ne (apart n (by omega) k before).symm]
        exact (earlier _).1 k before rfl
      · exact update_self ..
    · intro other
      rw [update_of_ne (other n (by omega))]
      exact (earlier _).2 fun k less => other k (by omega)

/-! ### The words -/

section Words

variable {src shift bits k b : Nat} {memory : Memory}

theorem lowMask_bit : ∀ left < 32, ∀ b < 32, (lowMask left).getLsbD b = decide (b < left) := by
  decide +kernel

theorem trim_bit {word : BitVec 32} (inside : k < bitsToLongs bits) (small : b < 32) :
    (trim bits k word).getLsbD b = (decide (32 * k + b < bits) && word.getLsbD b) := by
  unfold bitsToLongs at inside
  unfold trim bitsToLongs
  split
  · rw [getLsbD_and, lowMask_bit _ (by omega) _ small, Bool.and_comm]
    congr 2
    exact propext (by omega)
  · rw [decide_eq_true (by omega), Bool.true_and]

theorem shiftedRight_bit (inside : shift / 32 + k < bitsToLongs bits) (small : b < 32)
    (short : 32 * k + b < bits) : (shiftedRight src shift bits memory k).getLsbD b =
      (decide (32 * k + b + shift < bits) && bitAt memory src (32 * k + b + shift)) := by
  simp only [shiftedRight]
  rw [trim_bit (by omega) small, decide_eq_true short, Bool.true_and, getLsbD_or,
    getLsbD_shiftLeft, getLsbD_ushiftRight, bitAt]
  by_cases lower : shift % 32 + b < 32
  · rw [trim_bit inside lower, show (32 * k + b + shift) / 32 = shift / 32 + k by omega,
      show (32 * k + b + shift) % 32 = shift % 32 + b by omega,
      show 32 * (shift / 32 + k) + (shift % 32 + b) = 32 * k + b + shift by omega]
    simp [show b < 32 - shift % 32 by omega]
  · rw [getLsbD_of_ge _ (shift % 32 + b) (by omega), Bool.or_false]
    split
    case isTrue last =>
      unfold bitsToLongs at last
      simp [show ¬ 32 * k + b + shift < bits by omega]
    case isFalse more =>
      rw [trim_bit (by omega) (by omega),
        show (32 * k + b + shift) / 32 = shift / 32 + k + 1 by omega,
        show (32 * k + b + shift) % 32 = b - (32 - shift % 32) by omega,
        show 32 * (shift / 32 + k + 1) + (b - (32 - shift % 32)) = 32 * k + b + shift by omega]
      simp [small, show ¬ b < 32 - shift % 32 by omega]

theorem shiftedLeft_bit (inside : k + shift / 32 < bitsToLongs bits) (small : b < 32)
    (short : 32 * (k + shift / 32) + b < bits) : (shiftedLeft src shift bits memory k).getLsbD b =
      (decide (shift ≤ 32 * (k + shift / 32) + b) &&
        bitAt memory src (32 * (k + shift / 32) + b - shift)) := by
  simp only [shiftedLeft]
  rw [trim_bit inside small, decide_eq_true short, Bool.true_and, getLsbD_or, getLsbD_shiftLeft,
    getLsbD_ushiftRight, bitAt]
  by_cases upper : shift % 32 ≤ b
  · rw [getLsbD_of_ge _ (32 - shift % 32 + b) (by omega), trim_bit (by omega) (by omega),
      show (32 * (k + shift / 32) + b - shift) / 32 = k by omega,
      show (32 * (k + shift / 32) + b - shift) % 32 = b - shift % 32 by omega]
    simp [small, show ¬ b < shift % 32 by omega, show shift ≤ 32 * (k + shift / 32) + b by omega,
      show 32 * k + (b - shift % 32) < bits by omega]
  · by_cases first : k = 0
    · simp [first, show b < shift % 32 by omega, show ¬ shift ≤ 32 * (shift / 32) + b by omega]
    · rw [if_pos (by omega), show (32 * (k + shift / 32) + b - shift) / 32 = k - 1 by omega,
        show (32 * (k + shift / 32) + b - shift) % 32 = 32 - shift % 32 + b by omega]
      simp [show b < shift % 32 by omega, show shift ≤ 32 * (k + shift / 32) + b by omega]

end Words

/-! ### The calls -/

/-- **The bits after a shift**, in place or to a destination that does not overlap the source. -/
theorem bitmap_shift (memory : Memory) (dst src shift bits : Nat) (fits : shift ≤ bits)
    (apart : dst = src ∨ dst + bitsToLongs bits ≤ src ∨ src + bitsToLongs bits ≤ dst) (i : Nat)
    (inside : i < bits) :
    bitAt (bitmapShiftRight memory dst src shift bits) dst i =
        (decide (i + shift < bits) && bitAt memory src (i + shift)) ∧
      bitAt (bitmapShiftLeft memory dst src shift bits) dst i =
        (decide (shift ≤ i) && bitAt memory src (i - shift)) := by
  have whole : 32 * (i / 32) + i % 32 = i := Nat.div_add_mod i 32
  have small : i % 32 < 32 := Nat.mod_lt i (by decide)
  have within : i / 32 < bitsToLongs bits := by
    unfold bitsToLongs
    omega
  have full : shift / 32 ≤ bitsToLongs bits := by
    unfold bitsToLongs
    omega
  obtain ⟨kept, split⟩ := Nat.exists_eq_add_of_le full
  have difference : bitsToLongs bits - shift / 32 = kept := by omega
  constructor
  · have loop := @foldl_update (dst + ·) (shiftedRight src shift bits) memory kept
      (fun k _ j less => by omega) (fun k less current same => by
        simp only [shiftedRight]
        rw [same (src + (shift / 32 + k)) fun j before => by omega]
        by_cases last : shift % 32 = 0 ∨ bitsToLongs bits ≤ shift / 32 + k + 1
        · rw [if_pos last, if_pos last]
        · rw [if_neg last, if_neg last, same _ fun j before => by omega]) (dst + i / 32)
    simp only [bitAt, bitmapShiftRight, difference]
    by_cases moved : i / 32 < kept
    · rw [if_neg (by omega), loop.1 (i / 32) moved rfl, shiftedRight_bit (by omega) small (by omega),
        whole, bitAt]
    · unfold bitsToLongs at *
      rw [if_pos (by omega), decide_eq_false (by omega)]
      exact getLsbD_zero
  · have loop := @foldl_update (fun round => dst + (kept - 1 - round + shift / 32))
      (fun memory round => shiftedLeft src shift bits memory (kept - 1 - round)) memory kept
      (fun k _ j less => by omega) (fun round less current same => by
        simp only [shiftedLeft]
        rw [same (src + (kept - 1 - round)) fun j before => by omega]
        split
        · rw [same _ fun j before => by omega]
        · rfl) (dst + i / 32)
    simp only [bitAt, bitmapShiftLeft, difference]
    by_cases moved : shift / 32 ≤ i / 32
    · obtain ⟨k, word⟩ := Nat.exists_eq_add_of_le' moved
      rw [if_neg (by omega), loop.1 (kept - 1 - k) (by omega) (by omega), Nat.sub_sub_self (by omega),
        shiftedLeft_bit (by omega) small (by omega), ← word, whole, bitAt]
    · rw [if_pos (by omega), decide_eq_false (by omega)]
      exact getLsbD_zero

/-- 40 bits are shifted by 33 in place; the other 24 bits of the second word are garbage. -/
theorem bitmap_shift_in_place : 33 ≤ 40 ∧ ∀ i < 40,
    bitAt (bitmapShiftRight (fun _ => allOnes 32) 0 0 33 40) 0 i =
        (decide (i + 33 < 40) && bitAt (fun _ => allOnes 32) 0 (i + 33)) ∧
      bitAt (bitmapShiftLeft (fun _ => allOnes 32) 0 0 33 40) 0 i =
        (decide (33 ≤ i) && bitAt (fun _ => allOnes 32) 0 (i - 33)) :=
  ⟨by decide, fun i inside => bitmap_shift _ 0 0 33 40 (by decide) (.inl rfl) i inside⟩

end KernelImx.Bitmap
