/-
**Numbers in a byte memory**, least significant byte first.
-/

import Mathlib.Algebra.Order.Ring.Nat

namespace KernelImx.Lib

/-- The number in the `n` bytes at `o`. -/
def load (n : Nat) (m : Nat → BitVec 8) (o : Nat) : Nat :=
  match n with
  | 0 => 0
  | n + 1 => (m o).toNat + 256 * load n m (o + 1)

/-- Write the `n` lowest bytes of `v` at `o`. -/
def store (n : Nat) (m : Nat → BitVec 8) (o v : Nat) : Nat → BitVec 8 :=
  fun a => if o ≤ a ∧ a < o + n then BitVec.ofNat 8 (v / 256 ^ (a - o)) else m a

section Bytes

variable {n o v : Nat} {m m' : Nat → BitVec 8}

theorem load_congr (n : Nat) : ∀ {o : Nat}, (∀ a, o ≤ a → a < o + n → m' a = m a) →
    load n m' o = load n m o := by
  induction n with
  | zero => exact fun _ => rfl
  | succ n ih =>
    intro o same
    rw [load, load, same o le_rfl (by omega),
      ih fun a low high => same a (by omega) (by omega)]

theorem store_apart {a : Nat} (apart : a < o ∨ o + n ≤ a) : store n m o v a = m a :=
  if_neg (by omega)

theorem load_store_part {w : Nat} (n : Nat) : ∀ {k : Nat}, k + n ≤ w →
    load n (store w m o v) (o + k) = v / 256 ^ k % 256 ^ n := by
  induction n with
  | zero =>
    intro k _
    rw [load, pow_zero, Nat.mod_one]
  | succ n ih =>
    intro k fits
    have byte : store w m o v (o + k) = BitVec.ofNat 8 (v / 256 ^ k) := by
      rw [store, if_pos (by omega), Nat.add_sub_cancel_left]
    have rest : load n (store w m o v) (o + k + 1) = v / 256 ^ (k + 1) % 256 ^ n :=
      @ih (k + 1) (by omega)
    rw [load, byte, rest, BitVec.toNat_ofNat, pow_succ 256 k, ← Nat.div_div_eq_div_mul,
      pow_succ' 256 n, Nat.mod_mul]

/-- What is stored is loaded, up to its size. -/
theorem load_store {n w : Nat} (fits : n ≤ w) (m : Nat → BitVec 8) (o v : Nat) :
    load n (store w m o v) o = v % 256 ^ n := by
  have whole := @load_store_part o v m w n 0 (by omega)
  rwa [Nat.add_zero, pow_zero, Nat.div_one] at whole

theorem load_store_apart {k p : Nat} (apart : p + k ≤ o ∨ o + n ≤ p) :
    load k (store n m o v) p = load k m p :=
  load_congr k fun _ low high => store_apart (by omega)

/-! ### Bits -/

/-- A bit of the memory, least significant first. -/
def bitAt (m : Nat → BitVec 8) (i : Nat) : Bool := (m (i / 8)).getLsbD (i % 8)

theorem testBit_load (n : Nat) : ∀ {o k : Nat}, k < 8 * n →
    (load n m o).testBit k = bitAt m (8 * o + k) := by
  induction n with
  | zero => exact fun less => absurd less (Nat.not_lt_zero _)
  | succ n ih =>
    intro o k less
    rw [load, show 256 = 2 ^ 8 from rfl, Nat.add_comm, Nat.testBit_two_pow_mul_add _ (m o).isLt]
    split
    · rw [bitAt, show (8 * o + k) / 8 = o by omega, show (8 * o + k) % 8 = k by omega,
        BitVec.testBit_toNat]
    · rw [ih (by omega), show 8 * (o + 1) + (k - 8) = 8 * o + k by omega]

theorem bitAt_store (i : Nat) : bitAt (store n m o v) i =
    if 8 * o ≤ i ∧ i < 8 * (o + n) then v.testBit (i - 8 * o) else bitAt m i := by
  unfold bitAt store
  by_cases inside : o ≤ i / 8 ∧ i / 8 < o + n
  · rw [if_pos inside, if_pos (by omega), BitVec.getLsbD_ofNat, show 256 = 2 ^ 8 from rfl, ← Nat.pow_mul,
      Nat.testBit_div_two_pow, decide_eq_true (by omega), Bool.true_and,
      show i % 8 + 8 * (i / 8 - o) = i - 8 * o by omega]
  · rw [if_neg inside, if_neg (by omega)]

end Bytes

end KernelImx.Lib
