/-
**Rational approximation** (lib/rational.c).

The convergents of a fraction are calculated until one leaves the limits. An `unsigned long` has 32
bits; the numbers are naturals, reduced where the code can wrap.

* **`rational_best_approximation`**: the result is within the limits, is a fraction unless the whole
  part is too large, and is exact if the reduced fraction is within the limits. Otherwise a fraction
  between two convergents can be nearer.
-/

import Mathlib.Data.Nat.Cast.Field
import Mathlib.Tactic.NormNum
import Mathlib.Tactic.Ring

namespace KernelImx.Rational

/-- The loop, with `d` as its measure -/
def convergents (maxN maxD n d n0 d0 n1 d1 : Nat) : Nat × Nat :=
  if n1 > maxN ∨ d1 > maxD then (n0, d0)
  else if d = 0 then (n1, d1)
  else convergents maxN maxD d (n % d) n1 d1 ((n0 + n / d * n1) % 2 ^ 32) ((d0 + n / d * d1) % 2 ^ 32)
termination_by d
decreasing_by exact Nat.mod_lt n (Nat.pos_of_ne_zero ‹_›)

/-- `rational_best_approximation` -/
def rationalBestApproximation (givenN givenD maxN maxD : Nat) : Nat × Nat :=
  convergents maxN maxD givenN givenD 0 1 1 0

/-- No fraction within the limits is nearer to the given one. -/
def Best (givenN givenD maxN maxD : Nat) (best : Nat × Nat) : Prop :=
  best.1 ≤ maxN ∧ 1 ≤ best.2 ∧ best.2 ≤ maxD ∧ ∀ p q : Nat, p ≤ maxN → 1 ≤ q → q ≤ maxD →
    |(givenN / givenD - best.1 / best.2 : ℚ)| ≤ |(givenN / givenD - p / q : ℚ)|

/-- Two neighbouring convergents and what is left of the given fraction. -/
structure Convergent (givenN givenD n d n0 d0 n1 d1 : Nat) : Prop where
  common : Nat.gcd n d = Nat.gcd givenN givenD
  upper : givenN = n * n1 + d * n0
  lower : givenD = n * d1 + d * d0

variable {givenN givenD maxN maxD n d n0 d0 n1 d1 : Nat}

/-- A term of the recurrence stays below the given number. -/
theorem term_le {given a b : Nat} (is : given = n * b + d * a) (more : 0 < d) :
    a + n / d * b ≤ given := by
  have whole := Nat.div_add_mod n d
  calc a + n / d * b ≤ d * (a + n / d * b) := Nat.le_mul_of_pos_left _ more
    _ ≤ d * (a + n / d * b) + n % d * b := Nat.le_add_right _ _
    _ = (d * (n / d) + n % d) * b + d * a := by ring
    _ = given := by rw [whole, is]

theorem term_next {given a b : Nat} (is : given = n * b + d * a) :
    given = d * (a + n / d * b) + n % d * b := by
  have whole := Nat.div_add_mod n d
  calc given = (d * (n / d) + n % d) * b + d * a := by rw [whole, is]
    _ = d * (a + n / d * b) + n % d * b := by ring

theorem Convergent.next (stands : Convergent givenN givenD n d n0 d0 n1 d1) :
    Convergent givenN givenD d (n % d) n1 d1 (n0 + n / d * n1) (d0 + n / d * d1) where
  common := by rw [← stands.common, Nat.gcd_comm n d, Nat.gcd_rec d n, Nat.gcd_comm d]
  upper := term_next stands.upper
  lower := term_next stands.lower

/-- The convergents do not pass the reduced fraction. -/
theorem Convergent.le (stands : Convergent givenN givenD n d n0 d0 n1 d1) (more : 0 < n) :
    n1 ≤ givenN / Nat.gcd givenN givenD ∧ d1 ≤ givenD / Nat.gcd givenN givenD := by
  have positive : 0 < Nat.gcd givenN givenD := stands.common ▸ Nat.gcd_pos_of_pos_left d more
  have small : Nat.gcd givenN givenD ≤ n := stands.common ▸ Nat.gcd_le_left d more
  rw [Nat.le_div_iff_mul_le positive, Nat.le_div_iff_mul_le positive, mul_comm, mul_comm d1]
  have upper := Nat.mul_le_mul_right n1 small
  have lower := Nat.mul_le_mul_right d1 small
  have := stands.upper
  have := stands.lower
  omega

theorem convergents_spec (fitsN : givenN < 2 ^ 32) (fitsD : givenD < 2 ^ 32)
    (stands : Convergent givenN givenD n d n0 d0 n1 d1) (less : d < n)
    (inside : n0 ≤ maxN ∧ d0 ≤ maxD) :
    (convergents maxN maxD n d n0 d0 n1 d1).1 ≤ maxN ∧
      (convergents maxN maxD n d n0 d0 n1 d1).2 ≤ maxD ∧
      (1 ≤ d1 → 1 ≤ d0 ∨ n1 ≤ maxN ∧ d1 ≤ maxD → 1 ≤ (convergents maxN maxD n d n0 d0 n1 d1).2) ∧
      (givenN / Nat.gcd givenN givenD ≤ maxN → givenD / Nat.gcd givenN givenD ≤ maxD →
        convergents maxN maxD n d n0 d0 n1 d1 =
          (givenN / Nat.gcd givenN givenD, givenD / Nat.gcd givenN givenD)) := by
  induction n, d, n0, d0, n1, d1 using convergents.induct maxN maxD with
  | case1 n d n0 d0 n1 d1 outside =>
    rw [convergents, if_pos outside]
    refine ⟨inside.1, inside.2, fun _ => by omega, fun upper lower => ?_⟩
    have := stands.le (Nat.zero_lt_of_lt less)
    omega
  | case2 n n0 d0 n1 d1 within =>
    rw [convergents, if_neg within, if_pos rfl]
    obtain ⟨common, upper, lower⟩ := stands
    rw [Nat.gcd_zero_right] at common
    rw [zero_mul, add_zero] at upper lower
    refine ⟨by omega, by omega, fun low _ => low, fun _ _ => ?_⟩
    rw [← common, Nat.div_eq_of_eq_mul_right less upper, Nat.div_eq_of_eq_mul_right less lower]
  | case3 n d n0 d0 n1 d1 within more ih =>
    have more := Nat.pos_of_ne_zero more
    have upper := (term_le stands.upper more).trans_lt fitsN
    have lower := (term_le stands.lower more).trans_lt fitsD
    rw [Nat.mod_eq_of_lt upper, Nat.mod_eq_of_lt lower] at ih
    rw [convergents, if_neg within, if_neg more.ne', Nat.mod_eq_of_lt upper, Nat.mod_eq_of_lt lower]
    obtain ⟨inN, inD, low, exactly⟩ := ih stands.next (Nat.mod_lt n more) (by omega)
    refine ⟨inN, inD, fun first _ => low ?_ (.inl first), exactly⟩
    exact le_add_left (Nat.mul_pos (Nat.div_pos less.le more) first)

/-- **Rational approximation.** -/
theorem rational_best_approximation (someD : 1 ≤ givenD) (fitsN : givenN < 2 ^ 32)
    (fitsD : givenD < 2 ^ 32) (roomN : 1 ≤ maxN) (roomD : 1 ≤ maxD) :
    ((rationalBestApproximation givenN givenD maxN maxD).1 ≤ maxN ∧
      (rationalBestApproximation givenN givenD maxN maxD).2 ≤ maxD ∧
      (1 ≤ (rationalBestApproximation givenN givenD maxN maxD).2 ↔ givenN / givenD ≤ maxN)) ∧
    (givenN / Nat.gcd givenN givenD ≤ maxN → givenD / Nat.gcd givenN givenD ≤ maxD →
      Best givenN givenD maxN maxD (rationalBestApproximation givenN givenD maxN maxD)) := by
  have start : Convergent givenN givenD givenN givenD 0 1 1 0 := ⟨rfl, by simp, by simp⟩
  have step : rationalBestApproximation givenN givenD maxN maxD = convergents maxN maxD givenD
      (givenN % givenD) 1 0 (0 + givenN / givenD * 1) (1 + givenN / givenD * 0) := by
    rw [rationalBestApproximation, convergents, if_neg (by omega), if_neg (by omega),
      Nat.mod_eq_of_lt ((term_le start.upper someD).trans_lt fitsN),
      Nat.mod_eq_of_lt ((term_le start.lower someD).trans_lt fitsD)]
  obtain ⟨inN, inD, low, exactly⟩ :=
    convergents_spec fitsN fitsD start.next (Nat.mod_lt givenN someD) ⟨roomN, Nat.zero_le maxD⟩
  rw [← step] at inN inD low exactly
  refine ⟨⟨inN, inD, fun isFraction => ?_, fun whole => low (by omega) (by omega)⟩, fun upper lower => ?_⟩
  · by_contra large
    rw [step, convergents, if_pos (by omega)] at isFraction
    cases isFraction
  rw [exactly upper lower]
  have common := Nat.gcd_pos_of_pos_right givenN someD
  have nonzero : (Nat.gcd givenN givenD : ℚ) ≠ 0 := Nat.cast_ne_zero.mpr common.ne'
  have same : (givenN / givenD : ℚ) = (givenN / Nat.gcd givenN givenD : Nat) /
      (givenD / Nat.gcd givenN givenD : Nat) := by
    rw [Nat.cast_div (Nat.gcd_dvd_left ..) nonzero, Nat.cast_div (Nat.gcd_dvd_right ..) nonzero,
      div_div_div_cancel_right₀ nonzero]
  refine ⟨upper, Nat.div_pos (Nat.gcd_le_right _ someD) common, lower, fun p q _ _ _ => ?_⟩
  rw [same, sub_self, abs_zero]
  exact abs_nonneg _

theorem rational_best_approximation_pi :
    Best 355 113 1023 255 (rationalBestApproximation 355 113 1023 255) :=
  (rational_best_approximation (by decide) (by decide) (by decide) (by decide) (by decide)).2
    (by decide) (by decide)

/-- With denominators up to 9, 13/10 is nearer to 9/7 than to its convergent 4/3. -/
theorem intermediate_fraction_missed :
    ¬ Best 13 10 9 9 (rationalBestApproximation 13 10 9 9) := by
  have result : rationalBestApproximation 13 10 9 9 = (4, 3) := by
    simp [rationalBestApproximation, convergents]
  rw [result]
  intro best
  have nearer := best.2.2.2 9 7 (by decide) (by decide) (by decide)
  norm_num at nearer

end KernelImx.Rational
