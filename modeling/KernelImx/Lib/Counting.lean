/-
**Counting the places with a property.**

`countP_update`: how the number of places changes when one of them gets or loses the property;
`countP_eq_one`: a number of one leaves no second place.
-/

import Mathlib.Data.List.Nodup

namespace KernelImx.Lib

open List Bool

theorem countP_update {p q : Nat → Bool} {n : Nat} {list : List Nat} (nodup : list.Nodup)
    (member : n ∈ list) (same : ∀ i ∈ list, i ≠ n → q i = p i) :
    list.countP q + (p n).toNat = list.countP p + (q n).toNat := by
  have others : (list.erase n).countP q = (list.erase n).countP p := countP_congr fun i inside => by
    obtain ⟨differs, inside⟩ := nodup.mem_erase_iff.mp inside
    rw [same i inside differs]
  have first := perm_cons_erase member
  rw [first.countP_eq q, first.countP_eq p, countP_cons, countP_cons, others]
  cases p n <;> cases q n <;> simp

theorem countP_eq_one {p : Nat → Bool} {n : Nat} {list : List Nat} (one : list.countP p = 1)
    (member : n ∈ list) (holds : p n = true) : ∀ i ∈ list, i ≠ n → p i = false := by
  obtain ⟨only, is⟩ := length_eq_one_iff.mp (countP_eq_length_filter.symm.trans one)
  have unique i (inside : i ∈ list) (holds : p i = true) : i = only := by
    rw [← mem_singleton, ← is]
    exact mem_filter.mpr ⟨inside, holds⟩
  intro i inside differs
  exact eq_false_iff.mpr fun other =>
    differs ((unique i inside other).trans (unique n member holds).symm)

end KernelImx.Lib
