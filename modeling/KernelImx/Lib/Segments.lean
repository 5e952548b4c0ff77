/-
**Ascending lists of segments.**

Each item of a list holds the points from `lo item` up to, not including, `hi item`, and gives each
of them a value. In an `Ascending` list the segments are non-empty and follow each other.

* **`Ascending.replace`**: the items of a window are replaced by others of the same window: the list
  stays ascending and no point outside of the window changes.
-/

import Mathlib.Data.List.Basic

namespace KernelImx.Lib

open List Option

variable {Item Value : Type*} (lo hi : Item → Nat)

/-- Non-empty segments, each behind those before it. -/
structure Ascending (items : List Item) : Prop where
  nonempty : ∀ item ∈ items, lo item < hi item
  apart : items.Pairwise fun first second => hi first ≤ lo second

def itemAt (items : List Item) (point : Nat) : Option Item :=
  items.find? fun item => lo item ≤ point && point < hi item

/-- The value of a point. -/
def valueAt (value : Item → Nat → Value) (items : List Item) (point : Nat) : Option Value :=
  (itemAt lo hi items point).map fun item => value item point

def Within (items : List Item) (first last : Nat) : Prop :=
  ∀ item ∈ items, first ≤ lo item ∧ hi item ≤ last

variable {lo hi} {value : Item → Nat → Value} {item : Item} {items front middle back : List Item}
  {first last point : Nat}

theorem Ascending.nil : Ascending lo hi [] :=
  ⟨fun _ member => absurd member not_mem_nil, Pairwise.nil⟩

theorem ascending_append : Ascending lo hi (front ++ back) ↔
    Ascending lo hi front ∧ Ascending lo hi back ∧
      ∀ one ∈ front, ∀ two ∈ back, hi one ≤ lo two := by
  constructor
  · rintro ⟨nonempty, apart⟩
    obtain ⟨inFront, inBack⟩ := forall_mem_append.mp nonempty
    obtain ⟨one, two, between⟩ := pairwise_append.mp apart
    exact ⟨⟨inFront, one⟩, ⟨inBack, two⟩, between⟩
  · rintro ⟨one, two, between⟩
    exact ⟨forall_mem_append.mpr ⟨one.nonempty, two.nonempty⟩,
      pairwise_append.mpr ⟨one.apart, two.apart, between⟩⟩

theorem ascending_cons : Ascending lo hi (item :: items) ↔
    lo item < hi item ∧ Ascending lo hi items ∧ ∀ other ∈ items, hi item ≤ lo other := by
  constructor
  · rintro ⟨nonempty, apart⟩
    obtain ⟨own, inRest⟩ := forall_mem_cons.mp nonempty
    obtain ⟨after, rest⟩ := pairwise_cons.mp apart
    exact ⟨own, ⟨inRest, rest⟩, after⟩
  · rintro ⟨own, rest, after⟩
    exact ⟨forall_mem_cons.mpr ⟨own, rest.nonempty⟩,
      pairwise_cons.mpr ⟨after, rest.apart⟩⟩

/-! ### Lookup -/

theorem itemAt_eq_none_iff : itemAt lo hi items point = none ↔
    ∀ item ∈ items, lo item ≤ point → hi item ≤ point := by
  rw [itemAt, find?_eq_none]
  refine forall₂_congr fun item _ => ?_
  rw [Bool.and_eq_true, decide_eq_true_eq, decide_eq_true_eq, not_and, Nat.not_lt]

theorem itemAt_cons : itemAt lo hi (item :: items) point =
    if lo item ≤ point ∧ point < hi item then some item else itemAt lo hi items point := by
  rw [itemAt, find?_cons]
  by_cases here : lo item ≤ point ∧ point < hi item
  · rw [if_pos here, decide_eq_true here.1, decide_eq_true here.2]
    rfl
  · have off : (decide (lo item ≤ point) && decide (point < hi item)) = false := by
      simpa using here
    rw [if_neg here, off]
    rfl

theorem itemAt_append : itemAt lo hi (front ++ back) point =
    (itemAt lo hi front point).or (itemAt lo hi back point) := by
  rw [itemAt, find?_append]
  rfl

theorem valueAt_cons : valueAt lo hi value (item :: items) point =
    if lo item ≤ point ∧ point < hi item then some (value item point)
    else valueAt lo hi value items point := by
  rw [valueAt, itemAt_cons]
  split
  · rfl
  · rfl

/-! ### Windows -/

/-- **A list read through a window.** -/
theorem valueAt_window (before : ∀ item ∈ front, hi item ≤ first)
    (within : Within lo hi middle first last) (ordered : first ≤ last)
    (after : ∀ item ∈ back, last ≤ lo item) :
    valueAt lo hi value (front ++ (middle ++ back)) point =
      if point < first then valueAt lo hi value front point
      else if point < last then valueAt lo hi value middle point
      else valueAt lo hi value back point := by
  have inFront : first ≤ point → itemAt lo hi front point = none := fun reached =>
    itemAt_eq_none_iff.mpr fun item member _ => Nat.le_trans (before item member) reached
  have inMiddle : point < first ∨ last ≤ point → itemAt lo hi middle point = none := fun outside =>
    itemAt_eq_none_iff.mpr fun item member _ => by
      have := within item member
      omega
  have inBack : point < last → itemAt lo hi back point = none := fun short =>
    itemAt_eq_none_iff.mpr fun item member _ => by
      have := after item member
      omega
  rw [valueAt, valueAt, valueAt, valueAt, itemAt_append, itemAt_append]
  split
  case isTrue short =>
    rw [inMiddle (.inl short), inBack (Nat.lt_of_lt_of_le short ordered), or_none,
      or_none]
  case isFalse reached =>
    rw [inFront (Nat.not_lt.mp reached), none_or]
    split
    case isTrue inside => rw [inBack inside, or_none]
    case isFalse beyond => rw [inMiddle (.inr (Nat.not_lt.mp beyond)), none_or]

/-- **The items of a window are replaced.** -/
theorem Ascending.replace {items : List Item} (ascending : Ascending lo hi (front ++ (middle ++ back)))
    (new : Ascending lo hi items) (before : ∀ item ∈ front, hi item ≤ first)
    (within : Within lo hi middle first last) (within' : Within lo hi items first last)
    (ordered : first ≤ last) (after : ∀ item ∈ back, last ≤ lo item) :
    Ascending lo hi (front ++ (items ++ back)) ∧
      ∀ point, valueAt lo hi value (front ++ (items ++ back)) point =
        if first ≤ point ∧ point < last then valueAt lo hi value items point
        else valueAt lo hi value (front ++ (middle ++ back)) point := by
  obtain ⟨inFront, rest, -⟩ := ascending_append.mp ascending
  obtain ⟨-, inBack, -⟩ := ascending_append.mp rest
  constructor
  · refine ascending_append.mpr ⟨inFront, ascending_append.mpr ⟨new, inBack, ?_⟩, ?_⟩
    · intro one inNew two later
      exact Nat.le_trans (within' one inNew).2 (after two later)
    · intro one earlier two later
      rcases mem_append.mp later with inNew | inBack
      · exact Nat.le_trans (before one earlier) (within' two inNew).1
      · exact Nat.le_trans (before one earlier) (Nat.le_trans ordered (after two inBack))
  intro point
  rw [valueAt_window before within' ordered after, valueAt_window before within ordered after]
  by_cases short : point < first
  · rw [if_pos short, if_pos short, if_neg (by omega)]
  rw [if_neg short, if_neg short]
  by_cases inside : point < last
  · rw [if_pos inside, if_pos ⟨Nat.not_lt.mp short, inside⟩]
  · rw [if_neg inside, if_neg inside, if_neg (fun both => inside both.2)]

/-! ### Cuts -/

theorem valueAt_append : valueAt lo hi value (front ++ back) point =
    (valueAt lo hi value front point).or (valueAt lo hi value back point) := by
  rw [valueAt, valueAt, valueAt, itemAt_append]
  cases itemAt lo hi front point with
  | none | some found => rfl

/-- An item and the two that are left of it when it is cut. -/
structure Cut (lo hi : Item → Nat) (value : Item → Nat → Value) (whole one two : Item) : Prop where
  first : lo one = lo whole
  middle : hi one = lo two
  last : hi two = hi whole
  lower : lo one < hi one
  upper : lo two < hi two
  lowerValue : ∀ point, lo one ≤ point → point < hi one → value one point = value whole point
  upperValue : ∀ point, lo two ≤ point → point < hi two → value two point = value whole point

section Cut

variable {whole one two : Item} (cut : Cut lo hi value whole one two)

include cut

theorem Cut.ascending : Ascending lo hi (front ++ one :: two :: back) ↔
    Ascending lo hi (front ++ whole :: back) := by
  obtain ⟨first, middle, last, lower, upper, -, -⟩ := cut
  simp only [ascending_append, ascending_cons, forall_mem_cons]
  constructor
  · rintro ⟨inFront, ⟨-, ⟨-, inBack, after⟩, -⟩, before⟩
    refine ⟨inFront, ⟨by omega, inBack, fun other member => last ▸ after other member⟩, ?_⟩
    intro item member
    obtain ⟨toOne, -, toBack⟩ := before item member
    exact ⟨first ▸ toOne, toBack⟩
  rintro ⟨inFront, ⟨-, inBack, after⟩, before⟩
  have later : ∀ other ∈ back, hi two ≤ lo other := fun other member => last ▸ after other member
  refine ⟨inFront, ⟨lower, ⟨upper, inBack, later⟩, by omega, ?_⟩, ?_⟩
  · intro other member
    have := later other member
    omega
  · intro item member
    obtain ⟨toWhole, toBack⟩ := before item member
    exact ⟨by omega, by omega, toBack⟩

theorem Cut.valueAt_eq : valueAt lo hi value (front ++ one :: two :: back) point =
    valueAt lo hi value (front ++ whole :: back) point := by
  obtain ⟨first, middle, last, lower, upper, lowerValue, upperValue⟩ := cut
  rw [valueAt_append, valueAt_append, valueAt_cons, valueAt_cons, valueAt_cons]
  congr 1
  by_cases inOne : lo one ≤ point ∧ point < hi one
  · rw [if_pos inOne, if_pos (by omega), lowerValue point inOne.1 inOne.2]
  rw [if_neg inOne]
  by_cases inTwo : lo two ≤ point ∧ point < hi two
  · rw [if_pos inTwo, if_pos (by omega), upperValue point inTwo.1 inTwo.2]
  · rw [if_neg inTwo, if_neg (by omega)]

end Cut

/-- A list with and without one of its items. -/
theorem Ascending.valueAt_middle (ascending : Ascending lo hi (front ++ item :: back)) :
    valueAt lo hi value (front ++ item :: back) point =
      if lo item ≤ point ∧ point < hi item then some (value item point)
      else valueAt lo hi value (front ++ back) point := by
  obtain ⟨-, -, before⟩ := ascending_append.mp ascending
  rw [valueAt_append, valueAt_cons]
  split
  case isTrue covers =>
    have inFront : itemAt lo hi front point = none := itemAt_eq_none_iff.mpr fun other member _ =>
      Nat.le_trans (before other member item mem_cons_self) covers.1
    rw [valueAt, inFront]
    rfl
  case isFalse => exact valueAt_append.symm

theorem Ascending.renew {new : Item} (ascending : Ascending lo hi (front ++ item :: back))
    (first : lo new = lo item) (last : hi new = hi item) : Ascending lo hi (front ++ new :: back) := by
  simpa only [ascending_append, ascending_cons, forall_mem_cons, first, last] using ascending

end KernelImx.Lib
