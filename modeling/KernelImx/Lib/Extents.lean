/-
**Sorted lists of tagged extents.**

An extent marks the points from `lo` to `hi` with its tag. A list is `Laid` when its extents run
upwards without meeting, and two extents of one tag do not even touch: the list is the shortest one
for its map from points to tags (`tagAt`).
-/

import Mathlib.Data.List.Basic

namespace KernelImx.Lib

open List

/-! ### Extents -/

@[ext] structure Extent (Tag : Type*) where
  tag : Tag
  lo : Int
  hi : Int

variable {Tag : Type*}

/-- The first extent lies before the second, and does not touch it when the tags are equal. -/
def Extent.Apart (first second : Extent Tag) : Prop :=
  first.hi < second.lo ∧ (first.tag = second.tag → first.hi + 1 < second.lo)

/-- Non-empty extents that run upwards, those of one tag with a gap between them. -/
structure Laid (list : List (Extent Tag)) : Prop where
  nonempty : ∀ extent ∈ list, extent.lo ≤ extent.hi
  apart : list.Pairwise Extent.Apart

def Marks (list : List (Extent Tag)) (tag : Tag) (point : Int) : Prop :=
  ∃ extent ∈ list, extent.tag = tag ∧ extent.lo ≤ point ∧ point ≤ extent.hi

def tagAt (list : List (Extent Tag)) (point : Int) : Option Tag :=
  (list.find? fun extent => extent.lo ≤ point && point ≤ extent.hi).map Extent.tag

variable {extent : Extent Tag} {list : List (Extent Tag)} {point : Int}

section Marks

variable {front back : List (Extent Tag)} {tag : Tag}

@[simp] theorem not_marks_nil : ¬ Marks [] tag point := by
  simp [Marks]

theorem marks_cons : Marks (extent :: list) tag point ↔
    (extent.tag = tag ∧ extent.lo ≤ point ∧ point ≤ extent.hi) ∨ Marks list tag point := by
  simp [Marks]

theorem Laid.nil : Laid ([] : List (Extent Tag)) := ⟨by simp, Pairwise.nil⟩

section

variable (laid : Laid (extent :: list))

include laid

theorem Laid.tail : Laid list :=
  ⟨(forall_mem_cons.mp laid.nonempty).2, (pairwise_cons.mp laid.apart).2⟩

theorem Laid.head_le : extent.lo ≤ extent.hi :=
  laid.nonempty extent mem_cons_self

theorem Laid.after_head (marked : Marks list tag point) :
    extent.hi < point ∧ (extent.tag = tag → extent.hi + 1 < point) := by
  obtain ⟨other, member, rfl, lower, -⟩ := marked
  have apart := (pairwise_cons.mp laid.apart).1 other member
  exact ⟨by have := apart.1; omega, fun same => by have := apart.2 same; omega⟩

end

theorem Laid.cons_of_marks (laid : Laid list) (own : extent.lo ≤ extent.hi)
    (after : ∀ tag point, Marks list tag point →
      extent.hi < point ∧ (extent.tag = tag → extent.hi + 1 < point)) :
    Laid (extent :: list) := by
  refine ⟨forall_mem_cons.mpr ⟨own, laid.nonempty⟩,
    pairwise_cons.mpr ⟨fun other member => ?_, laid.apart⟩⟩
  exact after other.tag other.lo ⟨other, member, rfl, Int.le_refl _, laid.nonempty other member⟩

/-- **A laid list marks a point with one tag at most**, the one `tagAt` finds. -/
theorem Laid.tagAt_eq_some_iff (laid : Laid list) : tagAt list point = some tag ↔
    Marks list tag point := by
  induction list with
  | nil => simp [tagAt]
  | cons extent rest ih =>
    have later := ih laid.tail
    rw [marks_cons, ← later]
    by_cases here : extent.lo ≤ point ∧ point ≤ extent.hi
    · have none : tagAt rest point ≠ some tag := fun found => by
        have := (laid.after_head (later.mp found)).1
        omega
      have found : tagAt (extent :: rest) point = some extent.tag := by
        simp [tagAt, here]
      simp only [found, Option.some.injEq, here, and_true, none, or_false]
    · have skip : tagAt (extent :: rest) point = tagAt rest point := by
        have : (decide (extent.lo ≤ point) && decide (point ≤ extent.hi)) = false := by
          simpa using here
        simp only [tagAt, find?_cons, this]
      simp only [skip, here, and_false, false_or]

end Marks

/-! ### Laying an interval over a list -/

/-- The interval as an extent; without a tag it erases. -/
def stroke (tag : Option Tag) (lo hi : Int) : List (Extent Tag) := tag.toList.map fun tag => ⟨tag, lo, hi⟩

variable {tag : Option Tag} {hi lo : Int}

theorem marks_stroke_append {other : Tag} : Marks (stroke tag lo hi ++ list) other point ↔
      (tag = some other ∧ lo ≤ point ∧ point ≤ hi) ∨ Marks list other point := by
  cases tag with
  | none => simp [stroke]
  | some tag => simp [stroke, marks_cons]

/-- **The new list is the old one with the interval marked anew.** -/
structure Overlaid (old new : List (Extent Tag)) (lo hi : Int) (tag : Option Tag) : Prop where
  laid : Laid new
  marks : ∀ other point, Marks new other point ↔
    if lo ≤ point ∧ point ≤ hi then tag = some other else Marks old other point

namespace Overlaid

variable {new : List (Extent Tag)}

/-- The list begins after the interval. -/
theorem stop (laid : Laid list) (interval : lo ≤ hi)
    (after : ∀ other point, Marks list other point →
      hi < point ∧ (tag = some other → hi + 1 < point)) :
    Overlaid list (stroke tag lo hi ++ list) lo hi tag := by
  refine ⟨?_, fun other point => ?_⟩
  · cases tag with
    | none => exact laid
    | some tag =>
      exact laid.cons_of_marks interval fun other point marked =>
        ⟨(after other point marked).1, fun same => (after other point marked).2 (by rw [← same])⟩
  · rw [marks_stroke_append]
    grind

/-- The first extent lies before the interval. -/
theorem pass (atop : Overlaid list new lo hi tag) (laid : Laid (extent :: list))
    (before : extent.hi < lo) (gap : tag = some extent.tag → extent.hi + 1 < lo) :
    Overlaid (extent :: list) (extent :: new) lo hi tag := by
  refine ⟨atop.laid.cons_of_marks laid.head_le fun other point marked => ?_, fun other point => ?_⟩
  · rw [atop.marks] at marked
    split at marked
    · exact ⟨by omega, fun same => by have := gap (same ▸ marked); omega⟩
    · exact laid.after_head marked
  · simp only [marks_cons, atop.marks]
    grind

/-- The interval covers the first extent. -/
theorem cover (atop : Overlaid list new lo hi tag) (lower : lo ≤ extent.lo)
    (upper : extent.hi ≤ hi) : Overlaid (extent :: list) new lo hi tag := by
  refine ⟨atop.laid, fun other point => ?_⟩
  rw [atop.marks, marks_cons]
  grind

/-- The interval takes over the first extent: it covers it, or it touches it and has its tag. -/
theorem take (atop : Overlaid list new (min lo extent.lo) (max hi extent.hi) tag)
    (laid : Laid (extent :: list)) (takes : (lo ≤ extent.lo ∧ extent.hi ≤ hi) ∨
      (tag = some extent.tag ∧ lo ≤ extent.hi + 1 ∧ extent.lo ≤ hi + 1)) :
    Overlaid (extent :: list) new lo hi tag := by
  rcases takes with ⟨lower, upper⟩ | ⟨same, lower, upper⟩
  · rw [Int.min_eq_left lower, Int.max_eq_left upper] at atop
    exact atop.cover lower upper
  refine ⟨atop.laid, fun other point => ?_⟩
  have later := fun marked : Marks list other point => (laid.after_head marked).1
  rw [atop.marks, marks_cons]
  grind

section

variable (laid : Laid (extent :: list)) (interval : lo ≤ hi) (other : tag ≠ some extent.tag)

include laid interval other

/-- The interval ends inside the first extent. -/
theorem straddle (lower : lo ≤ extent.lo) (inside : extent.lo ≤ hi) (upper : hi < extent.hi) :
    Overlaid (extent :: list) (stroke tag lo hi ++ { extent with lo := hi + 1 } :: list) lo hi tag := by
  have kept : Laid ({ extent with lo := hi + 1 } :: list) :=
    laid.tail.cons_of_marks (by simp only; omega) fun mark point marked => laid.after_head marked
  have atop : Overlaid _ _ lo hi tag := stop kept interval fun mark point marked => by
    rcases marks_cons.mp marked with ⟨rfl, lower, -⟩ | marked
    · simp only at lower
      exact ⟨by omega, fun same => absurd same other⟩
    · have := (laid.after_head marked).1
      exact ⟨by omega, fun _ => by omega⟩
  refine ⟨atop.laid, fun mark point => ?_⟩
  rw [atop.marks, marks_cons, marks_cons]
  grind

/-- The interval begins inside the first extent: the part before it stays. -/
theorem trim (lower : extent.lo < lo) (inside : lo ≤ extent.hi)
    (atop : Overlaid ({ extent with lo := lo } :: list) new lo hi tag) :
    Overlaid (extent :: list) ({ extent with hi := lo - 1 } :: new) lo hi tag := by
  refine ⟨atop.laid.cons_of_marks (by simp only; omega) fun mark point marked => ?_,
    fun mark point => ?_⟩
  · rw [atop.marks] at marked
    split at marked
    · exact ⟨by simp only; omega, fun same => absurd (same ▸ marked) other⟩
    rcases marks_cons.mp marked with ⟨rfl, inside⟩ | marked
    · simp only at inside
      exact ⟨by simp only; omega, fun _ => by simp only; omega⟩
    · have := (laid.after_head marked).1
      exact ⟨by simp only; omega, fun _ => by simp only; omega⟩
  · rw [marks_cons, atop.marks, marks_cons, marks_cons]
    grind

/-- The interval lies inside the first extent. -/
theorem split (lower : extent.lo < lo) (upper : hi < extent.hi) :
    Overlaid (extent :: list)
      ({ extent with hi := lo - 1 } :: (stroke tag lo hi ++ { extent with lo := hi + 1 } :: list))
      lo hi tag := by
  have kept : Laid ({ extent with lo := lo } :: list) :=
    laid.tail.cons_of_marks (by simp only; omega) fun mark point marked => laid.after_head marked
  exact trim laid interval other lower (by omega)
    (straddle kept interval other (Int.le_refl lo) interval upper)

end

theorem tagAt (atop : Overlaid list new lo hi tag) (laid : Laid list) (point : Int) :
    Lib.tagAt new point = if lo ≤ point ∧ point ≤ hi then tag else Lib.tagAt list point := by
  refine Option.ext fun other => ?_
  rw [atop.laid.tagAt_eq_some_iff, atop.marks]
  split
  · rfl
  · rw [laid.tagAt_eq_some_iff]

end Overlaid

/-! ### Groups of a list -/

section Groups

variable {Item : Type*} (member : Item → Prop)

/-- The members come first in the list. -/
def Leading (list : List Item) : Prop :=
  ∃ own back, list = own ++ back ∧ (∀ item ∈ own, member item) ∧ ∀ item ∈ back, ¬ member item

/-- The members stand together in the list. -/
def Contiguous (list : List Item) : Prop :=
  ∃ front own back, list = front ++ own ++ back ∧ (∀ item ∈ front, ¬ member item) ∧
    (∀ item ∈ own, member item) ∧ ∀ item ∈ back, ¬ member item

variable {member} {item : Item} {list front middle new back : List Item}

theorem Leading.contiguous (leading : Leading member list) : Contiguous member list := by
  obtain ⟨own, back, rfl, inside, outside⟩ := leading
  exact ⟨[], own, back, rfl, by simp, inside, outside⟩

theorem leading_of_none (others : ∀ item ∈ list, ¬ member item) : Leading member list :=
  ⟨[], list, rfl, by simp, others⟩

theorem leading_cons_iff (inside : member item) : Leading member (item :: list) ↔ Leading member list := by
  constructor
  · rintro ⟨own, back, parts, members, others⟩
    cases own with
    | nil =>
      rw [nil_append] at parts
      exact absurd inside (others item (parts ▸ mem_cons_self))
    | cons first own =>
      rw [cons_append, cons.injEq] at parts
      exact ⟨own, back, parts.2, (forall_mem_cons.mp members).2, others⟩
  · rintro ⟨own, back, rfl, members, others⟩
    exact ⟨item :: own, back, rfl, forall_mem_cons.mpr ⟨inside, members⟩, others⟩

theorem Leading.none_of_head (leading : Leading member (item :: list)) (outside : ¬ member item) :
    ∀ other ∈ item :: list, ¬ member other := by
  obtain ⟨own, back, parts, members, others⟩ := leading
  cases own with
  | nil =>
    exact parts ▸ others
  | cons first own =>
    rw [cons_append, cons.injEq] at parts
    exact absurd (parts.1 ▸ members first mem_cons_self) outside

theorem contiguous_cons_of_member (inside : member item) :
    Contiguous member (item :: list) ↔ Leading member list := by
  rw [← leading_cons_iff inside]
  refine ⟨?_, Leading.contiguous⟩
  rintro ⟨front, own, back, parts, before, members, others⟩
  cases front with
  | nil => exact ⟨own, back, parts, members, others⟩
  | cons first front =>
    rw [cons_append, cons_append, cons.injEq] at parts
    exact absurd (parts.1 ▸ inside) (before first mem_cons_self)

theorem contiguous_cons_of_not (outside : ¬ member item) :
    Contiguous member (item :: list) ↔ Contiguous member list := by
  constructor
  · rintro ⟨front, own, back, parts, before, members, others⟩
    cases front with
    | nil =>
      have leading : Leading member (item :: list) := ⟨own, back, parts, members, others⟩
      exact (leading_of_none
        (forall_mem_cons.mp (leading.none_of_head outside)).2).contiguous
    | cons first front =>
      rw [cons_append, cons_append, cons.injEq] at parts
      exact ⟨front, own, back, parts.2, (forall_mem_cons.mp before).2, members, others⟩
  · rintro ⟨front, own, back, rfl, before, members, others⟩
    exact ⟨item :: front, own, back, rfl, forall_mem_cons.mpr ⟨outside, before⟩, members, others⟩

theorem contiguous_append_of_none (others : ∀ item ∈ middle, ¬ member item) :
    Contiguous member (middle ++ back) ↔ Contiguous member back := by
  induction middle with
  | nil => rfl
  | cons first rest ih =>
    obtain ⟨outside, others⟩ := forall_mem_cons.mp others
    rw [cons_append, contiguous_cons_of_not outside, ih others]

theorem Leading.replace (old : ∀ item ∈ middle, ¬ member item) (others : ∀ item ∈ new, ¬ member item)
    (between : middle = [] → back = []) (leading : Leading member (front ++ (middle ++ back))) :
    Leading member (front ++ (new ++ back)) := by
  induction front with
  | nil =>
    rw [nil_append] at leading ⊢
    refine leading_of_none fun item inside => ?_
    rcases mem_append.mp inside with inside | inside
    · exact others item inside
    cases middle with
    | nil =>
      rw [between rfl] at inside
      cases inside
    | cons first rest =>
      exact leading.none_of_head (old first mem_cons_self) item
        (mem_append_right (first :: rest) inside)
  | cons first front ih =>
    rw [cons_append] at leading ⊢
    by_cases inside : member first
    · rw [leading_cons_iff inside] at leading ⊢
      exact ih leading
    refine leading_of_none fun item found => ?_
    have none := leading.none_of_head inside
    simp only [← cons_append, mem_append] at none found
    rcases found with found | found | found
    · exact none item (.inl found)
    · exact others item found
    · exact none item (.inr (.inr found))

/-- **Replacing a part without members keeps the members together**, when the part is not empty or
nothing follows it. -/
theorem Contiguous.replace (old : ∀ item ∈ middle, ¬ member item)
    (others : ∀ item ∈ new, ¬ member item) (between : middle = [] → back = [])
    (together : Contiguous member (front ++ (middle ++ back))) :
    Contiguous member (front ++ (new ++ back)) := by
  induction front with
  | nil =>
    rw [nil_append, contiguous_append_of_none old] at together
    rw [nil_append, contiguous_append_of_none others]
    exact together
  | cons first front ih =>
    rw [cons_append] at together ⊢
    by_cases inside : member first
    · rw [contiguous_cons_of_member inside] at together ⊢
      exact together.replace old others between
    · rw [contiguous_cons_of_not inside] at together ⊢
      exact ih together

end Groups

end KernelImx.Lib
