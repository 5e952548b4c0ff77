/-
**Lists of closed spans.**

The items of a list each span the points from `lo item` to `hi item`. A list `Descends` when its spans
run downwards without meeting, a span being empty when `hi` is just below `lo`; it is `Spread` when
none of them is.
-/

import Mathlib.Data.List.Basic

namespace KernelImx.Lib

open List

variable {Item : Type*} (lo hi : Item → Nat)

/-- The point is in one of the spans. -/
def Covers (items : List Item) (point : Nat) : Prop :=
  ∃ item ∈ items, lo item ≤ point ∧ point ≤ hi item

/-- Every span lies below the spans before it; it may be empty. -/
structure Descends (items : List Item) : Prop where
  width : ∀ item ∈ items, lo item ≤ hi item + 1
  descending : items.Pairwise fun upper lower => hi lower < lo upper

/-- Every span is non-empty and lies below the spans before it. -/
structure Spread (items : List Item) : Prop extends Descends lo hi items where
  nonempty : ∀ item ∈ items, lo item ≤ hi item

variable {point : Nat} {items : List Item} {item : Item} {front back : List Item}
  {update : Item → Item}

section Covers

variable {lo hi}

@[simp] theorem not_covers_nil (point : Nat) : ¬ Covers lo hi [] point := by
  simp [Covers]

theorem covers_cons :
    Covers lo hi (item :: items) point ↔
      (lo item ≤ point ∧ point ≤ hi item) ∨ Covers lo hi items point := by
  simp [Covers]

theorem covers_append :
    Covers lo hi (front ++ back) point ↔ Covers lo hi front point ∨ Covers lo hi back point := by
  simp only [Covers, mem_append, or_and_right, exists_or]

theorem covers_map (sameLo : ∀ item, lo (update item) = lo item)
    (sameHi : ∀ item, hi (update item) = hi item) :
    Covers lo hi (items.map update) point ↔ Covers lo hi items point := by
  simp [Covers, sameLo, sameHi]

end Covers

namespace Descends

variable {lo hi}

theorem nil : Descends lo hi [] := ⟨by simp, Pairwise.nil⟩

section

variable (descends : Descends lo hi (item :: items))

include descends

theorem tail : Descends lo hi items :=
  ⟨(forall_mem_cons.mp descends.width).2, (pairwise_cons.mp descends.descending).2⟩

theorem head_width : lo item ≤ hi item + 1 :=
  descends.width item mem_cons_self

theorem below_head {other : Item} (member : other ∈ items) : hi other < lo item :=
  (pairwise_cons.mp descends.descending).1 other member

end

theorem cons (descends : Descends lo hi items) (own : lo item ≤ hi item + 1)
    (below : ∀ other ∈ items, hi other < lo item) : Descends lo hi (item :: items) :=
  ⟨forall_mem_cons.mpr ⟨own, descends.width⟩,
    pairwise_cons.mpr ⟨below, descends.descending⟩⟩

/-- Two lists put together descend if each does and the spans of the second are below. -/
theorem append_iff : Descends lo hi (front ++ back) ↔
    Descends lo hi front ∧ Descends lo hi back ∧
      ∀ upper ∈ front, ∀ lower ∈ back, hi lower < lo upper := by
  constructor
  · rintro ⟨width, descending⟩
    obtain ⟨inFront, inBack⟩ := forall_mem_append.mp width
    obtain ⟨first, second, apart⟩ := pairwise_append.mp descending
    exact ⟨⟨inFront, first⟩, ⟨inBack, second⟩, apart⟩
  · rintro ⟨first, second, apart⟩
    exact ⟨forall_mem_append.mpr ⟨first.width, second.width⟩,
      pairwise_append.mpr ⟨first.descending, second.descending, apart⟩⟩

/-- A span that lies between two parts of a list can be put there. -/
theorem insert (descends : Descends lo hi (front ++ back)) (own : lo item ≤ hi item + 1)
    (above : ∀ upper ∈ front, hi item < lo upper) (below : ∀ lower ∈ back, hi lower < lo item) :
    Descends lo hi (front ++ item :: back) := by
  obtain ⟨first, second, apart⟩ := append_iff.mp descends
  refine append_iff.mpr ⟨first, second.cons own below, fun upper member lower inside => ?_⟩
  rcases mem_cons.mp inside with rfl | inside
  · exact above upper member
  · exact apart upper member lower inside

theorem remove (descends : Descends lo hi (front ++ item :: back)) :
    Descends lo hi (front ++ back) := by
  obtain ⟨first, second, apart⟩ := append_iff.mp descends
  exact append_iff.mpr ⟨first, second.tail,
    fun upper member lower inside => apart upper member lower (mem_cons_of_mem _ inside)⟩

/-- An update that keeps the spans. -/
theorem map (descends : Descends lo hi items) (sameLo : ∀ item, lo (update item) = lo item)
    (sameHi : ∀ item, hi (update item) = hi item) :
    Descends lo hi (items.map update) := by
  refine ⟨fun item member => ?_, ?_⟩
  · obtain ⟨old, inside, rfl⟩ := mem_map.mp member
    rw [sameLo, sameHi]
    exact descends.width old inside
  · rw [pairwise_map]
    exact descends.descending.imp fun apart => by rwa [sameHi, sameLo]

end Descends

namespace Spread

variable {lo hi}

section

variable (spread : Spread lo hi (item :: items))

include spread

theorem tail : Spread lo hi items :=
  ⟨spread.toDescends.tail, (forall_mem_cons.mp spread.nonempty).2⟩

theorem head_le : lo item ≤ hi item :=
  spread.nonempty item mem_cons_self

/-- The points of the rest lie below the first span. -/
theorem covers_below_head (covered : Covers lo hi items point) : point < lo item := by
  obtain ⟨other, member, -, upper⟩ := covered
  exact Nat.lt_of_le_of_lt upper (spread.below_head member)

theorem not_covers_above (above : hi item < point) : ¬ Covers lo hi (item :: items) point := by
  intro covered
  rcases covers_cons.mp covered with own | rest
  · exact absurd own.2 (Nat.not_le.mpr above)
  · have := spread.covers_below_head rest
    have := spread.head_le
    omega

end

theorem remove (spread : Spread lo hi (front ++ item :: back)) : Spread lo hi (front ++ back) := by
  refine ⟨spread.toDescends.remove, fun other member => spread.nonempty other ?_⟩
  rcases mem_append.mp member with first | second
  · exact mem_append_left _ first
  · exact mem_append_right _ (mem_cons_of_mem _ second)

/-- The first point of a span is in no other span of the list. -/
theorem not_covers (spread : Spread lo hi (front ++ item :: back)) :
    ¬ Covers lo hi (front ++ back) (lo item) := by
  obtain ⟨first, second, apart⟩ := Descends.append_iff.mp spread.toDescends
  have own := spread.nonempty item (mem_append_right _ mem_cons_self)
  rw [covers_append]
  rintro (⟨upper, member, lower, -⟩ | ⟨lower, member, -, upper⟩)
  · have := apart upper member item mem_cons_self
    omega
  · have := second.below_head member
    omega

end Spread

end KernelImx.Lib
