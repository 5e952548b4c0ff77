/-
**The pages of the unpinned ranges.**

What the three walks over `unpinned_list` do to the set of pages the list covers. The ranges of a list
descend; they are not empty either (`Ordered`), unless an unpin asked for nothing at the end of the area.
-/

import KernelImx.Lib.Spans
import KernelImx.Ashmem.Area

namespace KernelImx.Ashmem

open KernelImx.Lib Nat List

/-- The page lies in a range of the list. -/
abbrev Unpinned (list : List AshmemRange) (page : Nat) : Prop :=
  Covers AshmemRange.pgstart AshmemRange.pgend list page

/-- The list is strictly descending and its ranges are disjoint; they may be empty. -/
abbrev Descending (list : List AshmemRange) : Prop :=
  Descends AshmemRange.pgstart AshmemRange.pgend list

/-- The list is strictly descending, its ranges are disjoint and non-empty. -/
abbrev Ordered (list : List AshmemRange) : Prop :=
  Spread AshmemRange.pgstart AshmemRange.pgend list

/-! ### The overlap tests -/

variable {range : AshmemRange} {rest : List AshmemRange} {pgstart pgend page : Nat}

/-- The page lies in a range of the list that was purged or not. -/
def Marked (list : List AshmemRange) (purged : Bool) (page : Nat) : Prop :=
  ∃ range ∈ list, range.purged = purged ∧ range.pgstart ≤ page ∧ page ≤ range.pgend

theorem marked_cons {purged : Bool} : Marked (range :: rest) purged page ↔
    (range.purged = purged ∧ range.pgstart ≤ page ∧ page ≤ range.pgend) ∨
      Marked rest purged page := by
  simp [Marked]

theorem marked_append {front back : List AshmemRange} {purged : Bool} :
    Marked (front ++ back) purged page ↔ Marked front purged page ∨ Marked back purged page := by
  simp only [Marked, mem_append, or_and_right, exists_or]

theorem unpinned_iff : Unpinned rest page ↔ ∃ purged, Marked rest purged page := by
  simp only [Covers, Marked]
  grind

@[simp] theorem rangeBeforePage_iff : rangeBeforePage range page = true ↔ range.pgend < page := by
  simp [rangeBeforePage]

@[simp] theorem pageRangeSubsumesRange_iff : pageRangeSubsumesRange range pgstart pgend = true ↔
    pgstart ≤ range.pgstart ∧ range.pgend ≤ pgend := by
  simp [pageRangeSubsumesRange]

@[simp] theorem pageRangeSubsumedByRange_iff : pageRangeSubsumedByRange range pgstart pgend = true ↔
    range.pgstart ≤ pgstart ∧ pgend ≤ range.pgend := by
  simp [pageRangeSubsumedByRange]

/-- The walks stop for the range: it is not before the interval, and is in range of it. -/
def Met (pgstart pgend : Nat) (range : AshmemRange) : Prop :=
  rangeBeforePage range pgstart = false ∧ pageRangeInRange range pgstart pgend = true

theorem met_iff : Met pgstart pgend range ↔ pgstart ≤ range.pgend ∧
    (range.pgstart ≤ pgstart ∨ (range.pgstart ≤ pgend ∧ pgend ≤ range.pgend) ∨
      (pgstart ≤ range.pgstart ∧ range.pgend ≤ pgend)) := by
  simp only [Met, rangeBeforePage, pageRangeInRange, pageInRange, pageRangeSubsumesRange, Bool.or_eq_true,
    Bool.and_eq_true, decide_eq_true_eq, decide_eq_false_iff_not]
  omega

theorem met_iff_overlap (own : range.pgstart ≤ range.pgend) (interval : pgstart ≤ pgend) :
    Met pgstart pgend range ↔ range.pgstart ≤ pgend ∧ pgstart ≤ range.pgend := by
  rw [met_iff]
  omega

theorem sub32_one (positive : 0 < page) (small : page < 2 ^ 32) : sub32 page 1 = page - 1 := by
  simp only [sub32]
  omega

theorem add32_one (small : page + 1 < 2 ^ 32) : add32 page 1 = page + 1 :=
  mod_eq_of_lt small

/-! ### Pinning -/

variable {list left after : List AshmemRange} {purged ret answer : Bool}

/-- The ranges are parts of one range, which has no fewer pages. -/
structure Parts (range : AshmemRange) (left : List AshmemRange) : Prop where
  descending : Descending left
  inside : ∀ part ∈ left, range.pgstart ≤ part.pgstart ∧ part.pgend ≤ range.pgend
  nonempty : range.pgstart ≤ range.pgend → ∀ part ∈ left, part.pgstart ≤ part.pgend

/-- What pinning makes of a list: the interval goes, and the other pages keep their marks. -/
structure Pins (pgstart pgend : Nat) (list after : List AshmemRange) (ret answer : Bool) : Prop
    where
  descending : Descending after
  inside : ∀ part ∈ after, ∃ range ∈ list,
    range.pgstart ≤ part.pgstart ∧ part.pgend ≤ range.pgend ∧
      (range.pgstart ≤ range.pgend → part.pgstart ≤ part.pgend)
  pages : ∀ purged page, Marked after purged page ↔
    Marked list purged page ∧ ¬ (pgstart ≤ page ∧ page ≤ pgend)
  answers : answer = true ↔ ret = true ∨ ∃ range ∈ list, range.purged = true ∧ Met pgstart pgend range

theorem Pins.below (descending : Descending list) (below : ∀ range ∈ list, range.pgend < pgstart) :
    Pins pgstart pgend list list ret ret where
  descending := descending
  inside part member := ⟨part, member, le_rfl, le_rfl, id⟩
  pages purged page := by
    refine ⟨fun marked => ⟨marked, ?_⟩, And.left⟩
    obtain ⟨range, member, -, -, upper⟩ := marked
    have := below range member
    omega
  answers := by
    refine ⟨.inl, fun told => told.resolve_right ?_⟩
    rintro ⟨range, member, -, met⟩
    exact absurd (below range member) (not_lt.mpr (met_iff.mp met).1)

/-- The first range leaves parts of it, the others what the walk leaves of them. -/
theorem Pins.cons {told : Bool} (descending : Descending (range :: rest))
    (done : Pins pgstart pgend rest after told answer)
    (tells : told = true ↔ ret = true ∨ range.purged = true ∧ Met pgstart pgend range)
    (parts : Parts range left)
    (pages : ∀ purged page, Marked left purged page ↔
      (range.purged = purged ∧ range.pgstart ≤ page ∧ page ≤ range.pgend) ∧
        ¬ (pgstart ≤ page ∧ page ≤ pgend)) :
    Pins pgstart pgend (range :: rest) (left ++ after) ret answer where
  descending := by
    refine Descends.append_iff.mpr ⟨parts.descending, done.descending, fun upper high lower low => ?_⟩
    obtain ⟨whole, member, -, last, -⟩ := done.inside lower low
    have := descending.below_head member
    have := (parts.inside upper high).1
    omega
  inside part member := by
    rcases mem_append.mp member with own | other
    · obtain ⟨first, last⟩ := parts.inside part own
      exact ⟨range, mem_cons_self, first, last, fun asked => parts.nonempty asked part own⟩
    · obtain ⟨whole, member, lies⟩ := done.inside part other
      exact ⟨whole, mem_cons_of_mem _ member, lies⟩
  pages purged page := by
    rw [marked_append, pages, done.pages, marked_cons, or_and_right]
  answers := by
    rw [done.answers, tells, exists_mem_cons_iff, or_assoc]

theorem Pins.ordered (pins : Pins pgstart pgend list after ret answer) (ordered : Ordered list) :
    Ordered after := by
  refine ⟨pins.descending, fun part member => ?_⟩
  obtain ⟨range, member, -, -, nonempty⟩ := pins.inside part member
  exact nonempty (ordered.nonempty range member)

theorem Pins.unpinned (pins : Pins pgstart pgend list after ret answer) (page : Nat) :
    Unpinned after page ↔ Unpinned list page ∧ ¬ (pgstart ≤ page ∧ page ≤ pgend) := by
  simp only [unpinned_iff, pins.pages, exists_and_right]

theorem Parts.one {part : AshmemRange} (lower : range.pgstart ≤ part.pgstart)
    (upper : part.pgend ≤ range.pgend) (width : part.pgstart ≤ part.pgend + 1)
    (nonempty : range.pgstart ≤ range.pgend → part.pgstart ≤ part.pgend) : Parts range [part] where
  descending := Descends.nil.cons width (by simp)
  inside := by simp [lower, upper]
  nonempty := by simpa using nonempty

/-- **Pinning takes exactly the interval out**, unless there is no memory for the upper part of a
range with a hole. -/
theorem ashmemPin_spec {alloc : Bool} (interval : pgstart ≤ pgend + 1)
    (small : ∀ range ∈ list, range.pgend < 2 ^ 32)
    (kept : alloc = true ∨ ∀ range ∈ list, ¬ (range.pgstart < pgstart ∧ pgend < range.pgend))
    (descending : Descending list) (lru : AshmemLru) (ret : Bool) :
    Pins pgstart pgend list (ashmemPin alloc pgstart pgend list lru ret).1 ret
      (ashmemPin alloc pgstart pgend list lru ret).2.2 := by
  induction list generalizing lru ret with
  | nil => exact Pins.below descending (by simp)
  | cons range rest ih =>
    have own : range.pgstart ≤ range.pgend + 1 := descending.head_width
    rw [forall_mem_cons] at small
    simp only [forall_mem_cons, or_and_left] at kept
    have done := ih small.2 kept.2 descending.tail
    unfold ashmemPin
    split
    next before =>
      rw [rangeBeforePage_iff] at before
      refine Pins.below descending (forall_mem_cons.mpr ⟨before, fun other member => ?_⟩)
      have := descending.below_head member
      omega
    next reaches =>
      split
      next overlaps =>
        have met : Met pgstart pgend range := ⟨Bool.eq_false_iff.mpr reaches, overlaps⟩
        have tells : (ret || range.purged) = true ↔
            ret = true ∨ range.purged = true ∧ Met pgstart pgend range := by
          simp [met]
        rw [met_iff] at met
        simp only [pageRangeSubsumesRange_iff]
        split
        next subsumes =>
          refine Pins.cons descending (done _ _) tells ⟨Descends.nil, by simp, by simp⟩ fun purged page => ?_
          simp only [Marked]
          grind
        next sticksOut =>
          have after : pgend < range.pgend → add32 pgend 1 = pgend + 1 := fun more =>
            add32_one (by omega)
          split
          next from_start =>
            -- the upper end stays
            rw [after (by omega)]
            refine Pins.cons descending (done _ _) tells (Parts.one ?_ ?_ ?_ fun _ => ?_)
              fun purged page => ?_
            all_goals simp only [Marked, rangeShrink, mem_singleton, exists_eq_left]
            · omega
            · rfl
            · omega
            · omega
            · grind
          next from_middle =>
            rw [not_le] at from_middle
            rw [sub32_one (by omega) (by omega)]
            split
            next to_end =>
              -- the lower end stays
              refine Pins.cons descending (done _ _) tells (Parts.one ?_ ?_ ?_ fun _ => ?_)
                fun purged page => ?_
              all_goals simp only [Marked, rangeShrink, mem_singleton, exists_eq_left]
              · rfl
              · omega
              · omega
              · omega
              · grind
            next hole =>
              -- both ends stay, and the walk ends
              obtain rfl := kept.1.resolve_right (by omega)
              have rested : Pins pgstart pgend rest rest (ret || range.purged) (ret || range.purged) :=
                Pins.below descending.tail fun other member =>
                  (descending.below_head member).trans from_middle
              rw [after (by omega)]
              refine Pins.cons descending rested tells
                ⟨(Descends.nil.cons ?_ (by simp)).cons ?_ (forall_mem_singleton.mpr ?_), ?_, ?_⟩
                fun purged page => ?_
              all_goals simp only [rangeShrink, marked_cons, forall_mem_cons]
              · omega
              · omega
              · omega
              · simp
                omega
              · simp
                omega
              · simp only [Marked]
                grind
      next apart =>
        have met : ¬ Met pgstart pgend range := fun met => apart met.2
        have tells : ret = true ↔ ret = true ∨ range.purged = true ∧ Met pgstart pgend range := by
          simp [met]
        rw [rangeBeforePage_iff] at reaches
        rw [met_iff] at met
        refine Pins.cons descending (done _ _) tells (Parts.one le_rfl le_rfl own id) fun purged page => ?_
        simp only [Marked]
        grind

/-! ### Unpinning -/

/-- What a pass finds: a place for the interval, a range that contains it, or one that it is merged
with. -/
def UnpinScan.Finds (pgstart pgend : Nat) (list : List AshmemRange) : UnpinScan → Prop
  | .insertion front back =>
    list = front ++ back ∧ (∀ upper ∈ front, pgend < upper.pgstart ∧ ¬ Met pgstart pgend upper) ∧
      ∀ lower ∈ back, lower.pgend < pgstart
  | .subsumed => ∃ range ∈ list, range.pgstart ≤ pgstart ∧ pgend ≤ range.pgend
  | .overlap front range back => list = front ++ range :: back ∧ Met pgstart pgend range ∧
    ¬ (range.pgstart ≤ pgstart ∧ pgend ≤ range.pgend)

/-- Where a pass of unpinning stops. -/
theorem unpinScan_finds (pgstart pgend : Nat) (descending : Descending list) :
    (unpinScan pgstart pgend list).Finds pgstart pgend list := by
  induction list with
  | nil => simp [unpinScan, UnpinScan.Finds]
  | cons range rest ih =>
    have own : range.pgstart ≤ range.pgend + 1 := descending.head_width
    unfold unpinScan
    split
    next before =>
      rw [rangeBeforePage_iff] at before
      refine ⟨rfl, by simp, forall_mem_cons.mpr ⟨before, fun lower member => ?_⟩⟩
      have := descending.below_head member
      omega
    next reaches =>
      split
      next subsumed => exact ⟨range, mem_cons_self, pageRangeSubsumedByRange_iff.mp subsumed⟩
      next sticks =>
        rw [pageRangeSubsumedByRange_iff] at sticks
        split
        next overlaps => exact ⟨rfl, ⟨Bool.eq_false_iff.mpr reaches, overlaps⟩, sticks⟩
        next apart =>
          have met : ¬ Met pgstart pgend range := fun met => apart met.2
          have found := ih descending.tail
          cases scan : unpinScan pgstart pgend rest with
          | insertion front back =>
            rw [scan] at found
            obtain ⟨parts, above, below⟩ := found
            refine ⟨congrArg (range :: ·) parts, forall_mem_cons.mpr ⟨⟨?_, met⟩, above⟩, below⟩
            rw [rangeBeforePage_iff] at reaches
            rw [met_iff] at met
            omega
          | subsumed =>
            rw [scan] at found
            obtain ⟨other, member, contains⟩ := found
            exact ⟨other, mem_cons_of_mem _ member, contains⟩
          | overlap front other back =>
            rw [scan] at found
            exact ⟨congrArg (range :: ·) found.1, found.2⟩

theorem unpinned_overlap {front back : List AshmemRange} (lower : range.pgstart ≤ pgend)
    (upper : pgstart ≤ range.pgend) :
    (Unpinned (front ++ back) page ∨
        (min range.pgstart pgstart ≤ page ∧ page ≤ max range.pgend pgend)) ↔
      Unpinned (front ++ range :: back) page ∨ (pgstart ≤ page ∧ page ≤ pgend) := by
  simp only [covers_append, covers_cons]
  grind

/-- **The passes of `ashmem_unpin` end**, and add exactly the interval. -/
theorem ashmemUnpinLoop_spec (asma : Nat) (fuel : Nat) (interval : pgstart ≤ pgend) (purged : Bool)
    (ordered : Ordered list) (enough : list.length < fuel) (lru : AshmemLru)
    (fresh : purged = true → ∃ page, (pgstart ≤ page ∧ page ≤ pgend) ∧ ¬ Unpinned list page) :
    let (after, _, ret) := ashmemUnpinLoop asma true fuel pgstart pgend purged list lru
    (Ordered after ∧ ret = .ok () ∧
      ∀ page, Unpinned after page ↔ Unpinned list page ∨ (pgstart ≤ page ∧ page ≤ pgend)) ∧
    ∀ page, Marked list true page ∨ purged = true ∧ pgstart ≤ page ∧ page ≤ pgend →
      Marked after true page := by
  induction fuel generalizing pgstart pgend purged list lru with
  | zero => omega
  | succ fuel ih =>
    have found := unpinScan_finds pgstart pgend ordered.toDescends
    unfold ashmemUnpinLoop
    cases scan : unpinScan pgstart pgend list with
    | insertion front back =>
      rw [scan] at found
      obtain ⟨rfl, above, below⟩ := found
      refine ⟨⟨⟨ordered.insert (le_succ_of_le interval)
        (fun upper member => (above upper member).1) below, ?_⟩, rfl, fun page => ?_⟩,
        fun page marked => ?_⟩
      · simpa only [forall_mem_append, forall_mem_cons, interval, true_and] using ordered.nonempty
      · refine covers_append.trans ?_
        simp only [covers_cons, covers_append]
        grind
      · refine marked_append.mpr ?_
        simp only [marked_cons, marked_append] at marked ⊢
        grind
    | subsumed =>
      rw [scan] at found
      obtain ⟨range, member, first, last⟩ := found
      have covered : ∀ page, pgstart ≤ page ∧ page ≤ pgend → Unpinned list page := fun page inside =>
        ⟨range, member, first.trans inside.1, inside.2.trans last⟩
      refine ⟨⟨ordered, rfl, fun page => ⟨.inl, fun either => either.elim id (covered page)⟩⟩,
        fun page marked => marked.resolve_right ?_⟩
      rintro ⟨merged, -⟩
      obtain ⟨other, inside, free⟩ := fresh merged
      exact free (covered other inside)
    | overlap front range back =>
      rw [scan] at found
      obtain ⟨rfl, met, -⟩ := found
      obtain ⟨lower, upper⟩ := (met_iff_overlap (ordered.nonempty range (by simp)) interval).mp met
      have wider : min range.pgstart pgstart ≤ max range.pgend pgend := by omega
      have shorter : (front ++ back).length < fuel := by
        simp only [length_append, length_cons] at enough ⊢
        omega
      obtain ⟨⟨done, success, pages⟩, marks⟩ :=
        ih wider (purged || range.purged) ordered.remove shorter (rangeDel lru range) fun _ =>
          ⟨range.pgstart, by have := ordered.nonempty range (by simp); omega, ordered.not_covers⟩
      refine ⟨⟨done, success, fun page => (pages page).trans (unpinned_overlap lower upper)⟩,
        fun page marked => marks page ?_⟩
      simp only [marked_cons, marked_append] at marked ⊢
      grind

/-- Unpinning adds exactly the interval. -/
theorem ashmemUnpin_spec (asma : Nat) (interval : pgstart ≤ pgend) (ordered : Ordered list)
    (lru : AshmemLru) :
    let (after, _, ret) := ashmemUnpin asma true pgstart pgend list lru
    (Ordered after ∧ ret = .ok () ∧
      ∀ page, Unpinned after page ↔ Unpinned list page ∨ (pgstart ≤ page ∧ page ≤ pgend)) ∧
    ∀ page, Marked list true page → Marked after true page := by
  obtain ⟨added, marks⟩ := ashmemUnpinLoop_spec asma (list.length + 1) interval false ordered
    (lt_succ_self _) lru (by simp)
  exact ⟨added, fun page marked => marks page (.inl marked)⟩

/-- **Pinning and unpinning as sets of pages.** Pinning takes the interval out and answers whether a
range it met was purged; unpinning adds the interval, and what was purged stays so. -/
theorem ashmem_pages (asma : Nat) (interval : pgstart ≤ pgend)
    (small : ∀ range ∈ list, range.pgend < 2 ^ 32) (ordered : Ordered list) (lru : AshmemLru) :
    (let (after, _, ret) := ashmemPin true pgstart pgend list lru false
     (∀ page, Unpinned after page ↔ Unpinned list page ∧ ¬ (pgstart ≤ page ∧ page ≤ pgend)) ∧
     (∀ purged page, Marked after purged page ↔
        Marked list purged page ∧ ¬ (pgstart ≤ page ∧ page ≤ pgend)) ∧
     (ret = true ↔
        ∃ range ∈ list, range.purged = true ∧ range.pgstart ≤ pgend ∧ pgstart ≤ range.pgend)) ∧
    let (after, _, ret) := ashmemUnpin asma true pgstart pgend list lru
    ret = .ok () ∧
      (∀ page, Unpinned after page ↔ Unpinned list page ∨ (pgstart ≤ page ∧ page ≤ pgend)) ∧
      ∀ page, Marked list true page → Marked after true page := by
  have pins := ashmemPin_spec (le_succ_of_le interval) small (.inl rfl) ordered.toDescends lru false
  obtain ⟨⟨-, success, added⟩, marks⟩ := ashmemUnpin_spec asma interval ordered lru
  refine ⟨⟨pins.unpinned, pins.pages, pins.answers.trans ?_⟩, success, added, marks⟩
  simp only [Bool.false_eq_true, false_or]
  refine exists_congr fun range => and_congr_right fun member => and_congr_right fun _ => ?_
  exact met_iff_overlap (ordered.nonempty range member) interval

/-- A purged range and another one meet the interval from page 1 to page 5. -/
theorem ashmem_pages_two_ranges :
    (ashmemPin true 1 5 [⟨1, 0, 4, 9, true⟩, ⟨0, 0, 0, 2, false⟩] ⟨[(0, 0)], 3, 2⟩ false).2.2 = true ∧
      Marked (ashmemUnpin 0 true 1 5 [⟨1, 0, 4, 9, true⟩, ⟨0, 0, 0, 2, false⟩]
        ⟨[(0, 0)], 3, 2⟩).1 true 9 := by
  obtain ⟨pinned, unpinned⟩ := @ashmem_pages 1 5 [⟨1, 0, 4, 9, true⟩, ⟨0, 0, 0, 2, false⟩] 0
    (by decide) (by decide) ⟨⟨by decide, by decide⟩, by decide⟩ ⟨[(0, 0)], 3, 2⟩
  exact ⟨pinned.2.2.mpr (by simp), unpinned.2.2 9 (by simp [Marked])⟩

/-! ### The pin status -/

/-- **The status is unpinned iff a page of the interval is covered.** -/
theorem ashmemGetPinStatus_spec (interval : pgstart ≤ pgend) (ordered : Ordered list) :
    ashmemGetPinStatus pgstart pgend list = .isUnpinned ↔
      ∃ page, (pgstart ≤ page ∧ page ≤ pgend) ∧ Unpinned list page := by
  induction list with
  | nil => simp [ashmemGetPinStatus]
  | cons range rest ih =>
    have overlap := met_iff_overlap ordered.head_le interval
    unfold ashmemGetPinStatus
    split
    next before =>
      rw [rangeBeforePage_iff] at before
      refine iff_of_false (by simp) ?_
      rintro ⟨page, inside, covered⟩
      exact ordered.not_covers_above (lt_of_lt_of_le before inside.1) covered
    next reaches =>
      split
      next overlaps =>
        have meets := overlap.mp ⟨Bool.eq_false_iff.mpr reaches, overlaps⟩
        have := ordered.head_le
        refine iff_of_true rfl ⟨max range.pgstart pgstart, by omega, ?_⟩
        exact covers_cons.mpr (.inl (by omega))
      next apart =>
        have apart := mt overlap.mpr fun met => apart met.2
        rw [ih ordered.tail]
        refine exists_congr fun page => and_congr_right fun inside => ?_
        exact ⟨fun covered => covers_cons.mpr (.inr covered),
          fun covered => (covers_cons.mp covered).resolve_left (by omega)⟩

/-! ### The argument checks -/

def areaPages (size : UInt32) : Nat := pageAlign size.toNat / pageSize

def Requested (size : UInt32) (pin : AshmemPin) (page : Nat) : Prop :=
  pin.offset.toNat ≤ page * pageSize ∧ page * pageSize < pin.offset.toNat + pinLen size pin

/-- A request for no byte at the end of the area, which the checks let through: "everything onward"
of nothing. -/
def AsksNothing (size : UInt32) (pin : AshmemPin) : Prop :=
  pin.len = 0 ∧ pin.offset.toNat = pageAlign size.toNat

instance (size : UInt32) (pin : AshmemPin) : Decidable (AsksNothing size pin) :=
  inferInstanceAs (Decidable (_ ∧ _))

theorem pageAlign_lt (size : Nat) : pageAlign size < 2 ^ 32 := by
  simp only [pageAlign, pageSize, add32]
  omega

theorem pageAlign_mod (size : Nat) : pageAlign size % pageSize = 0 := mul_mod_left _ _

theorem pinLen_eq_zero_iff (size : UInt32) (pin : AshmemPin) :
    pinLen size pin = 0 ↔ AsksNothing size pin := by
  have offsetSmall := pin.offset.toNat_lt
  have aligned := pageAlign_lt size.toNat
  have zero : pin.len = 0 ↔ pin.len.toNat = 0 := by
    rw [← UInt32.toNat_inj, UInt32.toNat_zero]
  rw [AsksNothing, zero, pinLen, sub32]
  split <;> omega

variable {size : UInt32} {pin : AshmemPin}

theorem not_requested_of_asksNothing (nothing : AsksNothing size pin) (page : Nat) :
    ¬ Requested size pin page := by
  rintro ⟨lower, upper⟩
  rw [(pinLen_eq_zero_iff size pin).mpr nothing] at upper
  omega

variable (accepted : pinPages size pin = .ok (pgstart, pgend))

include accepted

theorem pinPages_ok :
    pgstart * pageSize = pin.offset.toNat ∧ pinLen size pin % pageSize = 0 ∧
      pin.offset.toNat + pinLen size pin ≤ pageAlign size.toNat ∧
      pgend = sub32 (add32 pgstart (pinLen size pin / pageSize)) 1 := by
  have offsetSmall := pin.offset.toNat_lt
  unfold pinPages at accepted
  simp only at accepted
  split at accepted
  · cases accepted
  next whole =>
    split at accepted
    · cases accepted
    next noWrap =>
      split at accepted
      · cases accepted
      next inside =>
        cases accepted
        have sum : add32 pin.offset.toNat (pinLen size pin) =
            pin.offset.toNat + pinLen size pin := mod_eq_of_lt (by omega)
        refine ⟨?_, by omega, by omega, rfl⟩
        simp only [pageSize] at whole ⊢
        omega

/-- **What the argument checks accept**: pages inside the area, or an empty request at its end. -/
theorem pinPages_spec :
    (¬ AsksNothing size pin ∧ pgstart ≤ pgend ∧ pgend < areaPages size ∧
        ∀ page, Requested size pin page ↔ pgstart ≤ page ∧ page ≤ pgend) ∨
      (AsksNothing size pin ∧ pgstart = areaPages size ∧ ∀ page, ¬ Requested size pin page) := by
  obtain ⟨start, whole, inside, finish⟩ := pinPages_ok accepted
  have aligned := pageAlign_lt size.toNat
  have multiple := pageAlign_mod size.toNat
  simp only [pageSize, sub32, add32] at start whole finish multiple
  by_cases nothing : AsksNothing size pin
  · refine .inr ⟨nothing, ?_, not_requested_of_asksNothing nothing⟩
    simp only [areaPages, pageSize, ← nothing.2]
    omega
  have asked : pinLen size pin ≠ 0 := fun empty => nothing ((pinLen_eq_zero_iff size pin).mp empty)
  refine .inl ⟨nothing, by omega, ?_, fun page => ?_⟩
  · simp only [areaPages, pageSize]
    omega
  · simp only [Requested, pageSize]
    omega

end KernelImx.Ashmem
