/-
**Splitting, and mprotect_fixup.**

Main result: `mprotectFixup_spec`.
-/

import KernelImx.Mmap.Merging

namespace KernelImx.Mmap

open List KernelImx.Lib Option Bool

variable {mask : Flags} {ignored : Option Nat → Flags} {before after : List Vma} {vma : Vma}
  {mapCount addr start stop : Nat} {newflags : Flags} {limits : Limits}

/-! ### split_vma -/

theorem span_none {α : Type} {keep : α → Bool} {items : List α}
    (fails : ∀ item ∈ items, keep item = false) :
    items.span keep = ([], items) := by
  cases items with
  | nil => rfl
  | cons item rest =>
    rw [span_eq_takeWhile_dropWhile, takeWhile_cons_of_neg, dropWhile_cons_of_neg] <;>
      simp [fails item mem_cons_self]

/-- A split fails, or it comes to the place. -/
def SplitsTo (result : Option (Except Errno Place)) (place : Place) : Prop :=
  (∃ error, result = some (.error error)) ∨ result = some (.ok place)

theorem SplitsTo.splitVma {newBelow : Bool} {place next : Place}
    (unchecked : SplitsTo (splitVmaUnchecked limits place addr newBelow) next) :
    SplitsTo (Mmap.splitVma limits place addr newBelow) next := by
  rw [Mmap.splitVma]
  split
  · exact .inl ⟨_, rfl⟩
  · exact unchecked

section Split

variable (ascending : Ascending Vma.vmStart Vma.vmEnd (before.reverse ++ vma :: after))
  (lower : vma.vmStart < addr) (upper : addr < vma.vmEnd)

include ascending lower upper

theorem splitVmaUnchecked_below :
    SplitsTo (splitVmaUnchecked limits ⟨before, vma, after, mapCount⟩ addr true)
      ⟨lowerPart vma addr :: before, upperPart vma addr, after, mapCount + 1⟩ := by
  have earlier : ∀ other ∈ before, decide (vma.vmStart < other.vmEnd) = false := by
    intro other member
    have apart := (ascending_append.mp ascending).2.2 other (mem_reverse.mpr member) vma
      mem_cons_self
    exact decide_eq_false (not_lt.mpr apart)
  rw [splitVmaUnchecked]
  split
  · exact .inl ⟨_, rfl⟩
  right
  simp only [if_true, vmaAdjust, insertVmStruct]
  rw [if_pos (lt_trans lower upper), span_none earlier]
  simp only [getLast?_nil, getD_none, lt_irrefl, if_false]
  rfl

omit lower in
theorem splitVmaUnchecked_above :
    SplitsTo (splitVmaUnchecked limits ⟨before, vma, after, mapCount⟩ addr false)
      ⟨before, lowerPart vma addr, upperPart vma addr :: after, mapCount + 1⟩ := by
  have behind : ∀ other ∈ after, vma.vmEnd ≤ other.vmStart :=
    (ascending_cons.mp (ascending_append.mp ascending).2.1).2.2
  have later : ∀ other ∈ after, decide (other.vmEnd ≤ addr) = false := by
    intro other member
    have nonempty := ascending.nonempty other (by simp [member])
    have apart := behind other member
    exact decide_eq_false (by omega)
  rw [splitVmaUnchecked]
  split
  · exact .inl ⟨_, rfl⟩
  right
  have free : (after.head?.any fun other => decide (other.vmStart < vma.vmEnd)) = false := by
    cases after with
    | nil => rfl
    | cons next rest => exact decide_eq_false (not_lt.mpr (behind next mem_cons_self))
  simp only [false_eq_true, if_false, vmaAdjust, insertVmStruct, lt_irrefl]
  rw [span_none later]
  simp only [free, false_eq_true, if_false]
  rfl

end Split

/-- The areas have the same pages, and are counted. -/
structure Unchanged (mask : Flags) (ignored : Option Nat → Flags) (mmap : List Vma)
    (cursor : Cursor) : Prop where
  same : Same mask ignored mmap cursor.mmap
  counted : cursor.mapCount = cursor.mmap.length

theorem Unchanged.rfl (place : Place) (counted : place.mapCount = place.mmap.length) :
    Unchanged mask ignored place.mmap place.cursor := by
  rw [← place.cursor_mmap] at counted
  exact ⟨place.cursor_mmap ▸ Same.refl _, counted⟩

section

variable (areas : CountedAreas mask ignored mapCount (before.reverse ++ vma :: after))
  (part : Part vma start stop newflags)

include areas part

theorem splitLower_spec :
    ∃ result, (if start == vma.vmStart then some (.ok ⟨before, vma, after, mapCount⟩)
        else splitVma limits ⟨before, vma, after, mapCount⟩ start true) = some result ∧
      ∀ place, result = .ok place →
        Unchanged mask ignored (before.reverse ++ vma :: after) place.cursor ∧
        place.vma.vmStart = start ∧ place.vma.vmEnd = vma.vmEnd ∧
        place.vma.vmFlags = vma.vmFlags ∧ place.after = after := by
  by_cases outer : start = vma.vmStart
  · refine ⟨_, if_pos (beq_iff_eq.mpr outer), ?_⟩
    rintro place ⟨⟩
    exact ⟨Unchanged.rfl ⟨before, vma, after, mapCount⟩ areas.counted, outer.symm, rfl, rfl, rfl⟩
  have inner : vma.vmStart < start := lt_of_le_of_ne part.lower (Ne.symm outer)
  have short : start < vma.vmEnd := lt_of_lt_of_le part.nonempty part.upper
  rw [if_neg (by simpa using outer)]
  rcases (splitVmaUnchecked_below areas.ascending inner short).splitVma with ⟨error, failed⟩ | done
  · exact ⟨_, failed, fun place equal => nomatch equal⟩
  refine ⟨_, done, ?_⟩
  rintro place ⟨⟩
  refine ⟨⟨?_, ?_⟩, rfl, rfl, rfl, rfl⟩
  · have joins : Joins mask vma (lowerPart vma start) (upperPart vma start) :=
      joins_parts inner short (areas.aligned vma (by simp)).1 part.alignedStart
    simpa [Place.cursor] using (joins.same before.reverse after).symm
  · rw [Place.cursor, areas.counted]
    simp [add_assoc]

/-- **The two splits.** The part is the area of the place that is left. -/
theorem splitBoth_spec :
    ∃ error place, splitBoth limits ⟨before, vma, after, mapCount⟩ start stop = some (error, place) ∧
      Unchanged mask ignored (before.reverse ++ vma :: after) place.cursor ∧
      (error = none → place.vma.vmStart = start ∧ place.vma.vmEnd = stop ∧
        place.vma.vmFlags = vma.vmFlags ∧ (stop = vma.vmEnd → place.after = after)) := by
  obtain ⟨result, first, lower⟩ :=
    @splitLower_spec mask ignored before after vma mapCount start stop newflags limits areas part
  rw [splitBoth]
  simp only [first, bind_some]
  cases result with
  | error error =>
    exact ⟨some error, _, rfl, Unchanged.rfl ⟨before, vma, after, mapCount⟩ areas.counted,
      fun equal => nomatch equal⟩
  | ok place =>
    obtain ⟨unchanged, starts, ends, flags, same⟩ := lower place rfl
    by_cases full : stop = place.vma.vmEnd
    · refine ⟨none, place, if_pos (beq_iff_eq.mpr full), unchanged, fun _ => ?_⟩
      exact ⟨starts, full.symm, flags, fun _ => same⟩
    have short : stop < place.vma.vmEnd := lt_of_le_of_ne (ends ▸ part.upper) full
    have inner : place.vma.vmStart < stop := starts ▸ part.nonempty
    have sorted : Areas mask ignored place.mmap := by
      rw [← place.cursor_mmap]
      exact unchanged.same.areas.mp areas.toAreas
    simp only
    rw [if_neg (by simpa using full)]
    rcases (splitVmaUnchecked_above sorted.ascending short).splitVma with ⟨error, failed⟩ | done
    · rw [failed]
      exact ⟨some error, place, rfl, unchanged, fun equal => nomatch equal⟩
    rw [done]
    refine ⟨none, _, rfl, ⟨unchanged.same.trans ?_, ?_⟩, fun _ => ⟨starts, rfl, flags, ?_⟩⟩
    · have joins : Joins mask place.vma (lowerPart place.vma stop) (upperPart place.vma stop) :=
        joins_parts inner short (sorted.aligned place.vma (by simp [Place.mmap])).1
          part.alignedStop
      simpa [Place.cursor, Place.mmap] using
        (joins.same place.before.reverse place.after).symm
    · have length := unchanged.counted
      rw [place.cursor_mmap] at length
      rw [Place.cursor]
      rw [show place.mapCount = place.mmap.length from length]
      simp [Place.mmap]
      omega
    · intro equal
      exact absurd (equal.trans ends.symm) full

end

/-! ### mprotect_fixup -/

/-- What one call leaves: with an error no page has changed, otherwise the part is served. -/
def Fixed (mask : Flags) (ignored : Option Nat → Flags) (place : Place) (start stop : Nat)
    (newflags : Flags) (outcome : Outcome) : Prop :=
  (∃ error, outcome.error = some error ∧ Unchanged mask ignored place.mmap outcome.cursor) ∨
    outcome.error = none ∧ ∃ flags, (flags = newflags ∨ flags = newflags ||| vmAccount) ∧
      Served mask ignored place start stop flags outcome.cursor

/-- The place of `vma` relative to `prev`: they are the same area if the part begins inside of it. -/
structure Stands (mask : Flags) (ignored : Option Nat → Flags) (cursor : Cursor) (inside : Bool)
    (place : Place) (start : Nat) : Prop where
  found : cursor.vmaPlace inside = some place
  areas : CountedAreas mask ignored place.mapCount place.mmap
  inner : inside = true → place.vma.vmStart < start
  outer : inside = false → start = place.vma.vmStart

variable {cursor : Cursor} {inside : Bool} {place : Place}

theorem vmaPlace_cases (found : cursor.vmaPlace inside = some place) :
    (inside = true ∧ cursor = ⟨place.vma :: place.before, place.after, place.mapCount⟩) ∨
      (inside = false ∧ cursor = ⟨place.before, place.vma :: place.after, place.mapCount⟩) := by
  obtain ⟨upTo, rest, mapCount⟩ := cursor
  cases inside with
  | true =>
    cases upTo with
    | nil => exact absurd found (by simp [Cursor.vmaPlace])
    | cons vma below =>
      cases found
      exact .inl ⟨rfl, rfl⟩
  | false =>
    cases rest with
    | nil => exact absurd found (by simp [Cursor.vmaPlace])
    | cons vma after =>
      cases found
      exact .inr ⟨rfl, rfl⟩

theorem Stands.unchanged (stands : Stands mask ignored cursor inside place start) :
    Unchanged mask ignored place.mmap cursor := by
  rcases vmaPlace_cases stands.found with ⟨-, rfl⟩ | ⟨-, rfl⟩
  · exact Unchanged.rfl place stands.areas.counted
  · exact ⟨Same.refl _, stands.areas.counted⟩

theorem vmaMerge_spec (stands : Stands mask ignored cursor inside place start)
    (part : Part place.vma start stop newflags) :
    Merges mask ignored place start stop newflags
      (vmaMerge cursor (requestOf place.vma start stop newflags)) := by
  rcases vmaPlace_cases stands.found with ⟨inside, rfl⟩ | ⟨outside, rfl⟩
  · exact vmaMerge_inside stands.areas part (stands.inner inside)
  · exact vmaMerge_ahead stands.areas part (stands.outer outside)

theorem served_already (areas : CountedAreas mask ignored place.mapCount place.mmap)
    (part : Part place.vma start stop place.vma.vmFlags) :
    Served mask ignored place start stop place.vma.vmFlags place.cursor := by
  have list := place.cursor_mmap
  refine ⟨list ▸ areas, fun addr => ?_, ⟨_, rfl, part.lower, part.upper, rfl⟩, fun _ => le_rfl⟩
  rw [list]
  split
  case isTrue covered =>
    rw [areas.pagesOf_member (mem_append_right _ mem_cons_self) (le_trans part.lower covered.1)
      (lt_of_lt_of_le covered.2 part.upper)]
    rfl
  case isFalse => rfl

theorem served_split {split : Place} (areas : Areas mask ignored place.mmap)
    (unchanged : Unchanged mask ignored place.mmap split.cursor)
    (starts : split.vma.vmStart = start) (ends : split.vma.vmEnd = stop)
    (kept : newflags &&& vmCanNonlinear = split.vma.vmFlags &&& vmCanNonlinear)
    (shorter : stop = place.vma.vmEnd → split.after = place.after) :
    ∃ cursor, split.cursor.setFlags newflags = some cursor ∧
      Served mask ignored place start stop newflags cursor := by
  obtain ⟨same, counted⟩ := unchanged
  rw [split.cursor_mmap] at same counted
  have piece : Piece mask ignored place start stop newflags split.vma split.before.reverse split.after :=
    ⟨areas, same, starts, ends, kept⟩
  refine ⟨_, rfl, piece.served (Same.refl _) (le_of_eq starts) (le_of_eq ends.symm) ?_ fun equal =>
    le_of_eq (congrArg length (shorter equal))⟩
  simpa [Place.mmap, Place.cursor] using counted

/-- One call of `mprotect_fixup`. -/
theorem mprotectFixup_spec {hooks : Hooks} {cursor : Cursor} {inside : Bool} {place : Place}
    (stands : Stands mask ignored cursor inside place start)
    (part : Part place.vma start stop newflags) :
    ∃ outcome, mprotectFixup limits hooks cursor place start stop newflags = some outcome ∧
      Fixed mask ignored place start stop newflags outcome := by
  rw [mprotectFixup]
  split
  case isTrue equal =>
    refine ⟨_, rfl, .inr ⟨rfl, newflags, .inl rfl, ?_⟩⟩
    rw [eq_of_beq equal] at part ⊢
    exact served_already stands.areas part
  case isFalse =>
    split
    case isTrue => exact ⟨_, rfl, .inl ⟨_, rfl, stands.unchanged⟩⟩
    case isFalse =>
      have account : (newflags ||| vmAccount) &&& vmCanNonlinear = newflags &&& vmCanNonlinear := by
        rw [BitVec.and_or_distrib_right]
        exact BitVec.or_zero
      generalize chosen : (if isCharged place.vma.vmFlags newflags = true then
        newflags ||| vmAccount else newflags) = flags
      have either : flags = newflags ∨ flags = newflags ||| vmAccount := by
        rw [← chosen]
        split
        · exact .inr rfl
        · exact .inl rfl
      have kept : flags &&& vmCanNonlinear = place.vma.vmFlags &&& vmCanNonlinear := by
        rcases either with rfl | rfl
        · exact part.kept
        · exact account.trans part.kept
      have part' : Part place.vma start stop flags := { part with kept := kept }
      have request : vmaMerge cursor ⟨start, stop, flags, place.vma.anonVma, place.vma.vmFile,
          place.vma.vmPgoff + pages (start - place.vma.vmStart), place.vma.vmPolicy⟩ =
            vmaMerge cursor (requestOf place.vma start stop flags) := rfl
      rcases vmaMerge_spec stands part' with none | ⟨merged, last, result, set, served⟩
      · obtain ⟨error, split, splits, unchanged, fits⟩ :=
          @splitBoth_spec mask ignored place.before place.after place.vma place.mapCount start stop
            flags limits stands.areas part'
        simp only [request, none, bind_some, splits]
        cases error with
        | some error => exact ⟨_, rfl, .inl ⟨error, rfl, unchanged⟩⟩
        | none =>
          obtain ⟨starts, ends, same, shorter⟩ := fits rfl
          obtain ⟨last, set, served⟩ := served_split stands.areas.toAreas unchanged starts ends
            (same ▸ kept) shorter
          simp only [set, map_some]
          exact ⟨_, rfl, .inr ⟨rfl, flags, either, served⟩⟩
      · simp only [request, result, bind_some, set, map_some]
        exact ⟨_, rfl, .inr ⟨rfl, flags, either, served⟩⟩

end KernelImx.Mmap
