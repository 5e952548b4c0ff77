/-
**A refused vma_merge.**

`vma_merge` and `vma_adjust` again, with an `anon_vma_clone` that may fail. `vma_adjust` calls it in
each round of its `goto again`, so it can fail when the first of two areas is gone already.

Main result: `vmaMerge_refused_iff`.
-/

import KernelImx.Mmap.Protection

namespace KernelImx.Mmap

open KernelImx.Lib List Option

/-! ### The model -/

/-- `anon_vma_clone` is called. -/
def clonesAnon (importer exporter : Vma) : Bool :=
  exporter.anonVma.isSome && importer.anonVma.isNone

/-- `removeNext`, where `fails` tells of each round whether `anon_vma_clone` fails in it. -/
def removeNextFailing (fails : Nat → Bool) (start : Nat) (pgoff : Pgoff) :
    Nat → Vma → Nat → List Vma → Nat → Option (Option Errno × Vma × List Vma × Nat)
  | _, _, _, [], _ => none
  | round, vma, stop, next :: rest, mapCount =>
    if clonesAnon vma next && fails round then some (some .enomem, vma, next :: rest, mapCount)
    else
      let vma := { importAnon vma next with vmStart := start, vmEnd := next.vmEnd, vmPgoff := pgoff }
      if next.anonVma.isSome && vma.anonVma != next.anonVma then none
      else if next.vmEnd < stop then
        removeNextFailing fails start pgoff (round + 1) vma next.vmEnd rest (mapCount - 1)
      else some (none, vma, rest, mapCount - 1)

variable (fails : Nat → Bool)

/-- `vma_adjust` without `insert`: what it returns, and what it leaves. -/
def vmaAdjustFailing (place : Place) (start stop : Nat) (pgoff : Pgoff) :
    Option (Option Errno × Place) :=
  let adjusted := (vmaAdjust place start stop pgoff none).map fun place => (none, place)
  match place.after with
  | [] => adjusted
  | next :: rest =>
    if next.vmEnd ≤ stop then
      (removeNextFailing fails start pgoff 0 place.vma stop (next :: rest) place.mapCount).map
        fun (error, vma, after, mapCount) => (error, { place with vma, after, mapCount })
    else if next.vmStart < stop then
      if clonesAnon place.vma next && fails 0 then some (some .enomem, place) else adjusted
    else if stop < place.vma.vmEnd && clonesAnon next place.vma && fails 0 then
      some (some .enomem, place)
    else adjusted

/-- What `vma_merge` returns after the call: an area, or NULL with the areas as they are then. -/
def adjustResult (place : Place) (start stop : Nat) (pgoff : Pgoff) (ahead : Bool) :
    Option (Except Mm Cursor) :=
  (vmaAdjustFailing fails place start stop pgoff).bind fun
    | (some _, place) => some (.error ⟨place.mmap, place.mapCount⟩)
    | (none, place) => (if ahead then place.cursor.advance else some place.cursor).map .ok

/-- The new end of `prev` in cases 1, 2, 5, 6 and 7. -/
def mergedEnd (request : Request) (prev : Vma) (next : Option Vma) : Nat :=
  ((next.filter fun next => isMergeableAnonVma prev.anonVma next.anonVma).map Vma.vmEnd).getD request.stop

/-- **`vma_merge`.** -/
def vmaMergeFailing (cursor : Cursor) (request : Request) : Option (Except Mm Cursor) :=
  let refused := some (.error ⟨cursor.mmap, cursor.mapCount⟩)
  let next := (nextArea cursor.rest request.stop).filter (mergesNext request)
  let extend :=
    match next, cursor.rest with
    | some next, area :: others =>
      adjustResult fails ⟨cursor.upTo, area, others, cursor.mapCount⟩ request.addr next.vmEnd
        (next.vmPgoff - pages (request.stop - request.addr)) false
    | _, _ => refused
  if request.vmFlags &&& vmSpecial ≠ 0 then refused
  else
    match cursor.upTo with
    | [] => extend
    | prev :: below =>
      let place : Place := ⟨below, prev, cursor.rest, cursor.mapCount⟩
      if mergesPrev request prev then
        adjustResult fails place prev.vmStart (mergedEnd request prev next) prev.vmPgoff false
      else if next.isSome ∧ request.addr < prev.vmEnd then
        adjustResult fails place prev.vmStart request.addr prev.vmPgoff true
      else extend

/-! ### A NULL -/

/-- The first round of `vma_adjust` succeeds without `anon_vma_clone`, and the second one fails. -/
def FailsLate (vma area next : Vma) : Prop :=
  vma.anonVma = none ∧ area.anonVma = none ∧ next.anonVma ≠ none ∧ fails 1 = true

section Adjust

variable {fails : Nat → Bool} {before rest : List Vma} {vma area next : Vma}
  {mapCount start stop : Nat} {pgoff : Pgoff} {error : Errno}

/-- **An error in the second round**: the next area is gone. -/
theorem vmaAdjustFailing_late (beyond : area.vmEnd < stop) (late : FailsLate fails vma area next) :
    vmaAdjustFailing fails ⟨before, vma, area :: next :: rest, mapCount⟩ start stop pgoff =
      some (some .enomem, ⟨before, cover vma start area.vmEnd pgoff none, next :: rest,
        mapCount - 1⟩) := by
  obtain ⟨own, none, some, fails⟩ := late
  have clones : next.anonVma.isSome = true := isSome_iff_ne_none.mpr some
  simp [vmaAdjustFailing, removeNextFailing, beyond.le, beyond, clonesAnon, importAnon, none, own,
    clones, fails, cover]

theorem importAnon_isNone (lacks : (importAnon vma area).anonVma.isNone = true) :
    vma.anonVma = .none ∧ area.anonVma = .none := by
  rw [importAnon] at lacks
  cases own : vma.anonVma <;> cases other : area.anonVma <;> simp_all

theorem removeNextFailing_kept {result : Vma × List Vma × Nat}
    (ascending : Ascending Vma.vmStart Vma.vmEnd (area :: rest))
    (early : ∀ next rest', rest = next :: rest' → area.vmEnd < stop → ¬ FailsLate fails vma area next)
    (failed : removeNextFailing fails start pgoff 0 vma stop (area :: rest) mapCount =
      some (some error, result)) : result = (vma, area :: rest, mapCount) := by
  rw [removeNextFailing] at failed
  dsimp only at failed
  split at failed
  · cases failed
    rfl
  split at failed
  · cases failed
  split at failed
  case isFalse => cases failed
  case isTrue beyond =>
    cases rest with
    | nil => cases failed
    | cons next rest =>
      have behind : area.vmEnd < next.vmEnd :=
        ((ascending_cons.mp ascending).2.2 next mem_cons_self).trans_lt
          (ascending.nonempty next (by simp))
      rw [removeNextFailing] at failed
      dsimp only at failed
      split at failed
      case isTrue clones =>
        simp only [clonesAnon, Bool.and_eq_true] at clones
        obtain ⟨own, none⟩ := importAnon_isNone clones.1.2
        exact absurd ⟨own, none, isSome_iff_ne_none.mp clones.1.1, clones.2⟩
          (early next rest rfl beyond)
      case isFalse =>
        split at failed
        · cases failed
        rw [if_neg (by omega)] at failed
        cases failed

/-- **Any other error** leaves the areas alone. -/
theorem adjustResult_kept {place : Place} {ahead : Bool} {mm : Mm}
    (ascending : Ascending Vma.vmStart Vma.vmEnd place.after)
    (early : ∀ area next rest, place.after = area :: next :: rest → area.vmEnd < stop →
      ¬ FailsLate fails place.vma area next)
    (failed : adjustResult fails place start stop pgoff ahead = some (.error mm)) :
    mm = ⟨place.mmap, place.mapCount⟩ := by
  obtain ⟨⟨error, place'⟩, adjusted, returned⟩ := bind_eq_some_iff.mp failed
  cases error with
  | none =>
    obtain ⟨_, -, same⟩ := map_eq_some_iff.mp returned
    cases same
  | some error =>
    cases returned
    have returns : (vmaAdjust place start stop pgoff none).map (fun place => (none, place)) ≠
        some (some error, place') := fun equal => by
      obtain ⟨_, -, same⟩ := map_eq_some_iff.mp equal
      cases same
    obtain ⟨before, vma, after, mapCount⟩ := place
    unfold vmaAdjustFailing at adjusted
    cases after with
    | nil => exact absurd adjusted returns
    | cons area rest =>
      dsimp only at adjusted
      split at adjusted
      · obtain ⟨⟨failure, result⟩, removed, same⟩ := map_eq_some_iff.mp adjusted
        cases same
        cases removeNextFailing_kept ascending
          (fun next rest equal => early area next rest (by rw [equal])) removed
        rfl
      · split at adjusted
        all_goals
          split at adjusted
          · cases adjusted
            rfl
          · exact absurd adjusted returns

end Adjust

/-- A request that is merged with `prev` and whose end is beyond the next area, or merged with the
one behind. -/
def SwallowsTwo (request : Request) (prev area next : Vma) : Prop :=
  request.vmFlags &&& vmSpecial = 0 ∧ mergesPrev request prev = true ∧
    (area.vmEnd < request.stop ∨ area.vmEnd = request.stop ∧ mergesNext request next = true)

theorem lt_mergedEnd {request : Request} {rest : List Vma} {prev area next : Vma}
    (own : prev.anonVma = none) (ascending : Ascending Vma.vmStart Vma.vmEnd (area :: next :: rest)) :
    area.vmEnd < mergedEnd request prev
        ((nextArea (area :: next :: rest) request.stop).filter (mergesNext request)) ↔
      area.vmEnd < request.stop ∨ area.vmEnd = request.stop ∧ mergesNext request next = true := by
  obtain ⟨nonempty, later, behind⟩ := ascending_cons.mp ascending
  have reaches := behind next mem_cons_self
  have nonemptyNext := later.nonempty next mem_cons_self
  have any (next : Vma) : isMergeableAnonVma prev.anonVma next.anonVma = true := by
    rw [own]
    rfl
  by_cases ends : area.vmEnd = request.stop
  · by_cases also : mergesNext request next = true
    · simp [mergedEnd, nextArea, filter_some, ends, also, any]
      omega
    · simp [mergedEnd, nextArea, filter_some, ends, also]
  · by_cases touches : mergesNext request area = true
    · have touching : request.stop = area.vmStart := by
        simp only [mergesNext, Bool.and_eq_true, beq_iff_eq] at touches
        exact touches.1.1
      simp [mergedEnd, nextArea, filter_some, ends, touches, any]
      omega
    · simp [mergedEnd, nextArea, filter_some, ends, touches]

/-- **A NULL of `vma_merge` leaves the areas as they were**, except when two areas are swallowed and
`anon_vma_clone` fails for the second one only. -/
theorem vmaMerge_refused_iff (fails : Nat → Bool) (cursor : Cursor) (request : Request)
    (wellFormed : Mm.WellFormed ⟨cursor.mmap, cursor.mapCount⟩) :
    (∀ mm, vmaMergeFailing fails cursor request = some (.error mm) → mm = ⟨cursor.mmap, cursor.mapCount⟩) ↔
    ¬ ∃ prev below area next rest, cursor.upTo = prev :: below ∧ cursor.rest = area :: next :: rest ∧
      SwallowsTwo request prev area next ∧ FailsLate fails prev area next := by
  obtain ⟨ascending, -, counted⟩ := wellFormed
  obtain ⟨upTo, rest, mapCount⟩ := cursor
  obtain ⟨-, above, apart⟩ := ascending_append.mp ascending
  constructor
  · rintro unchanged ⟨prev, below, area, next, rest, rfl, rfl, ⟨plain, merges, two⟩, late⟩
    have count := unchanged ⟨_, mapCount - 1⟩ (by
      simp only [vmaMergeFailing, plain, merges, adjustResult,
        vmaAdjustFailing_late ((lt_mergedEnd late.1 above).mpr two) late]
      rfl)
    simp [Cursor.mmap] at counted count
  · intro early mm failed
    unfold vmaMergeFailing at failed
    dsimp only at failed
    generalize found : (nextArea rest request.stop).filter (mergesNext request) = next at failed
    have extended : (match next, rest with
        | some next, area :: others =>
          adjustResult fails ⟨upTo, area, others, mapCount⟩ request.addr next.vmEnd
            (next.vmPgoff - pages (request.stop - request.addr)) false
        | _, _ => some (.error ⟨Cursor.mmap ⟨upTo, rest, mapCount⟩, mapCount⟩)) = some (.error mm) →
        mm = ⟨Cursor.mmap ⟨upTo, rest, mapCount⟩, mapCount⟩ := by
      intro failed
      split at failed
      case h_2 =>
        cases failed
        rfl
      case h_1 next area others =>
        obtain ⟨-, later, behind⟩ := ascending_cons.mp above
        refine adjustResult_kept later ?_ failed
        rintro other further rest rfl beyond
        have reaches := behind other mem_cons_self
        have nonempty := later.nonempty other mem_cons_self
        have found := (filter_eq_some_iff.mp found).1
        rw [nextArea] at found
        split at found <;> cases found <;> dsimp only at * <;> omega
    split at failed
    · cases failed
      rfl
    case isFalse plain =>
      split at failed
      · exact extended failed
      case h_2 prev below =>
        have same : Place.mmap ⟨below, prev, rest, mapCount⟩ =
            Cursor.mmap ⟨prev :: below, rest, mapCount⟩ := by simp [Place.mmap, Cursor.mmap]
        split at failed
        case isTrue merges =>
          rw [← same]
          refine adjustResult_kept above ?_ failed
          rintro area next rest rfl beyond late
          rw [← found, lt_mergedEnd late.1 above] at beyond
          exact early ⟨prev, below, area, next, rest, rfl, rfl, ⟨not_not.mp plain, merges, beyond⟩, late⟩
        case isFalse =>
          split at failed
          case isFalse => exact extended failed
          case isTrue inside =>
            rw [← same]
            refine adjustResult_kept above ?_ failed
            rintro area next rest rfl beyond
            have behind := apart prev (by simp) area mem_cons_self
            have nonempty := above.nonempty area mem_cons_self
            omega

/-- Three pages of one mapping next to each other. The middle one is read only, and only the last one
has an `anon_vma`. -/
def middleReadOnly : Cursor :=
  ⟨[⟨0x1000, 0x2000, vmRead ||| vmWrite, none, 1, none, none, false⟩],
    [⟨0x2000, 0x3000, vmRead, none, 2, none, none, false⟩,
      ⟨0x3000, 0x4000, vmRead ||| vmWrite, none, 3, none, some 0, false⟩], 3⟩

def writableMiddle : Request := ⟨0x2000, 0x3000, vmRead ||| vmWrite, none, none, 2, none⟩

theorem middleReadOnly_wellFormed : Mm.WellFormed ⟨middleReadOnly.mmap, middleReadOnly.mapCount⟩ :=
  ⟨⟨by decide, by decide⟩, by decide, rfl⟩

/-- The same areas, but only the middle one has an `anon_vma`. -/
def middleAnon : Cursor :=
  { middleReadOnly with rest := [⟨0x2000, 0x3000, vmRead, none, 2, none, some 0, false⟩,
      ⟨0x3000, 0x4000, vmRead ||| vmWrite, none, 3, none, none, false⟩] }

/-- The first round fails, and the merge is refused with the areas as they were. -/
theorem vmaMerge_refused_iff_middle :
    ∃ mm, vmaMergeFailing (· == 0) middleAnon writableMiddle = some (.error mm) ∧
      mm = ⟨middleAnon.mmap, middleAnon.mapCount⟩ :=
  ⟨_, rfl, (vmaMerge_refused_iff (· == 0) middleAnon writableMiddle
    ⟨⟨by decide, by decide⟩, by decide, rfl⟩).mpr
    (fun ⟨_, _, _, _, _, _, _, _, _, _, _, fails⟩ => nomatch fails) _ rfl⟩

/-- **The middle page is gone** when `anon_vma_clone` fails: the first area has grown over it, and
`mprotect_fixup` goes on with the area of the middle page. -/
theorem vmaMerge_refused_late : Mm.WellFormed ⟨middleReadOnly.mmap, middleReadOnly.mapCount⟩ ∧
    ∃ mm, vmaMergeFailing (· == 1) middleReadOnly writableMiddle = some (.error mm) ∧
      mm.mmap.map (fun vma => (vma.vmStart, vma.vmEnd)) = [(0x1000, 0x3000), (0x3000, 0x4000)] ∧
      mm.mapCount = 2 :=
  ⟨middleReadOnly_wellFormed, _, rfl, by decide, rfl⟩

end KernelImx.Mmap
