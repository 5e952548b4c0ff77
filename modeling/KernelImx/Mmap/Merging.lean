/-
**vma_merge.**

What `vma_merge` makes of the areas when `mprotect_fixup` calls it for a part of one area. Every case
cuts the part out of its area, gives it the new flags and joins it with neighbours that have them
already.

* **`vmaMerge_inside`**, **`vmaMerge_ahead`**: `vma_merge` does one of these, or nothing.

Cases 1 to 3 are those of an unmapped part, which `mprotect` never asks for.
-/

import KernelImx.Mmap.Areas

namespace KernelImx.Mmap

open BitVec KernelImx.Lib Option List

variable {mask : Flags} {ignored : Option Nat → Flags} {importer exporter next : Vma} {start stop : Nat}

/-! ### Small facts -/

@[simp] theorem Cursor.mmap_mk (upTo rest : List Vma) (mapCount : Nat) :
    (Cursor.mk upTo rest mapCount).mmap = upTo.reverse ++ rest := rfl

@[simp] theorem Place.mmap_mk (before after : List Vma) (vma : Vma) (mapCount : Nat) :
    (Place.mk before vma after mapCount).mmap = before.reverse ++ vma :: after := rfl

theorem Place.cursor_mmap (place : Place) : place.cursor.mmap = place.mmap := by
  rw [Place.cursor, Cursor.mmap_mk, reverse_cons, List.append_assoc]
  rfl

theorem importAnon_eq (importer exporter : Vma) :
    ∃ anon, importAnon importer exporter = { importer with anonVma := anon } := by
  rw [importAnon]
  split
  · exact ⟨_, rfl⟩
  · exact ⟨importer.anonVma, rfl⟩

theorem importAnon_anonVma
    (mergeable : isMergeableAnonVma importer.anonVma exporter.anonVma = true) :
    (exporter.anonVma.isSome && (importAnon importer exporter).anonVma != exporter.anonVma) =
      false := by
  rw [importAnon, isMergeableAnonVma] at *
  cases exporterAnon : exporter.anonVma with
  | none => rfl
  | some anon =>
    cases importerAnon : importer.anonVma with
    | none => simp
    | some own => simpa [exporterAnon, importerAnon] using mergeable

theorem shiftRight_mul_pageSize {low high : Nat} (first : pageSize ∣ low) (last : pageSize ∣ high) :
    (high - low) >>> pageShift * pageSize = high - low := by
  rw [Nat.shiftRight_eq_div_pow]
  exact Nat.div_mul_cancel (Nat.dvd_sub last first)

theorem adjustStart_up (reached : next.vmStart ≤ stop)
    (alignedStart : pageSize ∣ next.vmStart) (aligned : pageSize ∣ stop) :
    adjustStart next ((stop - next.vmStart) >>> pageShift : Nat) =
      { next with vmStart := stop, vmPgoff := next.vmPgoff + pages (stop - next.vmStart) } := by
  have moved : ((next.vmStart : Int) +
      (((stop - next.vmStart) >>> pageShift : Nat) : Int) * (pageSize : Int)).toNat = stop := by
    rw [← Int.natCast_mul, shiftRight_mul_pageSize alignedStart aligned]
    omega
  rw [adjustStart, moved, ofInt_natCast]
  rfl

theorem adjustStart_down (reached : start ≤ next.vmStart)
    (aligned : pageSize ∣ start) (alignedStart : pageSize ∣ next.vmStart) :
    adjustStart next (-((next.vmStart - start) >>> pageShift : Nat)) =
      { next with vmStart := start, vmPgoff := next.vmPgoff - pages (next.vmStart - start) } := by
  have moved : ((next.vmStart : Int) +
      -(((next.vmStart - start) >>> pageShift : Nat) : Int) * (pageSize : Int)).toNat = start := by
    rw [Int.neg_mul, ← Int.natCast_mul, shiftRight_mul_pageSize aligned alignedStart]
    omega
  rw [adjustStart, moved, ofInt_neg, ofInt_natCast, ← sub_eq_add_neg]
  rfl

theorem isMergeableAnonVma_symm {one two : Option Nat}
    (mergeable : isMergeableAnonVma one two = true) :
    isMergeableAnonVma two one = true := by
  rw [isMergeableAnonVma] at *
  cases one <;> cases two <;> simp_all

theorem importAnon_mergeable {other : Option Nat}
    (one : isMergeableAnonVma importer.anonVma other = true)
    (two : isMergeableAnonVma exporter.anonVma other = true) :
    isMergeableAnonVma (importAnon importer exporter).anonVma other = true := by
  rw [importAnon]
  split
  · exact two
  · exact one

/-! ### vma_adjust -/

variable (vma : Vma)

def lowerPart (addr : Nat) : Vma := { vma with vmEnd := addr }

def upperPart (addr : Nat) : Vma :=
  { vma with vmStart := addr, vmPgoff := vma.vmPgoff + pages (addr - vma.vmStart) }

def cover (start stop : Nat) (pgoff : Pgoff) (anon : Option Nat) : Vma :=
  { vma with vmStart := start, vmEnd := stop, vmPgoff := pgoff, anonVma := anon }

section Adjust

variable {before rest : List Vma} {vma other : Vma} {mapCount : Nat} {pgoff : Pgoff}

/-- The boundary to the next area moves down. -/
theorem vmaAdjust_down (lower : start < vma.vmEnd) (touching : vma.vmEnd = next.vmStart)
    (nonempty : next.vmStart < next.vmEnd) (aligned : pageSize ∣ start)
    (alignedNext : pageSize ∣ next.vmStart) :
    ∃ anon, vmaAdjust ⟨before, vma, next :: rest, mapCount⟩ vma.vmStart start vma.vmPgoff none =
      some ⟨before, lowerPart vma start,
        cover next start next.vmEnd (next.vmPgoff - pages (next.vmStart - start)) anon :: rest,
        mapCount⟩ := by
  obtain ⟨anon, imported⟩ := importAnon_eq next vma
  have moved := @adjustStart_down { next with anonVma := anon } start
    (show start ≤ next.vmStart by omega) aligned alignedNext
  refine ⟨anon, ?_⟩
  simp only [vmaAdjust]
  rw [if_neg (by omega), if_neg (by omega), if_pos lower, imported, touching, moved]
  rfl

/-- The boundary to the next area moves up. -/
theorem vmaAdjust_up (reached : next.vmStart < stop) (short : stop < next.vmEnd)
    (aligned : pageSize ∣ stop) (alignedNext : pageSize ∣ next.vmStart) :
    ∃ anon, vmaAdjust ⟨before, vma, next :: rest, mapCount⟩ vma.vmStart stop vma.vmPgoff none =
      some ⟨before, cover vma vma.vmStart stop vma.vmPgoff anon, upperPart next stop :: rest,
        mapCount⟩ := by
  obtain ⟨anon, imported⟩ := importAnon_eq vma next
  refine ⟨anon, ?_⟩
  simp only [vmaAdjust]
  rw [if_neg (by omega), if_pos reached, imported,
    adjustStart_up (le_of_lt reached) alignedNext aligned]
  rfl

variable (mergeable : isMergeableAnonVma vma.anonVma next.anonVma = true)

include mergeable

/-- The next area goes away. -/
theorem vmaAdjust_one :
    ∃ anon, vmaAdjust ⟨before, vma, next :: rest, mapCount⟩ start next.vmEnd pgoff none =
      some ⟨before, cover vma start next.vmEnd pgoff anon, rest, mapCount - 1⟩ := by
  have fine := importAnon_anonVma mergeable
  obtain ⟨anon, imported⟩ := importAnon_eq vma next
  rw [imported] at fine
  refine ⟨anon, ?_⟩
  simp only [vmaAdjust, removeNext]
  rw [if_pos le_rfl, imported, if_neg (fine ▸ Bool.false_ne_true), if_neg (lt_irrefl _)]
  rfl

/-- The next two areas go away. -/
theorem vmaAdjust_two (mergeableOther : isMergeableAnonVma vma.anonVma other.anonVma = true)
    (mergeableBoth : isMergeableAnonVma next.anonVma other.anonVma = true)
    (behind : next.vmEnd < other.vmEnd) :
    ∃ anon, vmaAdjust ⟨before, vma, next :: other :: rest, mapCount⟩ start other.vmEnd pgoff none =
      some ⟨before, cover vma start other.vmEnd pgoff anon, rest, mapCount - 1 - 1⟩ := by
  have fine := importAnon_anonVma mergeable
  have further := importAnon_mergeable mergeableOther mergeableBoth
  obtain ⟨anon, imported⟩ := importAnon_eq vma next
  rw [imported] at fine further
  have fineOther := @importAnon_anonVma (cover vma start next.vmEnd pgoff anon) other further
  obtain ⟨last, importedOther⟩ := importAnon_eq (cover vma start next.vmEnd pgoff anon) other
  rw [importedOther] at fineOther
  unfold cover at importedOther
  refine ⟨last, ?_⟩
  simp only [vmaAdjust, removeNext]
  rw [if_pos (le_of_lt behind), imported, if_neg (fine ▸ Bool.false_ne_true), if_pos behind,
    importedOther, if_neg (fineOther ▸ Bool.false_ne_true), if_neg (by omega)]
  rfl

end Adjust

/-- **Mergeable flags are the same under the mask**, when the ignored bit goes with the file. -/
theorem mergeable_flags {one two : Flags} (alike : (one ^^^ two) &&& ~~~vmCanNonlinear = 0)
    (ignoredAlike : one &&& vmCanNonlinear &&& mask = two &&& vmCanNonlinear &&& mask) :
    one &&& mask = two &&& mask := by
  have outside : one &&& ~~~vmCanNonlinear = two &&& ~~~vmCanNonlinear := by
    apply eq_of_getLsbD_eq
    intro place _
    have bit : ((one.getLsbD place ^^ two.getLsbD place) && (~~~vmCanNonlinear).getLsbD place) =
        false := by
      rw [← getLsbD_xor, ← getLsbD_and, alike]
      exact getLsbD_zero
    rw [getLsbD_and, getLsbD_and]
    revert bit
    cases one.getLsbD place <;> cases two.getLsbD place <;>
      cases (~~~vmCanNonlinear).getLsbD place <;> decide
  have halves (flags : Flags) : flags &&& mask =
      (flags &&& vmCanNonlinear &&& mask) ||| (flags &&& ~~~vmCanNonlinear &&& mask) := by
    rw [← and_or_distrib_right, ← and_or_distrib_left, or_not_self,
      and_allOnes]
  rw [halves one, halves two, ignoredAlike, outside]

/-! ### A part of an area -/

/-- The part of an area that gets new flags. -/
structure Part (vma : Vma) (start stop : Nat) (newflags : Flags) : Prop where
  lower : vma.vmStart ≤ start
  nonempty : start < stop
  upper : stop ≤ vma.vmEnd
  alignedStart : pageSize ∣ start
  alignedStop : pageSize ∣ stop
  kept : newflags &&& vmCanNonlinear = vma.vmFlags &&& vmCanNonlinear

/-- What `mprotect_fixup` asks `vma_merge` for. -/
def requestOf (start stop : Nat) (newflags : Flags) : Request :=
  ⟨start, stop, newflags, vma.anonVma, vma.vmFile, vma.vmPgoff + pages (start - vma.vmStart),
    vma.vmPolicy⟩

@[simp] theorem requestOf_addr (start stop : Nat) (newflags : Flags) :
    (requestOf vma start stop newflags).addr = start := rfl

@[simp] theorem requestOf_stop (start stop : Nat) (newflags : Flags) :
    (requestOf vma start stop newflags).stop = stop := rfl

/-- Areas in order, and their number. -/
structure CountedAreas (mask : Flags) (ignored : Option Nat → Flags) (mapCount : Nat)
    (mmap : List Vma) : Prop extends Areas mask ignored mmap where
  counted : mapCount = mmap.length

/-- The part has its new flags, `prev` covers it, and the areas are in order. -/
structure Served (mask : Flags) (ignored : Option Nat → Flags) (place : Place) (start stop : Nat)
    (newflags : Flags) (cursor : Cursor) : Prop where
  areas : CountedAreas mask ignored cursor.mapCount cursor.mmap
  painted : Repainted mask place.mmap cursor.mmap start stop newflags
  prev : ∃ prev, cursor.upTo.head? = some prev ∧ prev.vmStart ≤ start ∧ stop ≤ prev.vmEnd ∧
    prev.vmFlags = newflags
  shorter : stop = place.vma.vmEnd → cursor.rest.length ≤ place.after.length

section Cases

variable {vma prev piece all : Vma} {before below after rest front back : List Vma}
  {mapCount count : Nat} {newflags : Flags} {anon : Option Nat} {place : Place}

theorem CountedAreas.length_eq
    (areas : CountedAreas mask ignored mapCount (before.reverse ++ vma :: after)) :
    mapCount = before.length + (after.length + 1) := by
  simpa using areas.counted

/-- A neighbour that can be merged with the part. -/
structure Neighbour (mask : Flags) (vma next : Vma) (newflags : Flags) : Prop where
  flags : next.vmFlags &&& mask = newflags &&& mask
  file : next.vmFile = vma.vmFile
  anon : isMergeableAnonVma vma.anonVma next.anonVma = true

/-- A neighbour that follows the part. -/
structure Follows (mask : Flags) (vma : Vma) (start stop : Nat) (newflags : Flags) (next : Vma) : Prop
    extends Neighbour mask vma next newflags where
  adjacent : stop = next.vmStart
  offset : next.vmPgoff = vma.vmPgoff + pages (start - vma.vmStart) + pages (stop - start)

/-- A neighbour that the part follows. -/
structure Precedes (mask : Flags) (vma : Vma) (start : Nat) (newflags : Flags) (prev : Vma) : Prop
    extends Neighbour mask vma prev newflags where
  adjacent : prev.vmEnd = start
  offset : prev.vmPgoff + pages (prev.vmEnd - prev.vmStart) =
    vma.vmPgoff + pages (start - vma.vmStart)

section Neighbours

variable {mmap : List Vma} (areas : Areas mask ignored mmap) (part : Part vma start stop newflags)
  (own : vma ∈ mmap)

include areas part own

theorem Areas.neighbour (other : next ∈ mmap)
    (mergeable : isMergeableVma next vma.vmFile newflags = true)
    (anon : isMergeableAnonVma vma.anonVma next.anonVma = true) :
    Neighbour mask vma next newflags := by
  simp only [isMergeableVma, Bool.and_eq_true, beq_iff_eq] at mergeable
  obtain ⟨⟨alike, file⟩, -⟩ := mergeable
  refine ⟨mergeable_flags alike ?_, file, anon⟩
  rw [areas.loyal next other, part.kept, areas.loyal vma own, file]

theorem Areas.follows (other : next ∈ mmap)
    (merges : mergesNext (requestOf vma start stop newflags) next = true) :
    Follows mask vma start stop newflags next := by
  simp only [mergesNext, canVmaMergeBefore, requestOf, Bool.and_eq_true, beq_iff_eq] at merges
  obtain ⟨⟨adjacent, -⟩, ⟨mergeable, anon⟩, offset⟩ := merges
  exact ⟨areas.neighbour part own other mergeable anon, adjacent, offset⟩

theorem Areas.precedes (other : prev ∈ mmap)
    (merges : mergesPrev (requestOf vma start stop newflags) prev = true) :
    Precedes mask vma start newflags prev := by
  simp only [mergesPrev, canVmaMergeAfter, requestOf, Bool.and_eq_true, beq_iff_eq] at merges
  obtain ⟨⟨adjacent, -⟩, ⟨mergeable, anon⟩, offset⟩ := merges
  exact ⟨areas.neighbour part own other mergeable anon, adjacent, offset⟩

end Neighbours

theorem joins_parts {addr : Nat} (lower : vma.vmStart < addr) (upper : addr < vma.vmEnd)
    (alignedStart : pageSize ∣ vma.vmStart) (aligned : pageSize ∣ addr) :
    Joins mask vma (lowerPart vma addr) (upperPart vma addr) :=
  ⟨rfl, rfl, rfl, lower, upper, rfl, rfl, rfl, rfl, rfl, rfl, alignedStart, aligned⟩

/-- The part as an area of its own. -/
structure Piece (mask : Flags) (ignored : Option Nat → Flags) (place : Place) (start stop : Nat)
    (newflags : Flags) (piece : Vma) (front back : List Vma) : Prop where
  areas : Areas mask ignored place.mmap
  same : Same mask ignored place.mmap (front ++ piece :: back)
  first : piece.vmStart = start
  last : piece.vmEnd = stop
  kept : newflags &&& vmCanNonlinear = piece.vmFlags &&& vmCanNonlinear

/-- The part as an area of its own, with its pages. -/
structure Offcut (mask : Flags) (ignored : Option Nat → Flags) (place : Place) (start stop : Nat)
    (newflags : Flags) (piece : Vma) (front back : List Vma) : Prop
    extends Piece mask ignored place start stop newflags piece front back where
  file : piece.vmFile = place.vma.vmFile
  offset : piece.vmPgoff = place.vma.vmPgoff + pages (start - place.vma.vmStart)

theorem Piece.served
    (cut : Piece mask ignored place start stop newflags piece front back)
    (joined : Same mask ignored (front ++ { piece with vmFlags := newflags } :: back)
      (below.reverse ++ { all with vmFlags := newflags } :: rest))
    (first : all.vmStart ≤ start) (last : stop ≤ all.vmEnd)
    (counted : count = below.length + (rest.length + 1))
    (shorter : stop = place.vma.vmEnd → rest.length ≤ place.after.length) :
    Served mask ignored place start stop newflags
      ⟨{ all with vmFlags := newflags } :: below, rest, count⟩ := by
  obtain ⟨sorted, painted⟩ := repaint cut.same joined cut.areas cut.kept
  rw [cut.first, cut.last] at painted
  exact ⟨⟨by simpa using sorted, by simpa using counted⟩, by simpa using painted,
    ⟨_, rfl, first, last, rfl⟩, shorter⟩

section Offcuts

variable (areas : CountedAreas mask ignored mapCount (before.reverse ++ vma :: after))
  (part : Part vma start stop newflags)

include areas part

theorem Offcut.upper (inner : vma.vmStart < start) (full : vma.vmEnd = stop) :
    Offcut mask ignored ⟨before, vma, after, mapCount⟩ start stop newflags (upperPart vma start)
      (lowerPart vma start :: before).reverse after := by
  have joins := @joins_parts mask vma start inner (lt_of_lt_of_le part.nonempty part.upper)
    (areas.aligned vma (by simp)).1 part.alignedStart
  exact ⟨⟨areas.toAreas, by simpa using (joins.same before.reverse after).symm, rfl, full, part.kept⟩,
    rfl, rfl⟩

variable (outer : start = vma.vmStart)

include outer

theorem Offcut.lower (short : stop < vma.vmEnd) :
    Offcut mask ignored ⟨before, vma, after, mapCount⟩ start stop newflags (lowerPart vma stop)
      before.reverse (upperPart vma stop :: after) := by
  have joins := @joins_parts mask vma stop (outer ▸ part.nonempty) short
    (areas.aligned vma (by simp)).1 part.alignedStop
  exact ⟨⟨areas.toAreas, (joins.same before.reverse after).symm, outer.symm, rfl, part.kept⟩, rfl,
    by simp [lowerPart, outer, pages]⟩

theorem Offcut.whole (full : stop = vma.vmEnd) :
    Offcut mask ignored ⟨before, vma, after, mapCount⟩ start stop newflags vma before.reverse after :=
  ⟨⟨areas.toAreas, Same.refl _, outer.symm, full.symm, part.kept⟩, rfl, by simp [outer, pages]⟩

end Offcuts

section

variable (cut : Offcut mask ignored place start stop newflags piece (prev :: below).reverse after)
  (precedes : Precedes mask place.vma start newflags prev)

include cut precedes

theorem Offcut.joins_prev :
    Joins mask { cover prev prev.vmStart stop prev.vmPgoff anon with vmFlags := newflags } prev
      { piece with vmFlags := newflags } := by
  have sorted := cut.same.areas.mp cut.areas
  refine ⟨rfl, precedes.adjacent.trans cut.first.symm, cut.last,
    sorted.ascending.nonempty prev (by simp), sorted.ascending.nonempty piece (by simp),
    precedes.flags, rfl, rfl, cut.file.trans precedes.file.symm, rfl, ?_,
    (sorted.aligned prev (by simp)).1, (sorted.aligned piece (by simp)).1⟩
  show piece.vmPgoff = prev.vmPgoff + pages (piece.vmStart - prev.vmStart)
  rw [cut.offset, ← precedes.offset, cut.first, precedes.adjacent]

/-- Cases 5 and 7: the previous area grows to the end of the part. -/
theorem served_prev (counted : count = below.length + (after.length + 1))
    (shorter : stop = place.vma.vmEnd → after.length ≤ place.after.length) :
    Served mask ignored place start stop newflags
      ⟨{ cover prev prev.vmStart stop prev.vmPgoff anon with vmFlags := newflags } :: below, after,
        count⟩ := by
  have sorted := cut.same.areas.mp cut.areas
  refine cut.served ?_ ?_ le_rfl counted shorter
  · simpa using (cut.joins_prev precedes).same below.reverse after
  · exact precedes.adjacent ▸ le_of_lt (sorted.ascending.nonempty prev (by simp))

end

/-- Cases 4 and 8: an area covers the part and the next area. -/
theorem served_next
    (cut : Offcut mask ignored place start stop newflags piece below.reverse (next :: rest))
    (follows : Follows mask place.vma start stop newflags next) (first : all.vmStart = start)
    (last : all.vmEnd = next.vmEnd) (file : all.vmFile = place.vma.vmFile)
    (offset : all.vmPgoff = next.vmPgoff - pages (stop - start))
    (counted : count = below.length + (rest.length + 1))
    (shorter : stop = place.vma.vmEnd → rest.length ≤ place.after.length) :
    Served mask ignored place start stop newflags
      ⟨{ all with vmFlags := newflags } :: below, rest, count⟩ := by
  have sorted := cut.same.areas.mp cut.areas
  have nonempty := sorted.ascending.nonempty next (by simp)
  have joins : Joins mask { all with vmFlags := newflags } { piece with vmFlags := newflags } next := by
    refine ⟨cut.first.trans first.symm, cut.last.trans follows.adjacent, last.symm,
      sorted.ascending.nonempty piece (by simp), nonempty, rfl, follows.flags,
      cut.file.trans file.symm, follows.file.trans file.symm, ?_, ?_, first ▸ cut.first ▸
        (sorted.aligned piece (by simp)).1, (sorted.aligned next (by simp)).1⟩
    · rw [cut.offset, offset, follows.offset, add_sub_cancel]
    · rw [offset, first, ← follows.adjacent, sub_add_cancel]
  exact cut.served (joins.same below.reverse rest) (le_of_eq first)
    (last ▸ follows.adjacent ▸ le_of_lt nonempty) counted shorter

/-- Case 6: the previous area grows to the end of the next one. -/
theorem served_both
    (cut : Offcut mask ignored place start stop newflags piece (prev :: below).reverse (next :: rest))
    (precedes : Precedes mask place.vma start newflags prev)
    (follows : Follows mask place.vma start stop newflags next)
    (counted : count = below.length + (rest.length + 1))
    (shorter : stop = place.vma.vmEnd → rest.length ≤ place.after.length) :
    Served mask ignored place start stop newflags
      ⟨{ cover prev prev.vmStart next.vmEnd prev.vmPgoff anon with vmFlags := newflags } :: below, rest,
        count⟩ := by
  have joins : Joins mask { cover prev prev.vmStart stop prev.vmPgoff anon with vmFlags := newflags }
      prev { piece with vmFlags := newflags } := cut.joins_prev precedes
  have sorted := cut.same.areas.mp cut.areas
  have nonempty := sorted.ascending.nonempty next (by simp)
  have earlier : prev.vmStart ≤ start := precedes.adjacent ▸ le_of_lt joins.lower
  have later : start ≤ stop := cut.first ▸ cut.last ▸ le_of_lt joins.upper
  have joinsNext : Joins mask
      { cover prev prev.vmStart next.vmEnd prev.vmPgoff anon with vmFlags := newflags }
      { cover prev prev.vmStart stop prev.vmPgoff anon with vmFlags := newflags } next := by
    refine ⟨rfl, follows.adjacent, rfl, lt_of_lt_of_le (precedes.adjacent ▸ joins.lower) later,
      nonempty, rfl, follows.flags, rfl, follows.file.trans precedes.file.symm, rfl, ?_,
      joins.alignedStart, (sorted.aligned next (by simp)).1⟩
    show next.vmPgoff = prev.vmPgoff + pages (next.vmStart - prev.vmStart)
    rw [follows.offset, ← precedes.offset, precedes.adjacent, ← follows.adjacent,
      pages_add earlier later joins.alignedStart (cut.first ▸ joins.aligned), add_assoc]
  refine cut.served ?_ earlier (follows.adjacent ▸ le_of_lt nonempty) counted shorter
  simpa using (joins.same below.reverse (next :: rest)).trans (joinsNext.same below.reverse rest)

/-! ### vma_merge -/

/-- What `vma_merge` leaves, once its area has got the new flags: nothing is done, or the part is
served. -/
def Merges (mask : Flags) (ignored : Option Nat → Flags) (place : Place) (start stop : Nat)
    (newflags : Flags) (result : Option (Option Cursor)) : Prop :=
  result = some none ∨ ∃ merged cursor, result = some (some merged) ∧
    merged.setFlags newflags = some cursor ∧
    Served mask ignored place start stop newflags cursor

theorem merges_of_adjust {origin moved : Place} {first last : Nat} {pgoff : Pgoff}
    (adjusted : vmaAdjust origin first last pgoff none = some moved)
    (served : Served mask ignored place start stop newflags
      ⟨{ moved.vma with vmFlags := newflags } :: moved.before, moved.after, moved.mapCount⟩) :
    Merges mask ignored place start stop newflags
      ((vmaAdjust origin first last pgoff none).map fun place => some place.cursor) := by
  rw [adjusted]
  exact .inr ⟨moved.cursor, _, rfl, rfl, served⟩

theorem vmaMerge_inside (areas : CountedAreas mask ignored mapCount (below.reverse ++ vma :: after))
    (part : Part vma start stop newflags) (inner : vma.vmStart < start) :
    Merges mask ignored ⟨below, vma, after, mapCount⟩ start stop newflags
      (vmaMerge ⟨vma :: below, after, mapCount⟩ (requestOf vma start stop newflags)) := by
  have short : start < vma.vmEnd := lt_of_lt_of_le part.nonempty part.upper
  have notPrev : mergesPrev (requestOf vma start stop newflags) vma = false := by
    have apart : (vma.vmEnd == start) = false := beq_eq_false_iff_ne.mpr (ne_of_gt short)
    rw [mergesPrev, requestOf, apart]
    rfl
  unfold vmaMerge
  split
  · exact .inl rfl
  cases after with
  | nil =>
    left
    simp only [nextArea, filter_none, notPrev, Bool.false_eq_true, if_false]
  | cons next rest =>
    have ordered : vma.vmEnd ≤ next.vmStart ∧ next.vmStart < next.vmEnd := by
      have apart := (ascending_append.mp areas.ascending).2.1
      exact ⟨(ascending_cons.mp apart).2.2 next mem_cons_self,
        areas.ascending.nonempty next (by simp)⟩
    have upper := part.upper
    have notEnd : (next.vmEnd == stop) = false := beq_eq_false_iff_ne.mpr (by omega)
    have area : nextArea (next :: rest) (requestOf vma start stop newflags).stop = some next := by
      rw [requestOf_stop, nextArea, notEnd, if_neg Bool.false_ne_true]
    by_cases merges : mergesNext (requestOf vma start stop newflags) next = true
    · right
      have follows := areas.follows part (by simp) (by simp) merges
      have touching : vma.vmEnd = next.vmStart :=
        le_antisymm ordered.1 (follows.adjacent ▸ part.upper)
      obtain ⟨anon, adjusted⟩ := @vmaAdjust_down next start below rest vma mapCount short touching
        ordered.2 part.alignedStart (areas.aligned next (by simp)).1
      have cut := Offcut.upper areas part inner (touching.trans follows.adjacent.symm)
      have counted := areas.length_eq
      rw [length_cons] at counted
      refine ⟨⟨cover next start next.vmEnd (next.vmPgoff - pages (next.vmStart - start)) anon ::
        lowerPart vma start :: below, rest, mapCount⟩, _, ?_, rfl, served_next cut follows rfl rfl
        follows.file (by rw [follows.adjacent]; rfl) (by dsimp only; rw [length_cons]; omega) (by simp)⟩
      simp only [area, filter_some, notPrev, Bool.false_eq_true, if_false, merges, if_true,
        requestOf_addr, short, adjusted]
      rfl
    · left
      simp only [area, filter_some, notPrev, Bool.false_eq_true, if_false, merges]

theorem nextArea_ahead (part : Part vma start stop newflags) (outer : start = vma.vmStart) :
    (nextArea (vma :: after) stop).filter (mergesNext (requestOf vma start stop newflags)) = none ∨
      ∃ next rest, after = next :: rest ∧ stop = vma.vmEnd ∧
        mergesNext (requestOf vma start stop newflags) next = true ∧
        (nextArea (vma :: after) stop).filter (mergesNext (requestOf vma start stop newflags)) =
          some next := by
  rw [nextArea]
  by_cases whole : vma.vmEnd = stop
  · rw [if_pos (beq_iff_eq.mpr whole)]
    cases after with
    | nil => exact .inl rfl
    | cons next rest =>
      by_cases merges : mergesNext (requestOf vma start stop newflags) next = true
      · exact .inr ⟨next, rest, rfl, whole.symm, merges, if_pos merges⟩
      · exact .inl (if_neg merges)
  · have apart : (stop == vma.vmStart) = false :=
      beq_eq_false_iff_ne.mpr (outer ▸ ne_of_gt part.nonempty)
    have notOwn : mergesNext (requestOf vma start stop newflags) vma = false := by
      rw [mergesNext, requestOf_stop, apart]
      rfl
    rw [if_neg (by simpa using whole), filter_some, notOwn]
    exact .inl rfl

section Ahead

variable (areas : CountedAreas mask ignored mapCount (before.reverse ++ vma :: after))
  (part : Part vma start stop newflags) (outer : start = vma.vmStart)

include areas part outer

/-- Case 8, as `vma_merge` comes to it. -/
theorem extendArea_merges (split : after = next :: rest) (full : stop = vma.vmEnd)
    (merges : mergesNext (requestOf vma start stop newflags) next = true) :
    Merges mask ignored ⟨before, vma, after, mapCount⟩ start stop newflags
      (extendArea ⟨before, vma :: after, mapCount⟩ (requestOf vma start stop newflags) next) := by
  subst split
  have follows := areas.follows part (by simp) (by simp) merges
  obtain ⟨anon, adjusted⟩ := @vmaAdjust_one next start before rest vma mapCount
    (next.vmPgoff - pages (stop - start)) follows.anon
  have counted := areas.length_eq
  simp only [length_cons] at counted
  exact merges_of_adjust adjusted (served_next (Offcut.whole areas part outer full) follows rfl rfl
    rfl rfl (by dsimp only; omega) (by simp))

omit areas in
/-- Cases 5 and 7, as `vma_merge` comes to them. -/
theorem mergePrev_merges
    (areas : CountedAreas mask ignored mapCount ((prev :: below).reverse ++ vma :: after))
    (merges : mergesPrev (requestOf vma start stop newflags) prev = true) :
    Merges mask ignored ⟨prev :: below, vma, after, mapCount⟩ start stop newflags
      ((vmaAdjust ⟨below, prev, vma :: after, mapCount⟩ prev.vmStart stop prev.vmPgoff none).map
        fun place => some place.cursor) := by
  have precedes := areas.precedes part (by simp) (by simp) merges
  have counted := areas.length_eq
  rw [length_cons] at counted
  by_cases short : stop < vma.vmEnd
  · obtain ⟨anon, adjusted⟩ := @vmaAdjust_up vma stop below after prev mapCount
      (outer ▸ part.nonempty) short part.alignedStop (areas.aligned vma (by simp)).1
    exact merges_of_adjust adjusted (served_prev (Offcut.lower areas part outer short) precedes
      (by rw [length_cons]; dsimp only; omega) fun equal => absurd equal (ne_of_lt short))
  · have full : stop = vma.vmEnd := le_antisymm part.upper (not_lt.mp short)
    obtain ⟨anon, adjusted⟩ := @vmaAdjust_one vma prev.vmStart below after prev mapCount prev.vmPgoff
      (isMergeableAnonVma_symm precedes.anon)
    rw [← full] at adjusted
    exact merges_of_adjust adjusted (served_prev (Offcut.whole areas part outer full) precedes
      (by dsimp only; omega) fun _ => le_rfl)

omit areas in
/-- Case 6, as `vma_merge` comes to it. -/
theorem mergeBoth_merges
    (areas : CountedAreas mask ignored mapCount ((prev :: below).reverse ++ vma :: next :: rest))
    (full : stop = vma.vmEnd) (merges : mergesPrev (requestOf vma start stop newflags) prev = true)
    (mergesAlso : mergesNext (requestOf vma start stop newflags) next = true)
    (anon : isMergeableAnonVma prev.anonVma next.anonVma = true) :
    Merges mask ignored ⟨prev :: below, vma, next :: rest, mapCount⟩ start stop newflags
      ((vmaAdjust ⟨below, prev, vma :: next :: rest, mapCount⟩ prev.vmStart next.vmEnd prev.vmPgoff
        none).map fun place => some place.cursor) := by
  have precedes := areas.precedes part (by simp) (by simp) merges
  have follows := areas.follows part (by simp) (by simp) mergesAlso
  have behind : vma.vmEnd < next.vmEnd := by
    rw [← full, follows.adjacent]
    exact areas.ascending.nonempty next (by simp)
  obtain ⟨kept, adjusted⟩ := @vmaAdjust_two vma prev.vmStart below rest prev next mapCount
    prev.vmPgoff (isMergeableAnonVma_symm precedes.anon) anon follows.anon behind
  have counted := areas.length_eq
  simp only [length_cons] at counted
  exact merges_of_adjust adjusted (served_both (Offcut.whole areas part outer full) precedes follows
    (by dsimp only; omega) (by simp))

theorem vmaMerge_ahead :
    Merges mask ignored ⟨before, vma, after, mapCount⟩ start stop newflags
      (vmaMerge ⟨before, vma :: after, mapCount⟩ (requestOf vma start stop newflags)) := by
  have found := @nextArea_ahead start stop vma after newflags part outer
  unfold vmaMerge
  split
  · exact .inl rfl
  simp only [requestOf_stop]
  cases before with
  | nil =>
    rcases found with none | ⟨next, rest, split, full, merges, found⟩
    · rw [none]
      exact .inl rfl
    · rw [found]
      exact extendArea_merges areas part outer split full merges
  | cons prev below =>
    simp only
    split
    case isTrue merges =>
      rcases found with none | ⟨next, rest, rfl, full, mergesAlso, found⟩
      · rw [none]
        exact mergePrev_merges part outer areas merges
      simp only [found]
      split
      case isTrue anon =>
        exact mergeBoth_merges part outer areas full merges mergesAlso anon
      case isFalse => exact mergePrev_merges part outer areas merges
    case isFalse =>
      rcases found with none | ⟨next, rest, split, full, merges, found⟩
      · rw [none]
        exact .inl rfl
      have ordered : ¬start < prev.vmEnd := by
        have apart := (ascending_append.mp areas.ascending).2.2 prev (by simp) vma mem_cons_self
        omega
      simp only [found, requestOf_addr, ordered, if_false]
      exact extendArea_merges areas part outer split full merges

end Ahead

end Cases

end KernelImx.Mmap
