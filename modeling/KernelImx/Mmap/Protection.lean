/-
**mprotect changes the requested pages, and no others.**

* **`mprotect_exact`**: the system call, for every address space in order. Two areas that differ in
  `VM_CAN_NONLINEAR` only are merged, so this bit of a page may change with its neighbour;
  if the areas of a file agree about it, nothing else changes at all.
-/

import KernelImx.Mmap.Fixup

namespace KernelImx.Mmap

open List BitVec KernelImx.Lib Option

variable {mask vmFlags : Flags} {ignored : Option Nat → Flags} {limits : Limits} {hooks : Nat → Hooks}
  {mm : Mm} {vma : Vma} {old rest : List Vma} {range : Nat × Nat} {first nstart stop : Nat}
  {place : Place} {cursor : Cursor}

/-! ### Pages after a call -/

/-- A page with the requested access, and otherwise as it was, `VM_ACCOUNT` apart. -/
structure Granted (vmFlags : Flags) (old new : Page) : Prop where
  access : new.flags &&& accessBits = vmFlags
  others : new.flags &&& ~~~(accessBits ||| vmAccount) = old.flags &&& ~~~(accessBits ||| vmAccount)
  file : new.file = old.file
  offset : new.offset = old.offset

/-- The pages from `first` to `last` are granted, the others are unchanged. -/
structure Protected (mask vmFlags : Flags) (first last : Nat) (before after : List Vma) : Prop where
  granted : ∀ addr, first ≤ addr → addr < last → ∃ old new, pagesOf mask before addr = some old ∧
    pagesOf mask after addr = some new ∧ Granted vmFlags old new
  others : ∀ addr, addr < first ∨ last ≤ addr → pagesOf mask after addr = pagesOf mask before addr

theorem Protected.refl (first : Nat) (mmap : List Vma) :
    Protected mask vmFlags first first mmap mmap :=
  ⟨fun _ low high => absurd high (not_lt.mpr low), fun _ _ => rfl⟩

theorem newflags_granted {old flags : Flags} (requested : vmFlags &&& accessBits = vmFlags)
    (masked : accessBits &&& mask = accessBits)
    (chosen : flags = newflagsOf vmFlags old ∨ flags = newflagsOf vmFlags old ||| vmAccount) :
    flags &&& mask &&& accessBits = vmFlags ∧
      flags &&& mask &&& ~~~(accessBits ||| vmAccount) =
        old &&& mask &&& ~~~(accessBits ||| vmAccount) := by
  have apart (place : Nat) : (accessBits.getLsbD place && vmAccount.getLsbD place) = false := by
    rw [← getLsbD_and]
    exact getLsbD_zero
  constructor
  all_goals
    apply eq_of_getLsbD_eq
    intro place small
    rcases chosen with rfl | rfl
    all_goals
      simp only [newflagsOf, getLsbD_and, getLsbD_or, getLsbD_not, small,
        decide_true, Bool.true_and] at *
      grind

/-- One round of the loop, also when `prev` has swallowed areas behind the part. -/
theorem protected_round {tmp last : Nat} {flags : Flags} (requested : vmFlags &&& accessBits = vmFlags)
    (masked : accessBits &&& mask = accessBits) (areas : Areas mask ignored place.mmap)
    (done : Protected mask vmFlags first nstart old place.mmap) (ordered : first ≤ nstart)
    (part : Part place.vma nstart tmp (newflagsOf vmFlags place.vma.vmFlags))
    (chosen : flags = newflagsOf vmFlags place.vma.vmFlags ∨
      flags = newflagsOf vmFlags place.vma.vmFlags ||| vmAccount)
    (served : Served mask ignored place nstart tmp flags cursor)
    (reached : tmp ≤ last) {prev : Vma} (head : cursor.upTo.head? = some prev)
    (covered : last ≤ prev.vmEnd) :
    Protected mask vmFlags first last old cursor.mmap := by
  obtain ⟨access, others⟩ := newflags_granted requested masked chosen
  obtain ⟨prev', head', below, -, prevFlags⟩ := served.prev
  obtain rfl : prev' = prev := some.inj (head'.symm.trans head)
  have member : prev' ∈ cursor.mmap := mem_append_left _ (mem_reverse.mpr (mem_of_head? head))
  have own : place.vma ∈ place.mmap := mem_append_right _ mem_cons_self
  have nonempty := part.nonempty
  constructor
  · intro addr low high
    have page := served.painted addr
    by_cases early : addr < nstart
    · obtain ⟨one, two, before, after, granted⟩ := done.granted addr low early
      rw [if_neg (by omega)] at page
      exact ⟨one, two, before, page.trans after, granted⟩
    have before := done.others addr (.inr (not_lt.mp early))
    by_cases inside : addr < tmp
    · have current := areas.pagesOf_member own (le_trans part.lower (not_lt.mp early))
        (lt_of_lt_of_le inside part.upper)
      rw [if_pos ⟨not_lt.mp early, inside⟩, current] at page
      exact ⟨_, _, before.symm.trans current, page, access, others, rfl, rfl⟩
    have current := served.areas.pagesOf_member member
      (le_trans below (not_lt.mp early)) (lt_of_lt_of_le high covered)
    rw [if_neg (by omega)] at page
    refine ⟨_, _, before.symm.trans (page.symm.trans current), current, ?_, rfl, rfl, rfl⟩
    rw [pageOf, prevFlags]
    exact access
  · intro addr off
    have page := served.painted addr
    rw [if_neg (by omega)] at page
    exact page.trans (done.others addr (by omega))

/-! ### The loop -/

/-- What a return of the loop leaves: the range is protected up to some point, which is its end if
there is no error. -/
structure Returned (mask vmFlags : Flags) (ignored : Option Nat → Flags) (first stop : Nat)
    (old : List Vma) (outcome : Outcome) : Prop where
  areas : CountedAreas mask ignored outcome.cursor.mapCount outcome.cursor.mmap
  reached : ∃ last, Protected mask vmFlags first last old outcome.cursor.mmap ∧
    (outcome.error = none → last = stop)

/-- Where a round begins. -/
structure Begins (mask vmFlags : Flags) (ignored : Option Nat → Flags) (first stop : Nat)
    (old : List Vma) (cursor : Cursor) (inside : Bool) (place : Place) (nstart : Nat) : Prop where
  stands : Stands mask ignored cursor inside place nstart
  lower : place.vma.vmStart ≤ nstart
  upper : nstart < place.vma.vmEnd
  short : nstart < stop
  aligned : pageSize ∣ nstart
  ordered : first ≤ nstart
  done : Protected mask vmFlags first nstart old place.mmap

theorem newflagsOf_kept (oldflags : Flags) (requested : vmFlags &&& accessBits = vmFlags) :
    newflagsOf vmFlags oldflags &&& vmCanNonlinear = oldflags &&& vmCanNonlinear := by
  rw [newflagsOf, and_or_distrib_right, ← requested, BitVec.and_assoc, BitVec.and_assoc]
  have outside : ~~~accessBits &&& vmCanNonlinear = vmCanNonlinear := by decide
  have apart : accessBits &&& vmCanNonlinear = 0#32 := by decide
  rw [outside, apart, and_zero, zero_or]

theorem Begins.returned {inside : Bool} {outcome : Outcome} {error : Errno}
    (begins : Begins mask vmFlags ignored first stop old cursor inside place nstart)
    (failed : outcome.error = some error)
    (unchanged : Unchanged mask ignored place.mmap outcome.cursor) :
    Returned mask vmFlags ignored first stop old outcome := by
  obtain ⟨granted, others⟩ := begins.done
  refine ⟨⟨unchanged.same.areas.mp begins.stands.areas.toAreas, unchanged.counted⟩, nstart, ⟨?_, ?_⟩, ?_⟩
  · intro addr low high
    obtain ⟨one, two, before, after, allowed⟩ := granted addr low high
    exact ⟨one, two, before, (unchanged.same.pages addr).symm.trans after, allowed⟩
  · intro addr off
    exact (unchanged.same.pages addr).symm.trans (others addr off)
  · intro none
    rw [none] at failed
    cases failed

/-- **The loop returns, and has protected the range up to some point.** There are more rounds left
than areas. -/
theorem mprotectLoop_spec (requested : vmFlags &&& accessBits = vmFlags)
    (masked : accessBits &&& mask = accessBits) (alignedStop : pageSize ∣ stop) (rounds : Nat)
    (cursor : Cursor) (inside : Bool) (place : Place) (nstart : Nat)
    (begins : Begins mask vmFlags ignored first stop old cursor inside place nstart)
    (enough : place.after.length < rounds) :
    ∃ outcome, mprotectLoop limits hooks vmFlags stop rounds inside cursor nstart = some outcome ∧
      Returned mask vmFlags ignored first stop old outcome := by
  induction rounds generalizing cursor inside place nstart with
  | zero => exact absurd enough (Nat.not_lt_zero _)
  | succ rounds ih =>
    have here := begins.stands.unchanged
    simp only [mprotectLoop, begins.stands.found, bind_some]
    by_cases denied : isDenied (newflagsOf vmFlags place.vma.vmFlags) = true
    · exact ⟨⟨some .eacces, cursor⟩, if_pos denied, begins.returned rfl here⟩
    rw [if_neg denied]
    cases hook : (hooks rounds).fileMprotect with
    | some error => exact ⟨⟨some error, cursor⟩, rfl, begins.returned rfl here⟩
    | none =>
      generalize chosen : (if stop < place.vma.vmEnd then stop else place.vma.vmEnd) = tmp
      have ends := begins.stands.areas.aligned place.vma
        (mem_append_right _ mem_cons_self)
      have upper := begins.upper
      have short := begins.short
      have bounds : nstart < tmp ∧ tmp ≤ place.vma.vmEnd ∧ tmp ≤ stop ∧
          (tmp < stop → tmp = place.vma.vmEnd) := by
        rw [← chosen]
        split <;> omega
      have part : Part place.vma nstart tmp (newflagsOf vmFlags place.vma.vmFlags) := by
        refine ⟨begins.lower, bounds.1, bounds.2.1, begins.aligned, ?_,
          newflagsOf_kept _ requested⟩
        rw [← chosen]
        split
        · exact alignedStop
        · exact ends.2
      obtain ⟨⟨error, cursor'⟩, fixed, result⟩ :=
        @mprotectFixup_spec mask ignored nstart tmp _ limits (hooks rounds) cursor inside place
          begins.stands part
      rcases result with ⟨error, rfl, unchanged⟩ | ⟨rfl, flags, either, served⟩
      · exact ⟨⟨some error, cursor'⟩, by rw [fixed]; rfl, begins.returned rfl unchanged⟩
      obtain ⟨prev, head, -, covers, -⟩ := served.prev
      have reaches : (if tmp < prev.vmEnd then prev.vmEnd else tmp) = prev.vmEnd := by
        split
        · rfl
        · exact le_antisymm covers (not_lt.mp ‹_›)
      have protect {last : Nat} (reached : tmp ≤ last) (covered : last ≤ prev.vmEnd) :
          Protected mask vmFlags first last old cursor'.mmap :=
        protected_round requested masked begins.stands.areas.toAreas begins.done begins.ordered part
          either served reached head covered
      simp only [fixed, bind_some, head, reaches]
      by_cases past : stop ≤ prev.vmEnd
      · exact ⟨⟨none, cursor'⟩, if_pos past, served.areas, stop,
          protect bounds.2.2.1 past, fun _ => rfl⟩
      rw [if_neg past]
      have whole : tmp = place.vma.vmEnd := bounds.2.2.2 (by omega)
      have fewer := served.shorter whole
      have stopped : Returned mask vmFlags ignored first stop old ⟨some .enomem, cursor'⟩ :=
        ⟨served.areas, prev.vmEnd, protect covers le_rfl, fun none => nomatch none⟩
      obtain ⟨upTo, rest, mapCount⟩ := cursor'
      cases rest with
      | nil => exact ⟨_, rfl, stopped⟩
      | cons vma after =>
        by_cases hole : vma.vmStart = prev.vmEnd
        · simp only [hole, bne_self_eq_false, Bool.false_eq_true, if_false]
          have member : vma ∈ (Cursor.mk upTo (vma :: after) mapCount).mmap :=
            mem_append_right _ mem_cons_self
          refine ih ⟨upTo, vma :: after, mapCount⟩ false ⟨upTo, vma, after, mapCount⟩
            prev.vmEnd ⟨⟨rfl, served.areas, nofun, fun _ => hole.symm⟩, le_of_eq hole, ?_,
              not_le.mp past, ?_, ?_, protect covers le_rfl⟩ ?_
          · exact hole ▸ served.areas.ascending.nonempty vma member
          · exact hole ▸ (served.areas.aligned vma member).1
          · have := begins.ordered
            omega
          · exact lt_of_lt_of_le (Nat.lt_of_succ_le fewer) (Nat.le_of_lt_succ enough)
        · simp only [bne_iff_ne, ne_eq, hole, not_false_iff, if_true]
          exact ⟨_, rfl, stopped⟩

/-! ### The system call -/

/-- Areas in order, not empty, cut at pages, and counted by `map_count`. -/
structure Mm.WellFormed (mm : Mm) : Prop where
  ascending : Ascending Vma.vmStart Vma.vmEnd mm.mmap
  aligned : ∀ vma ∈ mm.mmap, pageSize ∣ vma.vmStart ∧ pageSize ∣ vma.vmEnd
  counted : mm.mapCount = mm.mmap.length

/-- The areas of one file agree about `VM_CAN_NONLINEAR`. -/
def NonlinearByFile (mmap : List Vma) : Prop :=
  ∀ one ∈ mmap, ∀ two ∈ mmap, one.vmFile = two.vmFile →
    one.vmFlags &&& vmCanNonlinear = two.vmFlags &&& vmCanNonlinear

/-- The addresses that a call is about, with `PROT_GROWSDOWN` or `PROT_GROWSUP` from an end of the
area. -/
def requestedRange (mm : Mm) (start len : BitVec 32) (prot : Flags) : Nat × Nat :=
  let stop := start + pageAlign len
  if len == 0 then (start.toNat, start.toNat)
  else
    match (findVmaPrev mm start.toNat).rest with
    | [] => (start.toNat, stop.toNat)
    | vma :: _ =>
      if prot &&& protGrowsdown != 0 then (vma.vmStart, stop.toNat)
      else if prot &&& protGrowsup != 0 then (start.toNat, vma.vmEnd)
      else (start.toNat, stop.toNat)

def requestedAccess (readImpliesExec : Bool) (prot : Flags) : Flags :=
  requestedBits readImpliesExec (prot &&& ~~~(protGrowsdown ||| protGrowsup))

theorem calcVmProtBits_access (prot : Flags) :
    calcVmProtBits prot &&& accessBits = calcVmProtBits prot := by
  rw [calcVmProtBits]
  generalize (prot &&& protRead != 0) = read
  generalize (prot &&& protWrite != 0) = write
  generalize (prot &&& protExec != 0) = exec
  revert read write exec
  decide

theorem findVmaPrev_mmap (mm : Mm) (addr : Nat) : (findVmaPrev mm addr).mmap = mm.mmap := by
  rw [findVmaPrev, span_eq_takeWhile_dropWhile, Cursor.mmap_mk, reverse_reverse,
    takeWhile_append_dropWhile]

theorem findVmaPrev_head {addr : Nat} {vma : Vma} {rest : List Vma}
    (found : (findVmaPrev mm addr).rest = vma :: rest) : addr < vma.vmEnd := by
  rw [findVmaPrev, span_eq_takeWhile_dropWhile] at found
  have head := head?_dropWhile_not (fun vma : Vma => decide (vma.vmEnd ≤ addr)) mm.mmap
  simp only at found
  rw [found] at head
  simpa using head

section Call

variable {grows : Flags} {start stop : Nat}

theorem grownRange_spec (areaAligned : pageSize ∣ vma.vmStart ∧ pageSize ∣ vma.vmEnd)
    (nonempty : vma.vmStart < vma.vmEnd) (behind : start < vma.vmEnd)
    (alignedStart : pageSize ∣ start) (alignedStop : pageSize ∣ stop) (ordered : start < stop)
    (grown : grownRange vma grows start stop = .ok range) :
    vma.vmStart ≤ range.1 ∧ range.1 < vma.vmEnd ∧ range.1 < range.2 ∧
      pageSize ∣ range.1 ∧ pageSize ∣ range.2 := by
  revert grown
  fun_cases grownRange vma grows start stop
  case case1 | case2 | case4 | case5 => exact nofun
  case case3 _ late _ =>
    rintro ⟨⟩
    exact ⟨le_rfl, nonempty, not_le.mp late, areaAligned.1, alignedStop⟩
  case case6 _ reached _ _ =>
    rintro ⟨⟩
    exact ⟨not_lt.mp reached, behind, behind, alignedStart, areaAligned.2⟩
  case case7 _ reached _ =>
    rintro ⟨⟩
    exact ⟨not_lt.mp reached, behind, ordered, alignedStart, alignedStop⟩

theorem begins_first {upTo : List Vma} {mapCount last : Nat}
    (areas : CountedAreas mask ignored mapCount (upTo.reverse ++ vma :: rest))
    (lower : vma.vmStart ≤ first) (upper : first < vma.vmEnd) (short : first < last)
    (aligned : pageSize ∣ first) :
    Begins mask vmFlags ignored first last (upTo.reverse ++ vma :: rest)
      (if vma.vmStart < first then ⟨vma :: upTo, rest, mapCount⟩ else ⟨upTo, vma :: rest, mapCount⟩)
      (decide (vma.vmStart < first)) ⟨upTo, vma, rest, mapCount⟩ first := by
  refine ⟨⟨?_, areas, of_decide_eq_true, fun outside => ?_⟩, lower, upper,
    short, aligned, le_rfl, .refl _ _⟩
  · by_cases inside : vma.vmStart < first <;> simp [inside, Cursor.vmaPlace]
  · exact le_antisymm (not_lt.mp (of_decide_eq_false outside)) lower

theorem mprotectLocked_spec (requested : vmFlags &&& accessBits = vmFlags)
    (masked : accessBits &&& mask = accessBits)
    (areas : CountedAreas mask ignored mm.mapCount mm.mmap) (alignedStart : pageSize ∣ start)
    (alignedStop : pageSize ∣ stop) (ordered : start < stop) :
    ∃ error new, mprotectLocked limits hooks mm vmFlags grows start stop = some (error, new) ∧
      CountedAreas mask ignored new.mapCount new.mmap ∧
      (error = none → ∃ vma rest range, (findVmaPrev mm start).rest = vma :: rest ∧
        grownRange vma grows start stop = .ok range ∧
        Protected mask vmFlags range.1 range.2 mm.mmap new.mmap) := by
  have list := findVmaPrev_mmap mm start
  have count : (findVmaPrev mm start).mapCount = mm.mapCount := rfl
  have head := @findVmaPrev_head mm start
  simp only [mprotectLocked]
  generalize findVmaPrev mm start = cursor at list count head ⊢
  obtain ⟨upTo, rest, mapCount⟩ := cursor
  obtain rfl : mapCount = mm.mapCount := count
  cases rest with
  | nil => exact ⟨_, _, rfl, areas, fun none => nomatch none⟩
  | cons vma rest =>
    cases grown : grownRange vma grows start stop with
    | error error =>
      simp only [grown]
      exact ⟨_, _, rfl, areas, fun none => nomatch none⟩
    | ok range =>
      obtain ⟨first, last⟩ := range
      rw [Cursor.mmap_mk] at list
      have member : vma ∈ mm.mmap := by
        rw [← list]
        exact mem_append_right _ mem_cons_self
      obtain ⟨lower, upper, short, alignedFirst, alignedLast⟩ := grownRange_spec
        (areas.aligned vma member) (areas.ascending.nonempty vma member) (head rfl) alignedStart
        alignedStop ordered grown
      have few : rest.length < mm.mmap.length + 1 := by
        rw [← list, length_append, length_cons]
        omega
      rw [← list] at areas
      obtain ⟨outcome, result, returned⟩ := @mprotectLoop_spec mask vmFlags ignored limits hooks _
        first last requested masked alignedLast (mm.mmap.length + 1) _ _ _ first
        (begins_first areas lower upper short alignedFirst) few
      obtain ⟨reached, done, ended⟩ := returned.reached
      refine ⟨outcome.error, ⟨outcome.cursor.mmap, outcome.cursor.mapCount⟩, ?_,
        returned.areas, fun none => ⟨vma, rest, (first, last), rfl, grown, ?_⟩⟩
      · simp only [grown, result, map_some]
      · rw [← list, ← ended none]
        exact done

end Call

theorem pageAligned_of_and {addr : BitVec 32} (clear : addr &&& 0xfff#32 = 0#32) :
    pageSize ∣ addr.toNat := by
  have low := congrArg BitVec.toNat clear
  change addr.toNat &&& (2 ^ 12 - 1) = 0 at low
  rw [Nat.and_two_pow_sub_one_eq_mod] at low
  exact Nat.dvd_of_mod_eq_zero low

theorem pageAlign_aligned (len : BitVec 32) : pageSize ∣ (pageAlign len).toNat := by
  apply pageAligned_of_and
  rw [pageAlign, BitVec.and_assoc]
  exact and_zero

theorem pageAligned_add {start len : BitVec 32} (one : pageSize ∣ start.toNat)
    (two : pageSize ∣ len.toNat) : pageSize ∣ (start + len).toNat := by
  rw [toNat_add]
  unfold pageSize at *
  omega

theorem grownRange_requested {start len : BitVec 32} {prot : Flags} (nonzero : len ≠ 0)
    (found : (findVmaPrev mm start.toNat).rest = vma :: rest)
    (grown : grownRange vma (prot &&& (protGrowsdown ||| protGrowsup)) start.toNat
      (start + pageAlign len).toNat = .ok range) : requestedRange mm start len prot = range := by
  have down : prot &&& (protGrowsdown ||| protGrowsup) &&& protGrowsdown = prot &&& protGrowsdown := by
    rw [BitVec.and_assoc]
    rfl
  have up : prot &&& (protGrowsdown ||| protGrowsup) &&& protGrowsup = prot &&& protGrowsup := by
    rw [BitVec.and_assoc]
    rfl
  rw [grownRange, down, up] at grown
  rw [requestedRange, if_neg (by simpa using nonzero), found]
  simp only
  split at grown
  case isTrue downwards =>
    rw [if_pos downwards]
    repeat' split at grown
    all_goals cases grown
    rfl
  case isFalse still =>
    rw [if_neg still]
    split at grown
    · cases grown
    split at grown
    case isTrue upwards =>
      rw [if_pos upwards]
      split at grown <;> cases grown
      rfl
    case isFalse plain =>
      rw [if_neg plain]
      cases grown
      rfl

/-- What a call returns: areas in order, in which the range is protected unless there is an error. -/
def Answers (mask vmFlags : Flags) (ignored : Option Nat → Flags) (range : Nat × Nat) (mm : Mm)
    (result : Option (Option Errno × Mm)) : Prop :=
  ∃ error new, result = some (error, new) ∧ CountedAreas mask ignored new.mapCount new.mmap ∧
    (error = none → Protected mask vmFlags range.1 range.2 mm.mmap new.mmap)

/-- **The system call under a mask.** -/
theorem sysMprotect_spec {readImpliesExec : Bool} {start len : BitVec 32} {prot : Flags}
    (masked : accessBits &&& mask = accessBits)
    (areas : CountedAreas mask ignored mm.mapCount mm.mmap) :
    Answers mask (requestedAccess readImpliesExec prot) ignored (requestedRange mm start len prot) mm
      (sysMprotect limits hooks readImpliesExec mm start len prot) := by
  have fails (error : Errno) : Answers mask (requestedAccess readImpliesExec prot) ignored
      (requestedRange mm start len prot) mm (some (some error, mm)) :=
    ⟨some error, mm, rfl, areas, fun none => nomatch none⟩
  rw [sysMprotect]
  split
  · exact fails _
  split
  · exact fails _
  case isFalse clear =>
  have alignedStart : pageSize ∣ start.toNat := pageAligned_of_and (by simpa using clear)
  split
  case isTrue empty =>
    refine ⟨none, mm, rfl, areas, fun _ => ?_⟩
    rw [requestedRange, if_pos empty]
    exact .refl _ _
  case isFalse nonempty =>
  simp only
  split
  · exact fails _
  case isFalse ordered =>
  split
  · exact fails _
  have requested : requestedAccess readImpliesExec prot &&& accessBits =
      requestedAccess readImpliesExec prot := calcVmProtBits_access _
  obtain ⟨error, new, result, areas', ranged⟩ :=
    @mprotectLocked_spec mask (requestedAccess readImpliesExec prot) ignored limits hooks mm
      (prot &&& (protGrowsdown ||| protGrowsup)) start.toNat (start + pageAlign len).toNat requested
      masked areas alignedStart (pageAligned_add alignedStart (pageAlign_aligned len))
      (by simpa [lt_def] using ordered)
  refine ⟨error, new, result, areas', fun none => ?_⟩
  obtain ⟨vma, rest, range, found, grown, done⟩ := ranged none
  rw [grownRange_requested (by simpa using nonempty) found grown]
  exact done

theorem Mm.WellFormed.areas (wellFormed : mm.WellFormed)
    (loyal : ∀ vma ∈ mm.mmap, vma.vmFlags &&& vmCanNonlinear &&& mask = ignored vma.vmFile) :
    CountedAreas mask ignored mm.mapCount mm.mmap :=
  ⟨⟨wellFormed.ascending, wellFormed.aligned, loyal⟩, wellFormed.counted⟩

theorem nonlinear_of_file {mmap : List Vma} (agree : NonlinearByFile mmap) :
    ∃ ignored : Option Nat → Flags, ∀ vma ∈ mmap,
      vma.vmFlags &&& vmCanNonlinear &&& allOnes 32 = ignored vma.vmFile := by
  refine ⟨fun file => ((mmap.find? fun vma => vma.vmFile == file).map fun vma =>
    vma.vmFlags &&& vmCanNonlinear).getD 0, fun vma member => ?_⟩
  rw [and_allOnes]
  cases first : mmap.find? fun other => other.vmFile == vma.vmFile with
  | none =>
    have absent := find?_eq_none.mp first vma member
    exact absurd (beq_self_eq_true _) absent
  | some other =>
    have file : (other.vmFile == vma.vmFile) = true :=
      find?_some (p := fun other : Vma => other.vmFile == vma.vmFile) first
    simp only [first, map_some, getD_some]
    exact agree vma member other (mem_of_find?_eq_some first) (eq_of_beq file).symm

/-- **mprotect changes the requested pages, and no others.** It returns with well formed areas;
without an error, the pages of the range have the requested access and every other page is
unchanged, all this up to `VM_CAN_NONLINEAR`, or also with it if the areas of each file agree. -/
theorem mprotect_exact (limits : Limits) (hooks : Nat → Hooks) (readImpliesExec : Bool) (mm : Mm)
    (start len : BitVec 32) (prot : Flags) (wellFormed : mm.WellFormed) :
    ∃ error new, sysMprotect limits hooks readImpliesExec mm start len prot = some (error, new) ∧
      new.WellFormed ∧
      (error = none →
        Protected (~~~vmCanNonlinear) (requestedAccess readImpliesExec prot)
          (requestedRange mm start len prot).1 (requestedRange mm start len prot).2 mm.mmap new.mmap ∧
        (NonlinearByFile mm.mmap →
          Protected (allOnes 32) (requestedAccess readImpliesExec prot)
            (requestedRange mm start len prot).1 (requestedRange mm start len prot).2 mm.mmap
            new.mmap)) := by
  have blind : CountedAreas (~~~vmCanNonlinear) (fun _ => 0#32) mm.mapCount mm.mmap :=
    wellFormed.areas fun vma _ => by
      rw [BitVec.and_assoc, BitVec.and_not_self]
      exact and_zero
  obtain ⟨error, new, result, areas, done⟩ :=
    @sysMprotect_spec _ _ limits hooks mm readImpliesExec start len prot (by decide) blind
  refine ⟨error, new, result, { areas with }, fun none => ⟨done none, ?_⟩⟩
  intro agree
  obtain ⟨ignored, loyal⟩ := nonlinear_of_file agree
  obtain ⟨error', new', result', -, exactly⟩ :=
    @sysMprotect_spec _ _ limits hooks mm readImpliesExec start len prot (and_allOnes)
      (wellFormed.areas loyal)
  rw [result] at result'
  cases result'
  exact exactly none

/-- Two pages of a file next to each other: read only, and writable. Only the first area has
`VM_CAN_NONLINEAR`. -/
def twoPages : Mm :=
  ⟨[⟨0x1000, 0x2000, 0x080000b9#32, some 0, 0, none, none, false⟩,
    ⟨0x2000, 0x3000, 0x000000bb#32, some 0, 1, none, none, false⟩], 2⟩

theorem twoPages_wellFormed : twoPages.WellFormed :=
  ⟨⟨by decide, by decide⟩, by decide, rfl⟩

/-- The second page of `twoPages` is made read only. -/
theorem mprotect_exact_twoPages : twoPages.WellFormed ∧
    ∃ error new, sysMprotect ⟨65530, fun _ => 4096⟩ (fun _ => ⟨none, true⟩) false twoPages 0x2000#32
        0x1000#32 protRead = some (error, new) ∧ new.WellFormed ∧
      (error = none →
        Protected (~~~vmCanNonlinear) (requestedAccess false protRead)
          (requestedRange twoPages 0x2000#32 0x1000#32 protRead).1
          (requestedRange twoPages 0x2000#32 0x1000#32 protRead).2 twoPages.mmap new.mmap ∧
        (NonlinearByFile twoPages.mmap →
          Protected (allOnes 32) (requestedAccess false protRead)
            (requestedRange twoPages 0x2000#32 0x1000#32 protRead).1
            (requestedRange twoPages 0x2000#32 0x1000#32 protRead).2 twoPages.mmap new.mmap)) :=
  ⟨twoPages_wellFormed, mprotect_exact _ _ _ _ _ _ _ twoPages_wellFormed⟩

/-- The first page is not in the range, and loses `VM_CAN_NONLINEAR`: the merged area has the flags
of the second. -/
theorem merge_ignores_nonlinear : twoPages.WellFormed ∧
    requestedRange twoPages 0x2000#32 0x1000#32 protRead = (0x2000, 0x3000) ∧
    ∃ new, sysMprotect ⟨65530, fun _ => 4096⟩ (fun _ => ⟨none, true⟩) false twoPages 0x2000#32
        0x1000#32 protRead = some (none, new) ∧
      pagesOf (allOnes 32) twoPages.mmap 0x1000 = some ⟨0x080000b9#32, some 0, 0⟩ ∧
      pagesOf (allOnes 32) new.mmap 0x1000 = some ⟨0x000000b9#32, some 0, 0⟩ :=
  ⟨twoPages_wellFormed, by decide, _, rfl, by decide, by decide⟩

end KernelImx.Mmap
