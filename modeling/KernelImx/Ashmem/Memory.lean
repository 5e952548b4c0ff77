/-
**Pin requests without memory.**

`ashmem_unpin` deletes the ranges that it merges before it allocates the merged one, and `ashmem_pin`
does not look whether the upper part of a range with a hole was allocated.

Main result: `ashmem_out_of_memory_iff`.
-/

import KernelImx.Ashmem.PinStatus

namespace KernelImx.Ashmem

open KernelImx.Lib Nat List

variable {range : AshmemRange} {list : List AshmemRange} {pgstart pgend : Nat}

/-! ### Unpinning -/

/-- What contains the interval after a merge contains the one before. -/
theorem not_contains_merged {front back : List AshmemRange}
    (never : ∀ other ∈ front ++ range :: back, ¬ (other.pgstart ≤ pgstart ∧ pgend ≤ other.pgend)) :
    ∀ other ∈ front ++ back,
      ¬ (other.pgstart ≤ min range.pgstart pgstart ∧ max range.pgend pgend ≤ other.pgend) := by
  intro other member contains
  have stays : other ∈ front ++ range :: back :=
    mem_append.mpr ((mem_append.mp member).imp_right (mem_cons_of_mem _))
  exact never other stays (by omega)

/-- Without memory and without a range that contains the interval, the passes end with `-ENOMEM`. -/
theorem ashmemUnpinLoop_refused (asma fuel : Nat) (purged : Bool)
    (never : ∀ range ∈ list, ¬ (range.pgstart ≤ pgstart ∧ pgend ≤ range.pgend))
    (descending : Descending list) (lru : AshmemLru) :
    let (after, _, ret) := ashmemUnpinLoop asma false fuel pgstart pgend purged list lru
    ret = .error .enomem ∧ after.length ≤ list.length := by
  induction fuel generalizing pgstart pgend purged list lru with
  | zero => exact ⟨rfl, le_rfl⟩
  | succ fuel ih =>
    have found := unpinScan_finds pgstart pgend descending
    unfold ashmemUnpinLoop
    cases scan : unpinScan pgstart pgend list with
    | insertion front back => exact ⟨rfl, le_rfl⟩
    | subsumed =>
      rw [scan] at found
      obtain ⟨range, member, contains⟩ := found
      exact absurd contains (never range member)
    | overlap front range back =>
      rw [scan] at found
      obtain ⟨rfl, -⟩ := found
      obtain ⟨refused, shorter⟩ := ih (purged || range.purged) (not_contains_merged never)
        descending.remove (rangeDel lru range)
      exact ⟨refused, shorter.trans (by simp)⟩

/-- Where a range contains the interval, no memory is needed. -/
theorem ashmemUnpinLoop_contained (asma : Nat) {fuel : Nat} (interval : pgstart ≤ pgend) (purged : Bool)
    (member : range ∈ list) (contains : range.pgstart ≤ pgstart ∧ pgend ≤ range.pgend)
    (descending : Descending list) (enough : list.length < fuel) (lru : AshmemLru) :
    (ashmemUnpinLoop asma false fuel pgstart pgend purged list lru).2.2 = .ok () := by
  induction fuel generalizing purged list lru with
  | zero => omega
  | succ fuel ih =>
    have found := unpinScan_finds pgstart pgend descending
    unfold ashmemUnpinLoop
    cases scan : unpinScan pgstart pgend list with
    | insertion front back =>
      rw [scan] at found
      obtain ⟨rfl, above, below⟩ := found
      rcases mem_append.mp member with high | low
      · have := (above range high).1
        omega
      · have := below range low
        omega
    | subsumed => rfl
    | overlap front other back =>
      rw [scan] at found
      obtain ⟨rfl, met, sticks⟩ := found
      rw [met_iff] at met
      obtain ⟨-, tail, apart⟩ := Descends.append_iff.mp descending
      have width : other.pgstart ≤ other.pgend + 1 := tail.head_width
      have stays : range ∈ back := by
        rcases mem_append.mp member with high | same | ⟨_, low⟩
        · have := apart range high other mem_cons_self
          omega
        · exact absurd contains sticks
        · exact low
      -- the range above the one that contains the interval is empty, and adds no page
      have := tail.below_head stays
      have start : min other.pgstart pgstart = pgstart := by omega
      have finish : max other.pgend pgend = pgend := by omega
      simp only [start, finish]
      exact ih _ (mem_append_right _ stays) descending.remove (by simp at enough ⊢; omega) _

/-- **An unpin that fails leaves everything as it was** exactly when nothing was merged before. -/
theorem ashmemUnpin_failed_iff (asma : Nat) (interval : pgstart ≤ pgend + 1)
    (descending : Descending list) (lru : AshmemLru) :
    ((ashmemUnpin asma false pgstart pgend list lru).2.2 = .ok () ∨
        ashmemUnpin asma false pgstart pgend list lru = (list, lru, .error .enomem)) ↔
      (∃ range ∈ list, pageRangeSubsumedByRange range pgstart pgend = true) ∨
        ∀ range ∈ list, ¬ Met pgstart pgend range := by
  have found := unpinScan_finds pgstart pgend descending
  simp only [pageRangeSubsumedByRange_iff]
  by_cases contained : ∃ range ∈ list, range.pgstart ≤ pgstart ∧ pgend ≤ range.pgend
  · refine iff_of_true ?_ (.inl contained)
    obtain ⟨range, member, contains⟩ := contained
    by_cases nonempty : pgstart ≤ pgend
    · exact .inl (ashmemUnpinLoop_contained asma nonempty false member contains descending
        (lt_succ_self _) lru)
    -- an empty interval is merged with nothing
    unfold ashmemUnpin ashmemUnpinLoop
    cases scan : unpinScan pgstart pgend list with
    | insertion front back => exact .inr rfl
    | subsumed => exact .inl rfl
    | overlap front other back =>
      rw [scan] at found
      obtain ⟨rfl, met, sticks⟩ := found
      rw [met_iff] at met
      omega
  rw [or_iff_right contained]
  have never : ∀ range ∈ list, ¬ (range.pgstart ≤ pgstart ∧ pgend ≤ range.pgend) :=
    fun range member contains => contained ⟨range, member, contains⟩
  obtain ⟨refused, -⟩ := ashmemUnpinLoop_refused asma (list.length + 1) false never descending lru
  rw [or_iff_right fun success => by cases refused.symm.trans success]
  unfold ashmemUnpin ashmemUnpinLoop
  cases scan : unpinScan pgstart pgend list with
  | insertion front back =>
    rw [scan] at found
    obtain ⟨rfl, above, below⟩ := found
    refine iff_of_true rfl (forall_mem_append.mpr ⟨fun upper member => (above upper member).2,
      fun lower member met => ?_⟩)
    exact absurd (below lower member) (not_lt.mpr (met_iff.mp met).1)
  | subsumed =>
    rw [scan] at found
    exact absurd found contained
  | overlap front range back =>
    rw [scan] at found
    obtain ⟨rfl, met, -⟩ := found
    refine iff_of_false (fun same => ?_) fun unmet => unmet range (by simp) met
    obtain ⟨-, shorter⟩ := ashmemUnpinLoop_refused asma (front ++ range :: back).length
      (false || range.purged) (not_contains_merged never) descending.remove (rangeDel lru range)
    dsimp only at same shorter
    rw [same] at shorter
    simp at shorter

/-! ### Pinning -/

/-- The upper end of a range with a hole is gone. -/
theorem ashmemPin_loses (interval : pgstart ≤ pgend + 1) (descending : Descending list)
    (member : range ∈ list) (hole : range.pgstart < pgstart ∧ pgend < range.pgend) (lru : AshmemLru)
    (ret : Bool) : ¬ Unpinned (ashmemPin false pgstart pgend list lru ret).1 range.pgend := by
  have met : Met pgstart pgend range := met_iff.mpr (by omega)
  induction list generalizing lru with
  | nil => cases member
  | cons first rest ih =>
    have width : first.pgstart ≤ first.pgend + 1 := descending.head_width
    unfold ashmemPin
    rcases mem_cons.mp member with rfl | later
    · rw [if_neg (Bool.eq_false_iff.mp met.1), if_pos met.2, if_neg (by simp; omega),
        if_neg (by omega), if_neg (by omega)]
      refine mt covers_cons.mp (not_or.mpr ⟨?_, fun covered => ?_⟩)
      · simp only [sub32]
        omega
      · obtain ⟨other, below, -, upper⟩ := covered
        have := descending.below_head below
        omega
    · have above := descending.below_head later
      have apart : ¬ Met pgstart pgend first := by
        rw [met_iff]
        omega
      have reaches : rangeBeforePage first pgstart = false := by
        simp only [rangeBeforePage, decide_eq_false_iff_not]
        omega
      rw [if_neg (Bool.eq_false_iff.mp reaches), if_neg fun overlaps => apart ⟨reaches, overlaps⟩]
      exact mt covers_cons.mp (not_or.mpr ⟨by omega, ih descending.tail later lru⟩)

/-- **A pin without memory keeps the other pages** exactly when the interval is not a hole in a range. -/
theorem ashmemPin_failed_iff (interval : pgstart ≤ pgend + 1)
    (small : ∀ range ∈ list, range.pgend < 2 ^ 32) (descending : Descending list) (lru : AshmemLru) :
    (∀ purged page, ¬ (pgstart ≤ page ∧ page ≤ pgend) →
        (Marked (ashmemPin false pgstart pgend list lru false).1 purged page ↔
          Marked list purged page)) ↔
      ∀ range ∈ list, ¬ (range.pgstart < pgstart ∧ pgend < range.pgend) := by
  refine ⟨fun kept range member hole => ?_, fun holes purged page outside => ?_⟩
  · have marked := (kept range.purged range.pgend (by omega)).mpr
      ⟨range, member, rfl, by omega, le_rfl⟩
    exact ashmemPin_loses interval descending member hole lru false (unpinned_iff.mpr ⟨_, marked⟩)
  · have pins := @ashmemPin_spec _ _ _ false interval small (.inr holes) descending lru false
    exact (pins.pages purged page).trans (and_iff_left outside)

/-! ### The lists of the driver -/

/-- **What holds of every list of the driver.** The end of an empty range is just below its start. -/
structure Listed (list : List AshmemRange) : Prop where
  descending : Descending list
  small : ∀ range ∈ list, range.pgend < 2 ^ 32

theorem pinPages_bounds {size : UInt32} {pin : AshmemPin}
    (accepted : pinPages size pin = .ok (pgstart, pgend)) : pgstart ≤ pgend + 1 ∧ pgend < 2 ^ 32 := by
  obtain ⟨start, -, inside, finish⟩ := pinPages_ok accepted
  have aligned := pageAlign_lt size.toNat
  simp only [pageSize, sub32, add32] at start finish
  omega

/-- Without memory pinning leaves no range that it would not leave with it. -/
theorem ashmemPin_sublist (lru : AshmemLru) (ret : Bool) :
    (ashmemPin false pgstart pgend list lru ret).1.Sublist
      (ashmemPin true pgstart pgend list lru ret).1 := by
  induction list generalizing lru ret with
  | nil => exact Sublist.refl _
  | cons range rest ih =>
    unfold ashmemPin
    split_ifs
    · exact Sublist.refl _
    · exact ih _ _
    · exact (ih _ _).cons_cons _
    · exact (ih _ _).cons_cons _
    · exact (Sublist.refl _).cons _
    · exact (ih _ _).cons_cons _

theorem ashmemPin_listed {alloc : Bool} (interval : pgstart ≤ pgend + 1) (listed : Listed list)
    (lru : AshmemLru) (ret : Bool) : Listed (ashmemPin alloc pgstart pgend list lru ret).1 := by
  have pins := @ashmemPin_spec _ _ _ true interval listed.small (.inl rfl) listed.descending lru ret
  have fewer : (ashmemPin alloc pgstart pgend list lru ret).1.Sublist
      (ashmemPin true pgstart pgend list lru ret).1 := by
    cases alloc with
    | false => exact ashmemPin_sublist lru ret
    | true => exact Sublist.refl _
  refine ⟨⟨fun part member => pins.descending.width part (fewer.subset member),
    pins.descending.descending.sublist fewer⟩, fun part member => ?_⟩
  obtain ⟨range, inside, -, last, -⟩ := pins.inside part (fewer.subset member)
  exact lt_of_le_of_lt last (listed.small range inside)

theorem ashmemUnpinLoop_listed (asma fuel : Nat) (alloc purged : Bool) (interval : pgstart ≤ pgend + 1)
    (last : pgend < 2 ^ 32) (listed : Listed list) (lru : AshmemLru) :
    Listed (ashmemUnpinLoop asma alloc fuel pgstart pgend purged list lru).1 := by
  induction fuel generalizing pgstart pgend purged list lru with
  | zero => exact listed
  | succ fuel ih =>
    have found := unpinScan_finds pgstart pgend listed.descending
    unfold ashmemUnpinLoop
    cases scan : unpinScan pgstart pgend list with
    | subsumed => exact listed
    | insertion front back =>
      rw [scan] at found
      obtain ⟨rfl, above, below⟩ := found
      cases alloc with
      | false => exact listed
      | true =>
        obtain ⟨high, low⟩ := forall_mem_append.mp listed.small
        exact ⟨listed.descending.insert interval (fun upper member => (above upper member).1) below,
          forall_mem_append.mpr ⟨high, forall_mem_cons.mpr ⟨last, low⟩⟩⟩
    | overlap front range back =>
      rw [scan] at found
      obtain ⟨rfl, -⟩ := found
      have width := listed.descending.width range (by simp)
      obtain ⟨high, own, low⟩ := by simpa only [forall_mem_append, forall_mem_cons] using listed.small
      exact ih _ (by omega) (by omega)
        ⟨listed.descending.remove, forall_mem_append.mpr ⟨high, low⟩⟩ _

theorem ashmemPinUnpin_listed {area : AshmemArea} (listed : Listed area.unpinnedList) (asma : Nat)
    (lru : AshmemLru) (alloc : Bool) (cmd : PinCmd) (arg : Option AshmemPin) :
    Listed (ashmemPinUnpin asma area lru alloc cmd arg).1.unpinnedList := by
  unfold ashmemPinUnpin
  split
  · cases arg with
    | none => exact listed
    | some pin =>
      cases checked : pinPages area.size pin with
      | error err => simpa only [checked] using listed
      | ok interval =>
        obtain ⟨interval, last⟩ := pinPages_bounds checked
        simp only [checked]
        cases cmd with
        | pin => exact ashmemPin_listed interval listed lru false
        | unpin => exact ashmemUnpinLoop_listed asma _ alloc false interval last listed lru
        | getPinStatus => exact listed
  · exact listed

theorem listed_steady : Steady fun area _ => Listed area.unpinnedList where
  new := ⟨Descends.nil, by simp⟩
  setSize listed size := by
    unfold setSize
    split <;> exact listed
  mmap listed permitted setup := by
    unfold ashmemMmap
    split_ifs <;> exact listed
  purge listed id := ⟨listed.descending.map (markPurged_pgstart id) (markPurged_pgend id),
    pgend_lt_of_markPurged listed.small id⟩

theorem ashmemStep_listed (run : AshmemRun) (op : AshmemOp) (next : AshmemRun)
    (listed : Everywhere (fun area _ => Listed area.unpinnedList) run)
    (taken : ashmemStep run op = some next) :
    Everywhere (fun area _ => Listed area.unpinnedList) next := by
  refine ashmemStep_everywhere listed_steady listed (fun asma cmd arg alloc area _ opened => ?_) taken
  exact ashmemPinUnpin_listed (listed asma area opened) asma run.ashmem.lru alloc cmd arg

/-- **What is left when `range_alloc` fails.** `ashmem_unpin` needs no memory, or changes nothing,
exactly when a range contains the interval or none is met; `ashmem_pin` keeps the other pages
exactly when the interval is not a hole in a range. -/
theorem ashmem_out_of_memory_iff {ops : List AshmemOp} {run : AshmemRun}
    (ran : exec ashmemStep AshmemRun.init ops = some run) {asma : Nat} {area : AshmemArea}
    (opened : run.ashmem.areas asma = some area) {pin : AshmemPin}
    (accepted : pinPages area.size pin = .ok (pgstart, pgend)) :
    (((ashmemUnpin asma false pgstart pgend area.unpinnedList run.ashmem.lru).2.2 = .ok () ∨
        ashmemUnpin asma false pgstart pgend area.unpinnedList run.ashmem.lru =
          (area.unpinnedList, run.ashmem.lru, .error .enomem)) ↔
      (∃ range ∈ area.unpinnedList, pageRangeSubsumedByRange range pgstart pgend = true) ∨
        ∀ range ∈ area.unpinnedList, ¬ Met pgstart pgend range) ∧
    ((∀ purged page, ¬ (pgstart ≤ page ∧ page ≤ pgend) →
        (Marked (ashmemPin false pgstart pgend area.unpinnedList run.ashmem.lru false).1 purged page ↔
          Marked area.unpinnedList purged page)) ↔
      ∀ range ∈ area.unpinnedList, ¬ (range.pgstart < pgstart ∧ pgend < range.pgend)) := by
  have start : Everywhere (fun area _ => Listed area.unpinnedList) AshmemRun.init :=
    fun other found opened => by cases opened
  have listed : Listed area.unpinnedList :=
    exec_invariant _ ashmemStep_listed start ran asma area opened
  obtain ⟨interval, -⟩ := pinPages_bounds accepted
  exact ⟨ashmemUnpin_failed_iff asma interval listed.descending run.ashmem.lru,
    ashmemPin_failed_iff interval listed.small listed.descending run.ashmem.lru⟩

/-- The pages 1 to 9 of an area of ten are unpinned. -/
def ninePagesRun : List AshmemOp :=
  [.openArea 0, .setSize 0 40960, .mmap 0 true true, .pinUnpin 0 .unpin (some ⟨4096, 0⟩) true]

/-- The first five of them are pinned. -/
theorem ashmem_out_of_memory_iff_contained :
    ∃ run area, exec ashmemStep AshmemRun.init ninePagesRun = some run ∧
      run.ashmem.areas 0 = some area ∧ area.unpinnedList = [⟨0, 0, 1, 9, false⟩] ∧
      ∀ purged page, ¬ (1 ≤ page ∧ page ≤ 5) →
        (Marked (ashmemPin false 1 5 area.unpinnedList run.ashmem.lru false).1 purged page ↔
          Marked area.unpinnedList purged page) := by
  refine ⟨_, _, rfl, rfl, by decide +kernel, ?_⟩
  exact (@ashmem_out_of_memory_iff 1 5 ninePagesRun _ rfl 0 _ rfl ⟨4096, 20480⟩
    (by decide +kernel)).2.mpr (by decide +kernel)

/-- A purged range is forgotten by an unpin that fails, the end of another one by a pin. -/
theorem out_of_memory_loses_pages :
    ashmemUnpin 0 false 1 5 [⟨0, 0, 4, 9, true⟩] ⟨[], 0, 1⟩ = ([], ⟨[], 0, 1⟩, .error .enomem) ∧
      (ashmemPin false 1 5 [⟨0, 0, 0, 9, true⟩] ⟨[], 0, 1⟩ false).1 = [⟨0, 0, 0, 0, true⟩] :=
  ⟨rfl, rfl⟩

end KernelImx.Ashmem
