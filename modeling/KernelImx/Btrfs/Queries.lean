/-
**Queries of the extent state tree.**

`count_range_bits`, `test_range_bit` and `find_first_extent_bit`, against the map of the tree.

* **`range_queries_iff`**: when all three are right: they are unless `dirty_bytes` is returned for a
  range that does not have all dirty offsets, or the total reaches the limit of its type.
-/

import KernelImx.Btrfs.BitRanges

namespace KernelImx.Btrfs

open List BitVec Nat

open Lib (ascending_append ascending_cons itemAt_eq_none_iff valueAt valueAt_append valueAt_cons)

/-! ### The queries -/

def carries (bits : Bits) (state : ExtentState) : Bool := state.state &&& bits != 0

/-- The states from the node on that `tree_search` finds. -/
def nodesFrom (offset : BitVec 64) (states : List ExtentState) : List ExtentState :=
  match treeSearch offset states with
  | none => []
  | some place => place.state :: place.after

/-- The loop of `count_range_bits`: the total, and what `*start` was set to. -/
def countLoop (curStart searchEnd maxBytes : BitVec 64) (bits : Bits) :
    BitVec 64 → Option (BitVec 64) → List ExtentState → BitVec 64 × Option (BitVec 64)
  | total, found, [] => (total, found)
  | total, found, state :: rest =>
    if state.start > searchEnd then (total, found)
    else if state.stop ≥ curStart ∧ carries bits state then
      let upper := if searchEnd < state.stop then searchEnd else state.stop
      let lower := if curStart > state.start then curStart else state.start
      let total := total + (upper + 1 - lower)
      if total ≥ maxBytes then (total, found)
      else countLoop curStart searchEnd maxBytes bits total (some (found.getD state.start)) rest
    else countLoop curStart searchEnd maxBytes bits total found rest

/-- **`count_range_bits`**: the total, and `*start` after the call. -/
def countRangeBits (tree : Tree) (start searchEnd maxBytes : BitVec 64) (bits : Bits) :
    BitVec 64 × BitVec 64 :=
  if searchEnd ≤ start then (0, start)
  else if start = 0 ∧ bits = extentDirty then (tree.dirtyBytes, start)
  else
    let counted := countLoop start searchEnd maxBytes bits 0 none (nodesFrom start tree.states)
    (counted.1, counted.2.getD start)

/-- The loop of `test_range_bit`. -/
def testLoop (stop : BitVec 64) (bits : Bits) (filled : Bool) :
    BitVec 64 → Bool → List ExtentState → Bool
  | _, bitset, [] => bitset && !filled
  | start, bitset, state :: rest =>
    if filled ∧ state.start > start then false
    else if state.start > stop then bitset
    -- a set bit ends the search for one, and a state without them the search for a gap
    else if carries bits state ≠ filled then carries bits state
    else
      let bitset := bitset || carries bits state
      if state.stop = -1 then bitset
      else if state.stop + 1 > stop then bitset
      else testLoop stop bits filled (state.stop + 1) bitset rest

/-- **`test_range_bit`**, with a cached state: its `tree` is not `NULL` if it is in the tree. -/
def testRangeBit (states : List ExtentState) (start stop : BitVec 64) (bits : Bits) (filled : Bool)
    (cached : Option ExtentState) : Bool :=
  let nodes :=
    match cached with
    | some state =>
      if state ∈ states ∧ state.start = start then states.dropWhile (· ≠ state)
      else nodesFrom start states
    | none => nodesFrom start states
  if start ≤ stop then testLoop stop bits filled start false nodes else false

/-- **`find_first_extent_bit`**: the state whose bounds are returned, `none` when it returns 1. -/
def findFirstExtentBit (states : List ExtentState) (start : BitVec 64) (bits : Bits) :
    Option ExtentState :=
  (nodesFrom start states).find? fun state => decide (state.stop ≥ start) && carries bits state

/-! ### The states behind the cursor -/

def hit (bits : Bits) (states : List ExtentState) (offset : Nat) : Bool :=
  bitsAt states offset &&& bits != 0

variable {states front back rest : List ExtentState} {state : ExtentState} {start stop : BitVec 64}
  {bits : Bits} {offset : Nat}

theorem nodesFrom_at (divided : At start.toNat front back) : nodesFrom start (front ++ back) = back := by
  rw [nodesFrom, treeSearch_at divided]
  cases back with
  | nil | cons => rfl

theorem dropWhile_cached (sorted : Sorted states) (member : state ∈ states) :
    states.dropWhile (· ≠ state) = nodesFrom state.start states := by
  obtain ⟨front, back, rfl⟩ := append_of_mem member
  obtain ⟨-, later, before⟩ := ascending_append.mp sorted
  have own : state.lo < state.hi := (ascending_cons.mp later).1
  have first : ∀ other ∈ front, other.hi ≤ state.lo := fun other inside =>
    before other inside state mem_cons_self
  have divided : At state.start.toNat front (state :: back) :=
    ⟨first, forall_mem_cons.mpr ⟨own, fun other inside => lt_trans own (after_head sorted other inside).2⟩⟩
  rw [nodesFrom_at divided, dropWhile_append_of_pos, dropWhile_cons_of_neg (by simp)]
  exact fun other inside => decide_eq_true fun same => absurd own (not_lt.mpr (same ▸ first other inside))

theorem hit_cons : hit bits (state :: rest) offset =
    if state.lo ≤ offset ∧ offset < state.hi then carries bits state else hit bits rest offset := by
  rw [hit, bitsAt, valueAt_cons]
  split
  · rfl
  · rfl

theorem hit_gap (after : ∀ state ∈ states, offset < state.lo) : hit bits states offset = false := by
  rw [hit, bitsAt, valueAt, itemAt_eq_none_iff.mpr fun state member reached =>
    absurd (after state member) (not_lt.mpr reached)]
  exact bne_eq_false_iff_eq.mpr zero_and

theorem hit_behind (sorted : Sorted (state :: rest)) (less : offset < state.hi) :
    hit bits rest offset = false :=
  hit_gap fun other member => lt_of_lt_of_le less ((ascending_cons.mp sorted).2.2 other member)

theorem hit_at (divided : At start.toNat front back) (le : start.toNat ≤ offset) :
    hit bits (front ++ back) offset = hit bits back offset := by
  rw [hit, bitsAt, valueAt_append, valueAt, itemAt_eq_none_iff.mpr fun state member _ =>
    le_trans (divided.before state member) le]
  rfl

/-! ### test_range_bit -/

/-- All offsets of a range carry one of the bits, or none does. -/
def Uniform (bits : Bits) (filled : Bool) (start stop : Nat) (states : List ExtentState) : Prop :=
  ∀ offset, start ≤ offset → offset ≤ stop → hit bits states offset = filled

variable {filled bitset : Bool}

theorem uniform_cons {start stop : Nat} (sorted : Sorted (state :: rest)) (reaches : start < state.hi)
    (le : start ≤ stop) : Uniform bits filled start stop (state :: rest) ↔
      (start < state.lo → filled = false) ∧ (state.lo ≤ stop → carries bits state = filled) ∧
        (state.hi ≤ stop → Uniform bits filled state.hi stop rest) := by
  have own : state.lo < state.hi := (ascending_cons.mp sorted).1
  constructor
  · refine fun all => ⟨fun hole => ?_, fun starts => ?_, fun ends offset low high => ?_⟩
    · rw [← all start le_rfl le, hit_cons, if_neg (by omega), hit_behind sorted reaches]
    · rw [← all (max start state.lo) (le_max_left ..) (max_le le starts), hit_cons,
        if_pos ⟨le_max_right .., max_lt reaches own⟩]
    · rw [← all offset (by omega) high, hit_cons, if_neg (by omega)]
  · rintro ⟨hole, held, behind⟩ offset low high
    rw [hit_cons]
    split
    case isTrue inside => exact held (by omega)
    case isFalse outside =>
      by_cases short : offset < state.hi
      · rw [hit_behind sorted short, hole (by omega)]
      · exact behind (by omega) offset (by omega) high

/-- **The walk of `test_range_bit`** looks for an offset that differs from what is asked. -/
theorem testLoop_eq (sorted : Sorted states) (reach : ∀ state ∈ states, start.toNat < state.hi)
    (le : start ≤ stop) (unset : filled = false → bitset = false) :
    testLoop stop bits filled start bitset states = filled ↔
      Uniform bits filled start.toNat stop.toNat states := by
  induction states generalizing start bitset with
  | nil =>
    cases filled with
    | true => simpa [testLoop, Uniform, hit_gap] using ⟨start.toNat, le_rfl, le⟩
    | false => simp [testLoop, Uniform, hit_gap, unset rfl]
  | cons state rest ih =>
    rw [testLoop, uniform_cons sorted (reach state mem_cons_self) le]
    split
    case isTrue hole =>
      rw [hole.1]
      exact iff_of_false Bool.false_ne_true fun all => Bool.true_eq_false.mp (all.1 hole.2)
    case isFalse noHole =>
    have gap : start.toNat < state.lo → filled = false := fun less =>
      Bool.eq_false_iff.mpr fun asked => noHole ⟨asked, less⟩
    split
    case isTrue beyond =>
      have early : stop.toNat < state.lo := beyond
      have none := gap (lt_of_le_of_lt le early)
      have own : state.lo < state.hi := (ascending_cons.mp sorted).1
      exact iff_of_true ((unset none).trans none.symm)
        ⟨gap, fun starts => by omega, fun ends => by omega⟩
    case isFalse starts =>
    split
    case isTrue differs => exact iff_of_false differs fun all => differs (all.2.1 (not_lt.mp starts))
    case isFalse same =>
    have same := not_not.mp same
    have bitset' : (bitset || carries bits state) = filled := by
      rw [same]
      cases filled with
      | true => exact Bool.or_true _
      | false => rw [unset rfl]; rfl
    have ends_iff : (state.stop = -1 ∨ stop < state.stop + 1) ↔ stop.toNat < state.hi := by
      by_cases last : state.stop = -1
      · exact iff_of_true (.inl last) (hi_of_last last ▸ stop.isLt)
      · rw [or_iff_right last, lt_def, toNat_stop_succ last]
    rw [bitset', ← ite_or, if_congr ends_iff rfl rfl]
    split
    case isTrue ends =>
      exact iff_of_true rfl ⟨gap, fun _ => same, fun more => absurd ends (not_lt.mpr more)⟩
    case isFalse more =>
      have next := toNat_stop_succ fun last => more (ends_iff.mp (.inl last))
      rw [ih (ascending_cons.mp sorted).2.1
        (fun other member => next ▸ (@after_head [] _ _ sorted other member).2)
        (le_def.mpr (next ▸ not_lt.mp more)) id, next]
      exact ⟨fun all => ⟨gap, fun _ => same, fun _ => all⟩, fun all => all.2.2 (not_lt.mp more)⟩

/-! ### count_range_bits -/

/-- The number of offsets from `first` up to `last` that carry one of the bits. -/
def carriers (bits : Bits) (first last : Nat) (states : List ExtentState) : Nat :=
  ((Finset.Ico first last).filter fun offset => hit bits states offset = true).card

/-- The number of offsets of a state in a range. -/
def overlap (start stop : BitVec 64) (state : ExtentState) : Nat :=
  min (stop.toNat + 1) state.hi - max start.toNat state.lo

/-- The first state of a range that carries one of the bits. -/
def firstIn (start stop : BitVec 64) (bits : Bits) (states : List ExtentState) : Option ExtentState :=
  states.find? fun state =>
    decide (start ≤ state.stop) && decide (state.start ≤ stop) && carries bits state

variable {total : BitVec 64} {found : Option (BitVec 64)}

theorem carriers_cons (sorted : Sorted (state :: rest)) :
    carriers bits start.toNat (stop.toNat + 1) (state :: rest) =
      (if carries bits state then overlap start stop state else 0) +
        carriers bits start.toNat (stop.toNat + 1) rest := by
  have off : ∀ offset < state.hi, hit bits rest offset = false := fun _ => hit_behind sorted
  have parts : ((Finset.Ico start.toNat (stop.toNat + 1)).filter fun offset =>
      hit bits (state :: rest) offset = true) =
      (if carries bits state then
        Finset.Ico (max start.toNat state.lo) (min (stop.toNat + 1) state.hi) else ∅) ∪
      (Finset.Ico start.toNat (stop.toNat + 1)).filter fun offset => hit bits rest offset = true := by
    ext offset
    rw [Finset.mem_union, Finset.mem_filter, Finset.mem_filter, hit_cons]
    split_ifs <;> simp_all
  rw [carriers, parts, Finset.card_union_of_disjoint, apply_ite Finset.card, card_Ico]
  · rfl
  · refine Finset.disjoint_left.mpr fun offset one two => ?_
    split_ifs at one <;> simp_all [Finset.mem_Ico]

theorem overlap_eq (small : overlap start stop state < 2 ^ 64) (starts : ¬ stop < state.start)
    (reaches : start.toNat < state.hi) (own : state.lo < state.hi) (le : start ≤ stop) :
    ((if stop < state.stop then stop else state.stop) + 1 -
      (if start > state.start then start else state.start)).toNat = overlap start stop state := by
  rw [toNat_sub, toNat_add, show (1 : BitVec 64).toNat = 1 from rfl]
  simp only [lt_def, le_def, gt_iff_lt] at starts le ⊢
  unfold overlap ExtentState.hi ExtentState.lo at *
  split_ifs <;> omega

theorem carriers_beyond (beyond : ∀ state ∈ states, stop.toNat < state.lo) :
    carriers bits start.toNat (stop.toNat + 1) states = 0 ∧ firstIn start stop bits states = none := by
  constructor
  · rw [carriers, Finset.card_eq_zero, Finset.filter_eq_empty_iff]
    intro offset inside set
    rw [hit_gap fun state member => lt_of_le_of_lt (le_of_lt_succ (Finset.mem_Ico.mp inside).2)
      (beyond state member)] at set
    cases set
  · refine find?_eq_none.mpr fun state member => ?_
    simp [show ¬ state.start ≤ stop from BitVec.not_le.mpr (beyond state member)]

/-- **The walk of `count_range_bits`** with no limit: the total and the first state. -/
theorem countLoop_spec (sorted : Sorted states) (reach : ∀ state ∈ states, start.toNat < state.hi)
    (le : start ≤ stop) (fresh : found = none → total = 0)
    (fits : total.toNat + carriers bits start.toNat (stop.toNat + 1) states < 2 ^ 64) :
    (countLoop start stop (-1) bits total found states).1.toNat =
        total.toNat + carriers bits start.toNat (stop.toNat + 1) states ∧
      (countLoop start stop (-1) bits total found states).2 =
        found.or ((firstIn start stop bits states).bind fun state =>
          if overlap start stop state < 2 ^ 64 - 1 then some state.start else none) := by
  induction states generalizing total found with
  | nil =>
    obtain ⟨none, first⟩ := @carriers_beyond [] start stop bits (forall_mem_nil _)
    rw [none, first]
    exact ⟨rfl, (Option.or_none).symm⟩
  | cons state rest ih =>
    obtain ⟨own, sorted', behind⟩ := ascending_cons.mp sorted
    obtain ⟨here, reach'⟩ := forall_mem_cons.mp reach
    rw [countLoop]
    by_cases beyond : stop < state.start
    · obtain ⟨none, first⟩ := @carriers_beyond (state :: rest) start stop bits
        (forall_mem_cons.mpr ⟨beyond, fun other member =>
          lt_of_lt_of_le (lt_trans (lt_def.mp beyond) own) (behind other member)⟩)
      rw [if_pos beyond, none, first]
      exact ⟨rfl, (Option.or_none).symm⟩
    rw [carriers_cons sorted] at fits ⊢
    have reaches : start ≤ state.stop := le_of_lt_succ here
    have starts : state.start ≤ stop := BitVec.not_lt.mp beyond
    rw [if_neg beyond, firstIn, find?_cons, decide_eq_true reaches, decide_eq_true starts]
    cases held : carries bits state with
    | false =>
      rw [held, if_neg Bool.false_ne_true, Nat.zero_add] at fits
      simp only [Bool.and_false, Bool.false_eq_true, and_false, if_false, Nat.zero_add]
      exact ih sorted' reach' fresh fits
    | true =>
      rw [held, if_pos rfl] at fits
      have amount := overlap_eq (by omega) beyond here own le
      rw [if_pos ⟨reaches, rfl⟩, if_pos rfl]
      dsimp only
      generalize (if stop < state.stop then stop else state.stop) + 1 -
        (if start > state.start then start else state.start) = more at amount
      have sum : (total + more).toNat = total.toNat + overlap start stop state := by
        rw [toNat_add, amount, mod_eq_of_lt (by omega)]
      have limit : total + more ≥ -1 ↔ 2 ^ 64 - 1 ≤ (total + more).toNat := Iff.rfl
      by_cases full : total + more ≥ -1
      · rw [limit, sum] at full
        rw [if_pos (limit.mpr (sum ▸ full))]
        refine ⟨by rw [sum]; omega, ?_⟩
        cases found with
        | none =>
          rw [fresh rfl] at full
          exact (if_neg (by simpa using full)).symm
        | some => rfl
      · rw [if_neg full]
        rw [limit, sum] at full
        obtain ⟨total', found'⟩ := @ih (total + more) (some (found.getD state.start)) sorted' reach'
          nofun (by rw [sum]; omega)
        rw [total', found', sum, add_assoc]
        refine ⟨rfl, ?_⟩
        cases found with
        | none =>
          rw [fresh rfl] at full
          exact (if_pos (by simpa using full)).symm
        | some => rfl

/-! ### The queries against the map -/

/-- **The ranges that are counted right**: without `dirty_bytes`, the total fits and the first state
does not reach the limit alone; with it, no dirty offset is behind the range. -/
def Countable (states : List ExtentState) (start stop : BitVec 64) (bits : Bits) : Prop :=
  if start = 0 ∧ bits = extentDirty then
    (∀ offset < 2 ^ 64, stop.toNat < offset → hit bits states offset = false) ∧
      ∀ state ∈ firstIn start stop bits states, state.start = start
  else
    carriers bits start.toNat (stop.toNat + 1) states < 2 ^ 64 ∧
      ∀ state ∈ firstIn start stop bits states,
        state.start = start ∨ overlap start stop state < 2 ^ 64 - 1

theorem dirtyCount_eq_iff : dirtyCount (bitsAt states) =
      carriers extentDirty (0 : BitVec 64).toNat (stop.toNat + 1) states ↔
    ∀ offset < 2 ^ 64, stop.toNat < offset → hit extentDirty states offset = false := by
  have parts : ((Finset.Ico (0 : BitVec 64).toNat (stop.toNat + 1)).filter fun offset =>
      hit extentDirty states offset = true) =
      ((Finset.range (2 ^ 64)).filter fun offset => bitsAt states offset &&& extentDirty ≠ 0).filter
        fun offset => offset < stop.toNat + 1 := by
    ext offset
    simp only [Finset.mem_filter, Finset.mem_Ico, Finset.mem_range, hit, bne_iff_ne]
    exact ⟨fun ⟨inside, dirty⟩ => ⟨⟨by omega, dirty⟩, inside.2⟩, fun ⟨⟨_, dirty⟩, inside⟩ =>
      ⟨⟨zero_le _, inside⟩, dirty⟩⟩
  rw [carriers, parts, dirtyCount, eq_comm, Finset.card_filter_eq_iff]
  refine forall_congr' fun offset => ?_
  simp only [Finset.mem_filter, Finset.mem_range, hit, bne_eq_false_iff_eq, and_imp]
  refine imp_congr_right fun _ => ⟨fun inside late => ?_, fun clean set => ?_⟩
  · by_contra dirty
    exact absurd (inside dirty) (by omega)
  · by_contra late
    exact set (clean (by omega))

theorem testRangeBit_eq (sorted : Sorted states) (le : start ≤ stop) (filled : Bool)
    (cached : Option ExtentState) : testRangeBit states start stop bits filled cached = filled ↔
      Uniform bits filled start.toNat stop.toNat states := by
  obtain ⟨front, back, rfl, divided⟩ := exists_at sorted start
  have nodes : testRangeBit (front ++ back) start stop bits filled cached =
      testLoop stop bits filled start false back := by
    unfold testRangeBit
    rw [if_pos le]
    congr 1
    split
    · split
      case isTrue both => rw [dropWhile_cached sorted both.1, both.2, nodesFrom_at divided]
      case isFalse => exact nodesFrom_at divided
    · exact nodesFrom_at divided
  rw [nodes, testLoop_eq (ascending_append.mp sorted).2.1 divided.after le fun _ => rfl]
  exact forall₃_congr fun offset low _ => by rw [hit_at divided low]

/-- **The queries of a range.** `test_range_bit` and `find_first_extent_bit` agree with the map of
the tree, and `count_range_bits` exactly for `Countable` ranges. -/
theorem range_queries_iff {tree : Tree} (sorted : Sorted tree.states)
    (dirty : tree.dirtyBytes.toNat = dirtyCount (bitsAt tree.states)) (less : start < stop)
    (bits : Bits) (cached : Option ExtentState) :
    ((countRangeBits tree start stop (-1) bits).1.toNat =
        carriers bits start.toNat (stop.toNat + 1) tree.states ∧
      (∀ state ∈ firstIn start stop bits tree.states,
        (countRangeBits tree start stop (-1) bits).2 = state.start) ∧
      (testRangeBit tree.states start stop bits true cached = true ↔
        Uniform bits true start.toNat stop.toNat tree.states) ∧
      (testRangeBit tree.states start stop bits false cached = true ↔
        ∃ offset, start.toNat ≤ offset ∧ offset ≤ stop.toNat ∧ hit bits tree.states offset = true) ∧
      findFirstExtentBit tree.states start bits =
        tree.states.find? fun state => decide (start ≤ state.stop) && carries bits state) ↔
    Countable tree.states start stop bits := by
  have le := BitVec.le_of_lt less
  have any : testRangeBit tree.states start stop bits false cached = true ↔
      ∃ offset, start.toNat ≤ offset ∧ offset ≤ stop.toNat ∧ hit bits tree.states offset = true := by
    rw [← Bool.not_eq_false, testRangeBit_eq sorted le false cached, Uniform]
    simp only [not_forall, Bool.not_eq_false, exists_prop]
  obtain ⟨front, back, listed, divided⟩ := exists_at sorted start
  have skip : ∀ more : ExtentState → Bool,
      tree.states.find? (fun state => decide (start ≤ state.stop) && more state) =
        back.find? fun state => decide (start ≤ state.stop) && more state := by
    intro more
    rw [listed, find?_append, find?_eq_none.mpr, Option.none_or]
    intro state member
    have : ¬ start ≤ state.stop := fun reaches =>
      absurd (divided.before state member) (not_le.mpr (lt_succ_of_le reaches))
    simp [this]
  have nodes : nodesFrom start tree.states = back := listed ▸ nodesFrom_at divided
  have found : findFirstExtentBit tree.states start bits =
      tree.states.find? fun state => decide (start ≤ state.stop) && carries bits state := by
    rw [skip, findFirstExtentBit, nodes]
  rw [and_iff_left found, and_iff_left any, and_iff_left (testRangeBit_eq sorted le true cached),
    Countable, countRangeBits, if_neg (BitVec.not_le.mpr less)]
  split
  case isTrue cached =>
    obtain ⟨rfl, rfl⟩ := cached
    rw [dirty, dirtyCount_eq_iff]
    simp only [eq_comm]
  case isFalse =>
    have count : carriers bits start.toNat (stop.toNat + 1) tree.states =
        carriers bits start.toNat (stop.toNat + 1) back := by
      rw [carriers, listed, Finset.filter_congr fun offset inside => by
        rw [hit_at divided (Finset.mem_Ico.mp inside).1]]
      rfl
    have first : firstIn start stop bits tree.states = firstIn start stop bits back := by
      simp only [firstIn, Bool.and_assoc, skip]
    rw [count, first, nodes]
    by_cases fits : carriers bits start.toNat (stop.toNat + 1) back < 2 ^ 64
    · obtain ⟨total, reported⟩ := @countLoop_spec back start stop bits 0 none
        (ascending_append.mp (listed ▸ sorted)).2.1 divided.after le (fun _ => rfl)
        ((Nat.zero_add _).symm ▸ fits)
      dsimp only
      rw [reported, total]
      refine and_congr (iff_of_true (Nat.zero_add _) fits) (forall₂_congr fun state is => ?_)
      rw [is, Option.none_or, Option.bind_some]
      split
      case isTrue small => exact iff_of_true rfl (.inr small)
      case isFalse large => exact eq_comm.trans (or_iff_left large).symm
    · refine iff_of_false (fun right => fits ?_) fun right => fits right.1
      rw [← right.1]
      exact isLt _

/-- A range that begins before the only state and ends in it. -/
theorem range_queries_iff_one_state :
    (countRangeBits ⟨[⟨5, 14, 16⟩], 0⟩ 2 9 (-1) 16).1.toNat =
      carriers 16 (2 : BitVec 64).toNat ((9 : BitVec 64).toNat + 1) [⟨5, 14, 16⟩] := by
  have dirty : (0 : BitVec 64).toNat = dirtyCount (bitsAt [⟨5, 14, 16⟩]) :=
    (dirtyCount_clean (forall_mem_singleton.mpr (by decide))).symm
  refine ((@range_queries_iff 2 9 ⟨[⟨5, 14, 16⟩], 0⟩ (sorted_single (by decide)) dirty (by decide) 16
    none).mpr ?_).1
  refine ⟨by decide, fun state first => .inr ?_⟩
  cases first
  decide

/-- A dirty state behind the range is counted. -/
theorem count_ignores_end : ∃ tree : Tree, Sorted tree.states ∧
    tree.dirtyBytes.toNat = dirtyCount (bitsAt tree.states) ∧
    (countRangeBits tree 0 9 (-1) extentDirty).1.toNat ≠
      carriers extentDirty (0 : BitVec 64).toNat ((9 : BitVec 64).toNat + 1) tree.states := by
  refine ⟨⟨[⟨20, 29, extentDirty⟩], 10⟩, sorted_single (by decide), ?_, by decide⟩
  rw [(@dirtyCount_eq_iff [⟨20, 29, extentDirty⟩] 29).mpr]
  · decide
  · intro offset _ late
    rw [hit_cons, if_neg fun inside => absurd inside.2 (not_lt.mpr late)]
    exact hit_gap (forall_mem_nil _)

end KernelImx.Btrfs
