/-
**The extent state tree as a map from offsets to bits.**
-/

import KernelImx.Btrfs.ExtentIo
import KernelImx.Lib.Segments
import Mathlib.Order.Interval.Finset.Nat

namespace KernelImx.Btrfs

open List BitVec Nat Bool

open Lib (Ascending ascending_append ascending_cons Cut valueAt valueAt_window valueAt_cons)

/-! ### Offsets -/

def ExtentState.lo (state : ExtentState) : Nat := state.start.toNat

def ExtentState.hi (state : ExtentState) : Nat := state.stop.toNat + 1

/-- The states are non-empty, in order and disjoint. -/
abbrev Sorted (states : List ExtentState) : Prop :=
  Ascending ExtentState.lo ExtentState.hi states

/-- The bits of an offset. -/
def bitsAt (states : List ExtentState) (offset : Nat) : Bits :=
  (valueAt ExtentState.lo ExtentState.hi (fun state _ => state.state) states offset).getD 0

/-- A map with the bits from `first` up to `last` changed. -/
def paint (change : Bits → Bits) (first last : Nat) (bits : Nat → Bits) : Nat → Bits :=
  fun offset => if first ≤ offset ∧ offset < last then change (bits offset) else bits offset

/-- The number of offsets that carry `EXTENT_DIRTY`. -/
def dirtyCount (bits : Nat → Bits) : Nat :=
  ((Finset.range (2 ^ 64)).filter fun offset => bits offset &&& extentDirty ≠ 0).card

/-- **The states stand for the map.** -/
structure Stands (states : List ExtentState) (dirtyBytes : BitVec 64) (bits : Nat → Bits) : Prop where
  sorted : Sorted states
  bits_eq : bitsAt states = bits
  dirty : dirtyBytes = BitVec.ofNat 64 (dirtyCount bits)

variable {change : Bits → Bits} {first middle last : Nat} {bits : Nat → Bits} {value : Bits}
  {front back : List ExtentState} {state : ExtentState} {place : Place} {dirtyBytes : BitVec 64}

theorem paint_empty (empty : last ≤ first) : paint change first last bits = bits := by
  funext offset
  exact if_neg fun inside => absurd empty (by omega)

theorem paint_paint (one : first ≤ middle) (two : middle ≤ last) :
    paint change middle last (paint change first middle bits) = paint change first last bits := by
  funext offset
  unfold paint
  by_cases early : offset < middle
  · rw [if_neg (by omega)]
    exact if_congr ⟨fun inside => by omega, fun inside => by omega⟩ rfl rfl
  · by_cases late : offset < last
    · rw [if_pos ⟨by omega, late⟩, if_neg (fun inside => early inside.2), if_pos ⟨by omega, late⟩]
    · rw [if_neg (fun inside => late inside.2), if_neg (fun inside => early inside.2),
        if_neg (fun inside => late inside.2)]

theorem paint_of_fixed {start : Nat} (inside : first ≤ start)
    (fixed : ∀ offset, first ≤ offset → offset < start → change (bits offset) = bits offset) :
    paint change first last bits = paint change start last bits := by
  funext offset
  unfold paint
  by_cases early : offset < start
  · rw [if_neg (c := start ≤ offset ∧ offset < last) (by omega)]
    split
    case isTrue within => exact fixed offset within.1 early
    case isFalse => rfl
  · exact if_congr ⟨fun within => by omega, fun within => by omega⟩ rfl rfl

theorem dirtyCount_split (last_le : last ≤ 2 ^ 64)
    (uniform : ∀ offset, first ≤ offset → offset < last → bits offset = value) :
    dirtyCount bits = ((Finset.range (2 ^ 64)).filter fun offset =>
        bits offset &&& extentDirty ≠ 0 ∧ ¬ (first ≤ offset ∧ offset < last)).card +
      if value &&& extentDirty ≠ 0 then last - first else 0 := by
  have inside : ((Finset.range (2 ^ 64)).filter fun offset =>
      bits offset &&& extentDirty ≠ 0 ∧ (first ≤ offset ∧ offset < last)) =
        if value &&& extentDirty ≠ 0 then Finset.Ico first last else ∅ := by
    ext offset
    rw [Finset.mem_filter, Finset.mem_range]
    split
    case isTrue dirty =>
      rw [Finset.mem_Ico]
      exact ⟨fun all => all.2.2, fun within => ⟨by omega, uniform offset within.1 within.2 ▸ dirty, within⟩⟩
    case isFalse clean =>
      refine iff_of_false (fun all => clean ?_) (Finset.notMem_empty _)
      exact uniform offset all.2.2.1 all.2.2.2 ▸ all.2.1
  rw [dirtyCount, ← Finset.card_filter_add_card_filter_not fun offset => first ≤ offset ∧ offset < last,
    Finset.filter_filter, Finset.filter_filter, inside, add_comm]
  split
  · rw [card_Ico]
  · rfl

/-- **The number of dirty offsets** after an interval with the same bits is painted. -/
theorem dirtyCount_paint (last_le : last ≤ 2 ^ 64)
    (uniform : ∀ offset, first ≤ offset → offset < last → bits offset = value) :
    dirtyCount (paint change first last bits) +
        (if value &&& extentDirty ≠ 0 then last - first else 0) =
      dirtyCount bits + if change value &&& extentDirty ≠ 0 then last - first else 0 := by
  have outside : ((Finset.range (2 ^ 64)).filter fun offset =>
      paint change first last bits offset &&& extentDirty ≠ 0 ∧ ¬ (first ≤ offset ∧ offset < last)) =
      (Finset.range (2 ^ 64)).filter fun offset =>
        bits offset &&& extentDirty ≠ 0 ∧ ¬ (first ≤ offset ∧ offset < last) :=
    Finset.filter_congr fun offset _ => and_congr_left fun out => by rw [paint, if_neg out]
  rw [dirtyCount_split last_le uniform, @dirtyCount_split first last _ (change value) last_le
    (fun offset one two => by rw [paint, if_pos ⟨one, two⟩, uniform offset one two]), outside]
  omega

/-! ### Search and insertion -/

variable {offset : BitVec 64} {new : ExtentState}

theorem hi_le (state : ExtentState) : state.hi ≤ 2 ^ 64 :=
  state.stop.isLt

theorem states_reverse (front rest : List ExtentState) (state : ExtentState) :
    (⟨front.reverse, state, rest⟩ : Place).states = front ++ state :: rest := by
  rw [Place.states, reverse_reverse]

theorem states_next (before after : List ExtentState) (state next : ExtentState) :
    (⟨before, state, next :: after⟩ : Place).states
      = (⟨state :: before, next, after⟩ : Place).states := by
  rw [Place.states, Place.states, reverse_cons, List.append_assoc, singleton_append]

theorem toNat_succ {value : BitVec 64} (below : value.toNat + 1 < 2 ^ 64) :
    (value + 1).toNat = value.toNat + 1 := by
  rw [toNat_add, show (1 : BitVec 64).toNat = 1 from rfl, mod_eq_of_lt below]

theorem toNat_pred {value : BitVec 64} (positive : 0 < value.toNat) :
    (value - 1).toNat = value.toNat - 1 := by
  rw [toNat_sub, show (1 : BitVec 64).toNat = 1 from rfl]
  omega

section

variable (passed : ∀ state ∈ front, state.lo < state.hi ∧ state.hi ≤ offset.toNat)
  (behind : ∀ state ∈ back, offset.toNat < state.lo)

include passed behind

theorem insertFrom_spec (before : List ExtentState) :
    insertFrom offset new before (front ++ back) = some ⟨front.reverse ++ before, new, back⟩ := by
  induction front generalizing before with
  | nil =>
    cases back with
    | nil => rfl
    | cons entry rest =>
      rw [nil_append, insertFrom,
        if_pos (lt_def.mpr (behind entry mem_cons_self))]
      rfl
  | cons entry rest ih =>
    obtain ⟨⟨nonempty, ends⟩, later⟩ := forall_mem_cons.mp passed
    have notBefore : ¬ offset < entry.start := by
      exact not_lt.mpr (le_of_lt (lt_of_lt_of_le nonempty ends))
    rw [List.cons_append, insertFrom, if_neg notBefore, if_pos (lt_def.mpr ends),
      ih later, reverse_cons, List.append_assoc, singleton_append]

/-- **Where `tree_insert` links a state**: between the states before and after the offset. -/
theorem treeInsert_spec :
    treeInsert offset new (front ++ back) = some ⟨front.reverse, new, back⟩ := by
  rw [treeInsert, insertFrom_spec passed behind, append_nil]

end

/-! ### Merging and splitting -/

variable {one two whole : ExtentState}

theorem sorted_single (nonempty : whole.lo < whole.hi) : Sorted [whole] :=
  ascending_cons.mpr ⟨nonempty, Ascending.nil, forall_mem_nil _⟩

/-- A state and the two touching ones it is cut into. -/
abbrev Halves (whole one two : ExtentState) : Prop :=
  Cut ExtentState.lo ExtentState.hi (fun state _ => state.state) whole one two

theorem bitsAt_cut (cut : Halves whole one two) :
    bitsAt (front ++ one :: two :: back) = bitsAt (front ++ whole :: back) :=
  funext fun _ => congrArg (Option.getD · 0) cut.valueAt_eq

/-- A state with these bits that ends at `hi` goes into the state that follows. -/
def Swallows (bits : Bits) (hi : Nat) : List ExtentState → Prop
  | [] => False
  | next :: _ => kept bits = false ∧ next.lo = hi ∧ next.state = bits

instance (bits : Bits) (hi : Nat) : ∀ after, Decidable (Swallows bits hi after)
  | [] => inferInstanceAs (Decidable False)
  | next :: _ => inferInstanceAs (Decidable (kept bits = false ∧ next.lo = hi ∧ next.state = bits))

theorem touching (apart : one.hi ≤ two.lo) : (one.stop = two.start - 1 ↔ one.hi = two.lo) ∧
    (two.start = one.stop + 1 ↔ one.hi = two.lo) := by
  unfold ExtentState.hi ExtentState.lo at *
  constructor
  all_goals
    constructor
    · intro same
      bv_omega
    · intro same
      bv_omega

theorem mergePrev_spec (sorted : Sorted place.states) : ∃ before start lost,
    let new : Place := ⟨before, { place.state with start := start }, place.after⟩
    mergePrev place = (new, lost) ∧ Sorted new.states ∧ bitsAt new.states = bitsAt place.states ∧
      start.toNat ≤ place.state.lo ∧ (∀ state ∈ before, state ∈ place.before) ∧
      (lost.isSome ↔ ∃ other rest, place.before = other :: rest ∧ other.hi = place.state.lo ∧
        other.state = place.state.state) := by
  obtain ⟨before, state, after⟩ := place
  cases before with
  | nil => exact ⟨[], state.start, none, rfl, sorted, rfl, le_rfl, nofun, iff_of_false nofun nofun⟩
  | cons other before =>
    have split := (states_next ..).symm ▸ sorted
    obtain ⟨-, rest, -⟩ := ascending_append.mp split
    obtain ⟨nonempty, rest, behind⟩ := ascending_cons.mp rest
    have apart := behind state mem_cons_self
    by_cases joins : other.stop = state.start - 1 ∧ other.state = state.state
    · have touch := (touching apart).1.mp joins.1
      have cut : Halves { state with start := other.start } other state :=
        ⟨rfl, touch, rfl, nonempty, (ascending_cons.mp rest).1, fun _ _ _ => joins.2, fun _ _ _ => rfl⟩
      exact ⟨before, other.start, some other, if_pos joins, cut.ascending.mp split,
        (bitsAt_cut cut).symm.trans (congrArg bitsAt (states_next ..)),
        le_trans (le_of_lt nonempty) apart, fun _ member => mem_cons_of_mem _ member,
        iff_of_true rfl ⟨other, before, rfl, touch, joins.2⟩⟩
    · refine ⟨other :: before, state.start, none, if_neg joins, sorted, rfl, le_rfl, fun _ => id,
        iff_of_false nofun ?_⟩
      rintro ⟨_, _, ⟨⟩, touch, same⟩
      exact joins ⟨(touching apart).1.mpr touch, same⟩

theorem mergeNext_cases (sorted : Sorted place.states) (free : kept place.state.state = false) :
    (∃ next rest, place.after = next :: rest ∧
      mergeNext place =
        (⟨place.before, { next with start := place.state.start }, rest⟩, some place.state) ∧
      Sorted (mergeNext place).1.states ∧ bitsAt (mergeNext place).1.states = bitsAt place.states ∧
      Swallows place.state.state place.state.hi place.after) ∨
    mergeNext place = (place, none) ∧ ¬ Swallows place.state.state place.state.hi place.after := by
  obtain ⟨before, state, after⟩ := place
  cases after with
  | nil => exact .inr ⟨rfl, id⟩
  | cons other after =>
    obtain ⟨-, rest, -⟩ := ascending_append.mp sorted
    obtain ⟨nonempty, rest, behind⟩ := ascending_cons.mp rest
    have apart := behind other mem_cons_self
    by_cases joins : other.start = state.stop + 1 ∧ other.state = state.state
    · have touch := (touching apart).2.mp joins.1
      have merged : mergeNext ⟨before, state, other :: after⟩ =
        (⟨before, { other with start := state.start }, after⟩, some state) := if_pos joins
      rw [merged]
      have cut : Halves { other with start := state.start } state other :=
        ⟨rfl, touch, rfl, nonempty, (ascending_cons.mp rest).1, fun _ _ _ => joins.2.symm, fun _ _ _ => rfl⟩
      exact .inl ⟨other, after, rfl, rfl, cut.ascending.mp sorted, (bitsAt_cut cut).symm, free, touch.symm,
        joins.2⟩
    · exact .inr ⟨if_neg joins, fun swallows =>
        joins ⟨(touching apart).2.mpr swallows.2.1.symm, swallows.2.2⟩⟩

/-- **What `merge_state` does**: nothing, for the map; who leaves the tree. -/
structure MergedFrom (place : Place) (merged : Merged) : Prop where
  sorted : Sorted merged.place.states
  bits : bitsAt merged.place.states = bitsAt place.states
  before : ∀ state ∈ merged.place.before, state ∈ place.before
  value : merged.place.state.state = place.state.state
  lo : merged.place.state.lo ≤ place.state.lo
  own : match merged.lostOwn with
    | none => merged.place.after = place.after ∧ merged.place.state.stop = place.state.stop
    | some _ => ∃ next rest, place.after = next :: rest ∧ merged.place.after = rest ∧
        ∃ start, merged.place.state = { next with start := start }
  lostOwn : merged.lostOwn.isSome ↔ Swallows place.state.state place.state.hi place.after
  lostPrev : merged.lostPrev.isSome ↔ kept place.state.state = false ∧
    ∃ other rest, place.before = other :: rest ∧ other.hi = place.state.lo ∧
      other.state = place.state.state

theorem mergeState_spec (sorted : Sorted place.states) : MergedFrom place (mergeState place) := by
  rw [mergeState]
  split
  case isTrue keeps =>
    refine ⟨sorted, rfl, fun _ member => member, rfl, le_rfl, ⟨rfl, rfl⟩,
      iff_of_false nofun ?_, iff_of_false nofun fun all => ?_⟩
    · cases place.after with
      | nil => exact id
      | cons next rest =>
        rintro ⟨none, -⟩
        rw [keeps] at none
        cases none
    · rw [keeps] at all
      cases all.1
  case isFalse free =>
    have free := eq_false_iff.mpr free
    obtain ⟨before, start, lost, prev, sorted', bits', lower, kept, lostPrev⟩ := mergePrev_spec sorted
    rw [prev]
    have lostPrev := lostPrev.trans (and_iff_right free).symm
    rcases mergeNext_cases sorted' free with
      ⟨next, rest, after, merged, sorted'', bits'', swallows⟩ | ⟨merged, none⟩
    · rw [merged] at sorted'' bits'' ⊢
      refine ⟨sorted'', bits''.trans bits', kept, ?_, lower, ⟨next, rest, after, rfl, _, rfl⟩,
        iff_of_true rfl swallows, lostPrev⟩
      rw [after] at swallows
      exact swallows.2.2
    · rw [merged]
      exact ⟨sorted', bits', kept, rfl, lower, ⟨rfl, rfl⟩, iff_of_false nofun none, lostPrev⟩

/-! ### Other bits -/

theorem bitsAt_middle (sorted : Sorted (front ++ state :: back)) (offset : Nat) :
    bitsAt (front ++ state :: back) offset =
      if state.lo ≤ offset ∧ offset < state.hi then state.state else bitsAt (front ++ back) offset := by
  rw [bitsAt, sorted.valueAt_middle]
  split
  · rfl
  · rfl

theorem bitsAt_place (sorted : Sorted place.states) {offset : Nat}
    (inside : place.state.lo ≤ offset ∧ offset < place.state.hi) :
    bitsAt place.states offset = place.state.state :=
  (bitsAt_middle sorted offset).trans (if_pos inside)

theorem bitsAt_gap {offset : Nat}
    (before : ∀ state ∈ front, state.hi ≤ first) (after : ∀ state ∈ back, last ≤ state.lo)
    (inside : first ≤ offset ∧ offset < last) : bitsAt (front ++ back) offset = 0 := by
  have window := @valueAt_window _ _ ExtentState.lo ExtentState.hi (fun state _ => state.state) front
    [] back first last offset before (forall_mem_nil _) (by omega) after
  rw [nil_append, if_neg (by omega), if_pos inside.2] at window
  rw [bitsAt, window]
  rfl

theorem dirty_iff (value : Bits) : value &&& extentDirty = 0 ↔ value.getLsbD 0 = false := by
  constructor
  · intro zero
    have clear := congrArg (·.getLsbD 0) zero
    simpa [extentDirty] using clear
  intro clear
  refine eq_of_getLsbD_eq fun i inside => ?_
  cases i with
  | zero => simpa [extentDirty] using clear
  | succ i => simp [extentDirty]

theorem dirtyBytes_paint (dirty : dirtyBytes = BitVec.ofNat 64 (dirtyCount bits))
    (last_le : last ≤ 2 ^ 64)
    (uniform : ∀ offset, first ≤ offset → offset < last → bits offset = value) :
    BitVec.ofNat 64 (dirtyCount (paint change first last bits)) =
      dirtyBytes + (if (change value).getLsbD 0 then BitVec.ofNat 64 (last - first) else 0#64) -
        if value.getLsbD 0 then BitVec.ofNat 64 (last - first) else 0#64 := by
  have count := congrArg (BitVec.ofNat 64) (@dirtyCount_paint change _ _ _ _ last_le uniform)
  simp only [ofNat_add, Ne, dirty_iff, not_eq_false, apply_ite (BitVec.ofNat 64), ← dirty]
    at count
  rw [← count, add_sub_cancel]

theorem length_eq (nonempty : state.lo < state.hi) :
    state.stop - state.start + 1 = BitVec.ofNat 64 (state.hi - state.lo) := by
  unfold ExtentState.lo ExtentState.hi at nonempty ⊢
  refine eq_of_toNat_eq ?_
  rw [toNat_add, toNat_sub, toNat_ofNat,
    show (1 : BitVec 64).toNat = 1 from rfl]
  omega

theorem nonempty_place (sorted : Sorted place.states) : place.state.lo < place.state.hi :=
  sorted.nonempty place.state (mem_append_right _ mem_cons_self)

/-- The states before the cursor, and those that reach behind it. -/
structure At (cursor : Nat) (front back : List ExtentState) : Prop where
  before : ∀ state ∈ front, state.hi ≤ cursor
  after : ∀ state ∈ back, cursor < state.hi

theorem after_head (sorted : Sorted (front ++ state :: back)) :
    ∀ other ∈ back, state.hi ≤ other.lo ∧ state.hi < other.hi := by
  intro other member
  obtain ⟨-, rest, -⟩ := ascending_append.mp sorted
  obtain ⟨-, later, after⟩ := ascending_cons.mp rest
  have := after other member
  have := later.nonempty other member
  omega

theorem at_place (sorted : Sorted place.states) :
    At place.state.hi place.before.reverse place.after := by
  obtain ⟨-, -, before⟩ := ascending_append.mp sorted
  refine ⟨fun state member => ?_, fun state member => (after_head sorted state member).2⟩
  exact le_trans (before state member _ mem_cons_self) (le_of_lt (nonempty_place sorted))

/-- The states before and behind the end of a state that was merged. -/
def Merged.sides (merged : Merged) : List ExtentState × List ExtentState :=
  match merged.lostOwn with
  | none => (merged.place.state :: merged.place.before, merged.place.after)
  | some _ => (merged.place.before, merged.place.state :: merged.place.after)

/-- What is before and behind the cursor after a state was merged. -/
structure Behind (hi : Nat) (value : Bits) (rest front back : List ExtentState) : Prop where
  divided : At hi front back
  swallowed : Swallows value hi rest → ∃ next later start, rest = next :: later ∧
    back = { next with start := start } :: later ∧ start.toNat < hi
  same : ¬ Swallows value hi rest → back = rest

theorem Behind.length {hi : Nat} {rest : List ExtentState}
    (parts : Behind hi value rest front back) : back.length = rest.length := by
  by_cases swallows : Swallows value hi rest
  · obtain ⟨next, later, start, rfl, rfl, -⟩ := parts.swallowed swallows
    rfl
  · rw [parts.same swallows]

theorem MergedFrom.behind {merged : Merged} (sorted : Sorted place.states)
    (source : MergedFrom place merged) :
    merged.place.states = merged.sides.1.reverse ++ merged.sides.2 ∧
      Behind place.state.hi place.state.state place.after merged.sides.1.reverse merged.sides.2 := by
  obtain ⟨before, after⟩ := at_place sorted
  have earlier : ∀ state ∈ merged.place.before, state.hi ≤ place.state.hi := fun state member =>
    before state (mem_reverse.mpr (source.before state member))
  have own := source.own
  have lost := source.lostOwn
  rw [Merged.sides]
  generalize merged.lostOwn = own' at own lost
  cases own' with
  | none =>
    have none : ¬ Swallows place.state.state place.state.hi place.after :=
      fun swallows => nomatch lost.mpr swallows
    rw [own.1]
    refine ⟨?_, ⟨fun state member => ?_, after⟩, fun swallows => absurd swallows none, fun _ => rfl⟩
    · rw [Place.states, reverse_cons, List.append_assoc, own.1]
      rfl
    · rcases mem_cons.mp (mem_reverse.mp member) with rfl | older
      · rw [ExtentState.hi, own.2]
        exact le_rfl
      · exact earlier state older
  | some gone =>
    obtain ⟨next, later, rest, rest', start, state⟩ := own
    have early : start.toNat < place.state.hi := by
      have lo := source.lo
      rw [state] at lo
      exact lt_of_le_of_lt lo (nonempty_place sorted)
    rw [state, rest']
    refine ⟨by rw [Place.states, state, rest'],
      ⟨fun state member => earlier state (mem_reverse.mp member), ?_⟩,
      fun _ => ⟨next, later, start, rest, rfl, early⟩, fun none => absurd (lost.mp rfl) none⟩
    rw [rest] at after
    exact forall_mem_cons.mpr (forall_mem_cons.mp after)

section

variable (sorted : Sorted place.states)

include sorted

theorem recolor (changed : change place.state.state = value) :
    Sorted ({ place with state := { place.state with state := value } } : Place).states ∧
      bitsAt ({ place with state := { place.state with state := value } } : Place).states
        = paint change place.state.lo place.state.hi (bitsAt place.states) := by
  have sorted' := @Ascending.renew _ _ _ _ _ _ { place.state with state := value } sorted rfl rfl
  refine ⟨sorted', funext fun offset => ?_⟩
  rw [paint, Place.states, bitsAt_middle sorted', Place.states, bitsAt_middle sorted]
  show (if place.state.lo ≤ offset ∧ offset < place.state.hi then value else _) = _
  split_ifs
  · exact changed.symm
  · rfl

theorem uncolor (changed : change place.state.state = 0) :
    Sorted (place.before.reverse ++ place.after) ∧
      bitsAt (place.before.reverse ++ place.after)
        = paint change place.state.lo place.state.hi (bitsAt place.states) := by
  obtain ⟨inFront, rest, before⟩ := ascending_append.mp sorted
  obtain ⟨nonempty, inBack, after⟩ := ascending_cons.mp rest
  refine ⟨ascending_append.mpr ⟨inFront, inBack, fun one member two other =>
    before one member two (mem_cons_of_mem _ other)⟩, funext fun offset => ?_⟩
  rw [paint, Place.states, bitsAt_middle sorted]
  split_ifs with inside
  · rw [changed, bitsAt_gap (fun state member => before state member _ mem_cons_self) after inside]
  · rfl

end

section

variable (stands : Stands place.states dirtyBytes bits)

include stands

theorem Stands.setBits (set : Bits) :
    Stands ({ place with state := (setStateBits set place.state dirtyBytes).1 } : Place).states
      (setStateBits set place.state dirtyBytes).2
      (paint (· ||| stateBits set) place.state.lo place.state.hi bits) := by
  obtain ⟨sorted, rfl, dirty⟩ := stands
  have nonempty := nonempty_place sorted
  obtain ⟨sorted', bits'⟩ := @recolor (· ||| stateBits set) _ place sorted rfl
  refine ⟨sorted', bits', ?_⟩
  rw [dirtyBytes_paint dirty (hi_le _) fun offset one two => bitsAt_place sorted ⟨one, two⟩,
    setStateBits, length_eq nonempty]
  simp only [Ne, dirty_iff, getLsbD_or]
  cases place.state.state.getLsbD 0 <;> cases (stateBits set).getLsbD 0 <;> simp

theorem dirty_clear (clear : Bits) :
    (if stateBits clear &&& extentDirty ≠ 0 ∧ place.state.state &&& extentDirty ≠ 0 then
      dirtyBytes - (place.state.stop - place.state.start + 1) else dirtyBytes)
      = BitVec.ofNat 64 (dirtyCount
        (paint (· &&& ~~~stateBits clear) place.state.lo place.state.hi bits)) := by
  obtain ⟨sorted, rfl, dirty⟩ := stands
  rw [dirtyBytes_paint dirty (hi_le _) fun offset one two => bitsAt_place sorted ⟨one, two⟩,
    length_eq (nonempty_place sorted)]
  simp only [Ne, dirty_iff, getLsbD_and, getLsbD_not]
  cases place.state.state.getLsbD 0 <;> cases (stateBits clear).getLsbD 0 <;> simp

/-- **`clear_state_bit` on a state of the tree**: the map, and the states around the point where the
state was. -/
theorem Stands.clearBits (clear : Bits) :
    Stands ((clearStateBit clear place dirtyBytes).1.1.reverse
        ++ (clearStateBit clear place dirtyBytes).1.2)
      (clearStateBit clear place dirtyBytes).2
      (paint (· &&& ~~~stateBits clear) place.state.lo place.state.hi bits) ∧
    At place.state.hi (clearStateBit clear place dirtyBytes).1.1.reverse
      (clearStateBit clear place dirtyBytes).1.2 ∧
    (clearStateBit clear place dirtyBytes).1.2.length ≤ place.after.length := by
  have dirty := dirty_clear stands clear
  obtain ⟨sorted, rfl, -⟩ := stands
  rw [clearStateBit]
  dsimp only
  rw [dirty]
  split
  case isTrue empty =>
    obtain ⟨sorted', bits'⟩ := @uncolor (· &&& ~~~stateBits clear) place sorted empty
    exact ⟨⟨sorted', bits', rfl⟩, at_place sorted, le_rfl⟩
  case isFalse =>
    obtain ⟨sorted', bits'⟩ := @recolor (· &&& ~~~stateBits clear) _ place sorted rfl
    have merged := mergeState_spec sorted'
    obtain ⟨listed, behind⟩ := merged.behind sorted'
    have sorted'' := merged.sorted
    have bits'' := merged.bits.trans bits'
    rw [listed] at sorted'' bits''
    generalize mergeState _ = result at sorted'' bits'' behind
    unfold Merged.sides at sorted'' bits'' behind
    generalize result.lostOwn = own at sorted'' bits'' behind
    cases own with
    | none | some gone => exact ⟨⟨sorted'', bits'', rfl⟩, behind.divided, behind.length.le⟩

end

theorem Stands.insert {start stop : BitVec 64} {set : Bits}
    (stands : Stands (front ++ back) dirtyBytes bits) (ordered : start.toNat ≤ stop.toNat)
    (before : ∀ state ∈ front, state.hi ≤ start.toNat)
    (after : ∀ state ∈ back, stop.toNat < state.lo) :
    ∃ merged dirtyBytes', insertState (front ++ back) dirtyBytes start stop set
        = some (merged, dirtyBytes') ∧
      Sorted (⟨front.reverse, ⟨start, stop, stateBits set⟩, back⟩ : Place).states ∧
      MergedFrom ⟨front.reverse, ⟨start, stop, stateBits set⟩, back⟩ merged ∧
      Stands merged.place.states dirtyBytes'
        (paint (· ||| stateBits set) start.toNat (stop.toNat + 1) bits) := by
  obtain ⟨sorted, rfl, dirty⟩ := stands
  let new : ExtentState := ⟨start, stop, stateBits set⟩
  have nonempty : new.lo < new.hi := lt_succ_of_le ordered
  have gap : ∀ offset, start.toNat ≤ offset → offset < stop.toNat + 1 →
      bitsAt (front ++ back) offset = 0 :=
    fun offset one two => bitsAt_gap before after ⟨one, two⟩
  obtain ⟨inFront, inBack, between⟩ := ascending_append.mp sorted
  have sorted' : Sorted (front ++ new :: back) :=
    ascending_append.mpr ⟨inFront, ascending_cons.mpr ⟨nonempty, inBack, after⟩, fun one member =>
      forall_mem_cons.mpr ⟨before one member, between one member⟩⟩
  have bits' : bitsAt (front ++ new :: back) =
      paint (· ||| stateBits set) start.toNat (stop.toNat + 1) (bitsAt (front ++ back)) := by
    funext offset
    rw [bitsAt_middle sorted', paint]
    refine if_ctx_congr Iff.rfl (fun inside => ?_) fun _ => rfl
    rw [gap offset inside.1 inside.2]
    exact zero_or.symm
  have placed := states_reverse front back new
  have merged := mergeState_spec (placed ▸ sorted')
  have inserted := congrArg (Option.map fun place => (mergeState place,
      if stateBits set &&& extentDirty ≠ 0 then dirtyBytes + (stop - start + 1) else dirtyBytes))
    (@treeInsert_spec _ _ stop new (fun state member =>
      ⟨inFront.nonempty state member, le_trans (before state member) ordered⟩) after)
  refine ⟨_, _, inserted, placed ▸ sorted', merged, merged.sorted,
    merged.bits.trans ((congrArg bitsAt placed).trans bits'), ?_⟩
  rw [dirtyBytes_paint dirty stop.isLt gap,
    show (0 : Bits) ||| stateBits set = stateBits set from zero_or,
    show stop - start + 1 = BitVec.ofNat 64 (stop.toNat + 1 - start.toNat) from length_eq nonempty]
  simp only [Ne, dirty_iff]
  cases (stateBits set).getLsbD 0 <;> simp

/-- The two halves of a state, seen from the second one. -/
def Place.cut (place : Place) (split : BitVec 64) : Place :=
  ⟨⟨place.state.start, split - 1, place.state.state⟩ :: place.before,
    { place.state with start := split }, place.after⟩

theorem Stands.split {split : BitVec 64} (stands : Stands place.states dirtyBytes bits)
    (above : place.state.lo < split.toNat) (below : split.toNat < place.state.hi) :
    splitState place split = some ⟨place.before, ⟨place.state.start, split - 1, place.state.state⟩,
        { place.state with start := split } :: place.after⟩ ∧
      Stands (place.cut split).states dirtyBytes bits := by
  obtain ⟨sorted, rfl, dirty⟩ := stands
  have pred := toNat_pred (lt_of_le_of_lt (zero_le _) above)
  obtain ⟨inFront, rest, before⟩ := ascending_append.mp sorted
  have after := (ascending_cons.mp rest).2.2
  let lower : ExtentState := ⟨place.state.start, split - 1, place.state.state⟩
  have touch : lower.hi = split.toNat := by
    show (split - 1).toNat + 1 = split.toNat
    omega
  have cut : Halves place.state lower { place.state with start := split } :=
    ⟨rfl, touch, rfl, touch.symm ▸ above, below, fun _ _ _ => rfl, fun _ _ _ => rfl⟩
  refine ⟨?_, (states_next ..) ▸ ⟨cut.ascending.mpr sorted, bitsAt_cut cut, dirty⟩⟩
  have inserted := @treeInsert_spec _ ({ place.state with start := split } :: place.after) (split - 1) lower
    (fun state member => ⟨inFront.nonempty state member, by
      have := before state member _ mem_cons_self
      omega⟩)
    (forall_mem_cons.mpr ⟨by
        show (split - 1).toNat < split.toNat
        omega, fun state member => by
        have := after state member
        omega⟩)
  rw [reverse_reverse] at inserted
  exact inserted

theorem Stands.splitEnd {stop : BitVec 64} (stands : Stands place.states dirtyBytes bits)
    (starts : place.state.lo ≤ stop.toNat) (long : stop < place.state.stop) :
    splitState place (stop + 1) = some ⟨place.before, { place.state with stop := stop },
        { place.state with start := stop + 1 } :: place.after⟩ ∧
      Stands (⟨place.before, { place.state with stop := stop },
        { place.state with start := stop + 1 } :: place.after⟩ : Place).states dirtyBytes bits := by
  have next : (stop + 1).toNat = stop.toNat + 1 :=
    toNat_succ (lt_of_le_of_lt (lt_def.mp long) place.state.stop.isLt)
  obtain ⟨equation, stands'⟩ := @Stands.split _ _ _ (stop + 1) stands
    (by rw [next]; exact lt_succ_of_le starts) (by rw [next]; exact succ_lt_succ (lt_def.mp long))
  rw [add_sub_cancel] at equation
  rw [Place.cut, add_sub_cancel, ← states_next] at stands'
  exact ⟨equation, stands'⟩

end KernelImx.Btrfs
