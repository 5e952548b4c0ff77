/-
**`clear_extent_bit` clears exactly the given bits of its range.**

Main result: `clearExtentBit_spec`.
-/

import KernelImx.Btrfs.Offsets

namespace KernelImx.Btrfs

open List BitVec Nat

open Lib (ascending_append ascending_cons Ascending)

/-! ### The cursor -/

/-- How much is left to do: a state that begins before the cursor is split first. -/
def work (cursor : Nat) : List ExtentState → Nat
  | [] => 0
  | state :: rest => 2 * (rest.length + 1) + if state.lo < cursor then 1 else 0

theorem work_le (cursor : Nat) (states : List ExtentState) :
    work cursor states ≤ 2 * states.length + 1 := by
  cases states with
  | nil => exact zero_le _
  | cons state rest =>
    rw [work, length_cons]
    split <;> omega

theorem cut_states (front rest : List ExtentState) (state : ExtentState) (split : BitVec 64) :
    (Place.cut ⟨front.reverse, state, rest⟩ split).states =
      (front ++ [⟨state.start, split - 1, state.state⟩]) ++ { state with start := split } :: rest := by
  rw [Place.cut, Place.states, reverse_cons, reverse_reverse]

variable {offset : BitVec 64} {front back : List ExtentState} {state : ExtentState} {call : ClearCall}
  {goal bits : Nat → Bits} {vars : ClearVars} {todo : Nat} {loop : Clearing}

theorem exists_at {states : List ExtentState} (sorted : Sorted states) (offset : BitVec 64) :
    ∃ front back, states = front ++ back ∧ At offset.toNat front back := by
  induction states with
  | nil => exact ⟨[], [], rfl, forall_mem_nil _, forall_mem_nil _⟩
  | cons state rest ih =>
    obtain ⟨-, later, after⟩ := ascending_cons.mp sorted
    by_cases ends : state.hi ≤ offset.toNat
    · obtain ⟨front, back, rfl, divided⟩ := ih later
      exact ⟨state :: front, back, rfl, forall_mem_cons.mpr ⟨ends, divided.before⟩, divided.after⟩
    · refine ⟨[], state :: rest, rfl, forall_mem_nil _,
        forall_mem_cons.mpr ⟨not_le.mp ends, fun other member => ?_⟩⟩
      have := after other member
      have := later.nonempty other member
      omega

theorem searchFrom_append (passed : ∀ state ∈ front, state.hi ≤ offset.toNat)
    (before : List ExtentState) :
    searchFrom offset before (front ++ back) = searchFrom offset (front.reverse ++ before) back := by
  induction front generalizing before with
  | nil => rfl
  | cons state rest ih =>
    obtain ⟨here, later⟩ := forall_mem_cons.mp passed
    rw [List.cons_append, searchFrom, if_pos (lt_def.mpr here), ih later,
      reverse_cons, List.append_assoc, singleton_append]

theorem treeSearch_at (divided : At offset.toNat front back) :
    treeSearch offset (front ++ back) = match back with
      | [] => none
      | state :: rest => some ⟨front.reverse, state, rest⟩ := by
  rw [treeSearch, searchFrom_append divided.before, append_nil]
  cases back with
  | nil => rfl
  | cons state rest =>
    have reaches : ¬ state.stop < offset := fun short =>
      not_le.mpr (divided.after state mem_cons_self) (lt_def.mp short)
    rw [searchFrom, if_neg reaches]

theorem At.split (divided : At offset.toNat front (state :: back)) (early : state.lo < offset.toNat) :
    At offset.toNat (front ++ [⟨state.start, offset - 1, state.state⟩])
      ({ state with start := offset } :: back) := by
  obtain ⟨reaches, later⟩ := forall_mem_cons.mp divided.after
  refine ⟨forall_mem_append.mpr ⟨divided.before, forall_mem_singleton.mpr ?_⟩,
    forall_mem_cons.mpr ⟨reaches, later⟩⟩
  show (offset - 1).toNat + 1 ≤ offset.toNat
  rw [toNat_pred (lt_of_le_of_lt (zero_le _) early)]
  omega

/-! ### One round -/

/-- What is left to do from the cursor on gives the map that is wanted. -/
structure ClearsFrom (call : ClearCall) (goal : Nat → Bits) (todo : Nat)
    (front back : List ExtentState) (vars : ClearVars) : Prop where
  divided : At vars.start.toNat front back
  inside : vars.start.toNat ≤ call.stop.toNat
  less : work vars.start.toNat back < todo
  left : ∃ bits, Stands (front ++ back) vars.dirtyBytes bits ∧
    paint (· &&& ~~~stateBits call.bits) vars.start.toNat (call.stop.toNat + 1) bits = goal

/-- What the loop has come to: the map that is wanted, or a cursor with less to do behind it. -/
def ClearsTo (call : ClearCall) (goal : Nat → Bits) (todo : Nat) : Clearing → Prop
  | .out tree _ => Stands tree.states tree.dirtyBytes goal
  | .again states vars => ∃ front back, states = front ++ back ∧
      ClearsFrom call goal todo front back vars
  | .hitNext place vars =>
      ClearsFrom call goal todo place.before.reverse (place.state :: place.after) vars

theorem clearAgain_spec (divided : At vars.start.toNat front back)
    (less : work vars.start.toNat back < todo)
    (stands : Stands (front ++ back) vars.dirtyBytes bits)
    (left : paint (· &&& ~~~stateBits call.bits) vars.start.toNat (call.stop.toNat + 1) bits = goal) :
    ClearsTo call goal todo (clearAgain call (front ++ back) vars) := by
  rw [clearAgain]
  split
  case isTrue past =>
    rw [paint_empty (lt_def.mp past)] at left
    exact left ▸ stands
  case isFalse goes =>
    exact ⟨front, back, rfl, divided, BitVec.not_lt.mp goes, less, bits, stands, left⟩

theorem paint_gap {dirtyBytes : BitVec 64} {cursor first last : Nat}
    (stands : Stands (front ++ back) dirtyBytes bits) {clear : Bits}
    (before : ∀ state ∈ front, state.hi ≤ cursor) (after : ∀ state ∈ back, first ≤ state.lo)
    (le : cursor ≤ first) :
    paint (· &&& ~~~clear) cursor last bits = paint (· &&& ~~~clear) first last bits := by
  refine paint_of_fixed le fun offset one two => ?_
  rw [← stands.bits_eq, bitsAt_gap before after ⟨one, two⟩]
  exact zero_and

theorem toNat_stop_succ (notLast : ¬ state.stop = -1) : (state.stop + 1).toNat = state.hi := by
  refine toNat_succ (lt_of_le_of_ne state.stop.isLt fun last => notLast ?_)
  refine eq_of_toNat_eq ?_
  rw [show ((-1 : BitVec 64)).toNat = 2 ^ 64 - 1 from rfl]
  omega

theorem hi_of_last (last : state.stop = -1) : state.hi = 2 ^ 64 := by
  rw [ExtentState.hi, last]
  rfl

theorem cleared_spec {place : Place} {set : Bits} {before rest : List ExtentState}
    {dirtyBytes : BitVec 64}
    (clears : clearStateBit call.bits place vars.dirtyBytes = ((before, rest), dirtyBytes))
    (stands : Stands place.states vars.dirtyBytes bits)
    (left : paint (· &&& ~~~stateBits call.bits) place.state.lo (call.stop.toNat + 1) bits = goal)
    (ends : place.state.stop.toNat ≤ call.stop.toNat) (less : 2 * place.after.length + 1 < todo) :
    (place.state.stop = -1 → ClearsTo call goal todo (.out ⟨before.reverse ++ rest, dirtyBytes⟩ set)) ∧
    (¬ place.state.stop = -1 → ∀ prealloc, ClearsTo call goal todo
      (clearAgain call (before.reverse ++ rest) ⟨place.state.stop + 1, dirtyBytes, prealloc, set⟩) ∧
      ∀ next after, rest = next :: after → place.state.stop.toNat < call.stop.toNat →
        ClearsTo call goal todo (.hitNext ⟨before, next, after⟩
          ⟨place.state.stop + 1, dirtyBytes, prealloc, set⟩)) := by
  obtain ⟨stands', divided, short⟩ := stands.clearBits call.bits
  rw [clears] at stands' divided short
  have short : rest.length ≤ place.after.length := short
  constructor
  · intro last
    have whole : call.stop.toNat + 1 = place.state.hi := by
      have := hi_of_last last
      unfold ExtentState.hi at *
      omega
    rw [whole] at left
    exact left ▸ stands'
  intro notLast prealloc
  have next := toNat_stop_succ notLast
  rw [← paint_paint (le_of_lt (nonempty_place stands.sorted)) (succ_le_succ ends)] at left
  have small : work place.state.hi rest < todo := lt_of_le_of_lt (work_le _ _) (by omega)
  constructor
  · exact clearAgain_spec (next ▸ divided) (next ▸ small) stands' (next ▸ left)
  · rintro following after rfl short
    exact ⟨next ▸ divided, next ▸ short, next ▸ small, _, stands', next ▸ left⟩

/-- **One round of `clear_extent_bit`** at the first state that reaches behind the cursor. -/
theorem clearHit_spec (needResched : Bool)
    (clears : ClearsFrom call goal (todo + 1) front (state :: back) vars) :
    ∃ loop, clearHit call needResched ⟨front.reverse, state, back⟩ vars = .ok loop ∧
      ClearsTo call goal todo loop := by
  obtain ⟨divided, inside, less, bits, stands, left⟩ := clears
  have reaches := divided.after state mem_cons_self
  have listed := states_reverse front back state
  have behind := after_head stands.sorted
  rw [work] at less
  have more : 2 * back.length + 1 < todo := by
    split at less <;> omega
  have apart (first : Nat) (le : first ≤ state.lo) : ∀ other ∈ state :: back, first ≤ other.lo := by
    have nonempty := nonempty_place (listed ▸ stands.sorted)
    exact forall_mem_cons.mpr ⟨le, fun other member =>
      le_trans le (le_trans (le_of_lt nonempty) (behind other member).1)⟩
  rw [clearHit]
  dsimp only
  split
  case isTrue beyond =>
    -- the range ends before the state
    refine ⟨_, rfl, ?_⟩
    rw [paint_gap stands divided.before (apart _ (lt_def.mp beyond)) (le_succ_of_le inside),
      paint_empty le_rfl] at left
    exact left ▸ listed ▸ stands
  case isFalse starts =>
    have starts := BitVec.not_lt.mp starts
    split
    case isTrue early =>
      -- the state begins before the cursor
      obtain ⟨equation, stands'⟩ := (listed ▸ stands).split early reaches
      rw [equation]
      dsimp only
      split
      case isTrue ends =>
        obtain ⟨out, again⟩ := @cleared_spec call goal bits { vars with prealloc := false } _
          (Place.cut _ vars.start) _ _ _ _ rfl stands' left (le_def.mp ends) more
        split
        case isTrue last => exact ⟨_, rfl, out last⟩
        case isFalse notLast => exact ⟨_, rfl, (again notLast false).1⟩
      case isFalse long =>
        refine ⟨_, rfl, ?_⟩
        rw [cut_states] at stands'
        rw [states_next]
        show ClearsTo _ _ _ (clearAgain call (Place.cut ⟨front.reverse, state, back⟩ _).states _)
        rw [cut_states]
        refine clearAgain_spec (divided.split early) ?_ stands' left
        show 2 * (back.length + 1) + (if vars.start.toNat < vars.start.toNat then 1 else 0) < _
        rw [if_neg (lt_irrefl _)]
        rw [if_pos (show state.lo < vars.start.toNat from early)] at less
        omega
    case isFalse late =>
      rw [paint_gap stands divided.before (apart _ le_rfl) (BitVec.not_lt.mp late)] at left
      split
      case isTrue long =>
        -- the state ends behind the range
        obtain ⟨equation, stands'⟩ := (listed ▸ stands).splitEnd starts long.2
        rw [equation]
        obtain ⟨stands'', -, -⟩ := stands'.clearBits call.bits
        exact ⟨_, rfl, left ▸ stands''⟩
      case isFalse short =>
        have ends : state.stop.toNat ≤ call.stop.toNat :=
          Nat.le_of_not_lt fun long => short ⟨starts, lt_def.mpr long⟩
        obtain ⟨out, again⟩ := @cleared_spec call goal bits vars _ ⟨front.reverse, state, back⟩
          (vars.set ||| (state.state &&& stateBits call.bits)) _ _ _ rfl (listed ▸ stands) left ends
          more
        split
        case isTrue last => exact ⟨_, rfl, out last⟩
        case isFalse notLast =>
          obtain ⟨search, hit⟩ := again notLast vars.prealloc
          split
          case isTrue goes =>
            split
            case h_1 next after equation =>
              split
              case isTrue =>
                exact ⟨_, rfl, hit next after equation (lt_def.mp goes.1)⟩
              case isFalse => exact ⟨_, rfl, search⟩
            case h_2 => exact ⟨_, rfl, search⟩
          case isFalse => exact ⟨_, rfl, search⟩

/-! ### The call -/

theorem clearRound_spec (answer : Bool) (reached : ClearsTo call goal (todo + 1) loop) :
    ∃ loop', clearRound call answer loop = .ok loop' ∧ ClearsTo call goal todo loop' := by
  cases loop with
  | out tree set => exact ⟨_, rfl, reached⟩
  | again states vars =>
    obtain ⟨front, back, rfl, clears⟩ := reached
    rw [clearRound, treeSearch_at clears.divided]
    cases back with
    | nil =>
      obtain ⟨divided, inside, -, bits, stands, left⟩ := clears
      rw [paint_gap stands divided.before (forall_mem_nil _) (le_succ_of_le inside),
        paint_empty le_rfl] at left
      exact ⟨_, rfl, left ▸ stands⟩
    | cons state rest =>
      exact @clearHit_spec front rest state call goal
        { vars with prealloc := vars.prealloc || call.wait } todo answer { clears with }
  | hitNext place vars =>
    have hit := clearHit_spec answer reached
    rw [reverse_reverse] at hit
    exact hit

theorem clearLoop_spec {answers : List Bool} (reached : ClearsTo call goal todo loop)
    (enough : todo ≤ answers.length) :
    ∃ tree set, clearLoop call answers loop = some (.ok (tree, set)) ∧
      Stands tree.states tree.dirtyBytes goal := by
  induction todo generalizing loop answers with
  | zero =>
    cases loop with
    | out tree set => exact ⟨tree, set, by rw [clearLoop], reached⟩
    | again states vars =>
      obtain ⟨_, _, -, clears⟩ := reached
      exact absurd clears.less (not_lt_zero _)
    | hitNext place vars => exact absurd reached.less (not_lt_zero _)
  | succ todo ih =>
    cases answers with
    | nil => exact absurd enough (not_succ_le_zero _)
    | cons answer rest =>
      obtain ⟨loop', equation, reached'⟩ := clearRound_spec answer reached
      have later := ih reached' (le_of_succ_le_succ enough)
      cases loop with
      | out tree set => exact ⟨tree, set, by rw [clearLoop], reached⟩
      | again states vars | hitNext place vars =>
        rw [clearLoop, equation]
        · exact later
        · exact nofun

def clearedBits (bits : Bits) (delete : Bool) : Bits :=
  stateBits (if delete then bits ||| ~~~extentCtlbits else bits)

theorem stateBits_or_first (bits : Bits) :
    stateBits (bits ||| extentFirstDelalloc) = stateBits bits := by
  have none : extentFirstDelalloc &&& ~~~extentCtlbits = 0#32 := by decide
  refine eq_of_getLsbD_eq fun i _ => ?_
  have off : (extentFirstDelalloc.getLsbD i && (~~~extentCtlbits).getLsbD i) = false := by
    rw [← getLsbD_and, none, getLsbD_zero]
  rw [stateBits, stateBits, getLsbD_and, getLsbD_or, Bool.and_or_distrib_right, off,
    Bool.or_false, getLsbD_and]

/-- The call returns, whatever `need_resched` answers, and the map is the old one with the bits
cleared in the range. -/
theorem clearExtentBit_spec {tree : Tree} {start stop : BitVec 64}
    (stands : Stands tree.states tree.dirtyBytes bits) (ordered : start ≤ stop) (clear : Bits)
    (delete wait : Bool) (answers : List Bool) (enough : 2 * tree.states.length + 2 ≤ answers.length) :
    ∃ tree' set, clearExtentBit answers tree start stop clear delete wait = some (.ok (tree', set)) ∧
      Stands tree'.states tree'.dirtyBytes
        (paint (· &&& ~~~clearedBits clear delete) start.toNat (stop.toNat + 1) bits) := by
  obtain ⟨front, back, equation, divided⟩ := exists_at stands.sorted start
  have small : work start.toNat back < 2 * tree.states.length + 2 := by
    refine lt_of_le_of_lt (work_le _ _) ?_
    rw [equation, length_append]
    omega
  rw [equation] at stands
  obtain ⟨tree', set, run, stands'⟩ := @clearLoop_spec
    ⟨stop, (if delete then clear ||| ~~~extentCtlbits else clear) ||| extentFirstDelalloc, wait⟩ _ _
    (.again tree.states ⟨start, tree.dirtyBytes, false, 0⟩) answers
    ⟨front, back, equation, divided, ordered, small, bits, stands, rfl⟩ enough
  rw [stateBits_or_first] at stands'
  exact ⟨tree', set, run, stands'⟩

end KernelImx.Btrfs
