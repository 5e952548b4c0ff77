/-
**Setting and clearing the bits of a range.**

* **`extent_bits_iff`**: for every tree and range `set_extent_bit` and `clear_extent_bit` change
  exactly the given bits, exactly when the range is `Safe` and not all 2^64 offsets get dirty.
-/

import KernelImx.Btrfs.Setting

namespace KernelImx.Btrfs

open List BitVec Nat

open Lib (ascending_append ascending_cons Ascending)

variable {states : List ExtentState}

section Loop

variable {call : SetCall} {bits : Nat → Bits}

/-- The range from the cursor on has the bits. -/
def Filled (call : SetCall) (bits : Nat → Bits) (cursor : Nat) (tree : Tree) : Prop :=
  Stands tree.states tree.dirtyBytes (filled call cursor (call.stop.toNat + 1) bits)

theorem filled_trans {cursor middle : Nat} (one : cursor ≤ middle)
    (two : middle ≤ call.stop.toNat + 1) :
    Filled call (filled call cursor middle bits) middle = Filled call bits cursor := by
  funext tree
  rw [Filled, Filled, filled, filled, filled, paint_paint one two]

/-- What is claimed about the states of a range. -/
def Exact (call : SetCall) (back : List ExtentState) : Prop :=
  ∀ {front : List ExtentState} {vars : SetVars} {bits : Nat → Bits},
    At vars.start.toNat front back → vars.start.toNat ≤ call.stop.toNat →
    (vars.prealloc = true → call.wait = true) → Stands (front ++ back) vars.dirtyBytes bits →
    (Wins call (Filled call bits vars.start.toNat) (.again (front ++ back) vars) ↔
      Safe call vars.caching (beginsBefore vars.start.toNat back) vars.start.toNat back)

theorem safe_behind {caching : Bool} {hi : Nat} {value : Bits} {rest front back : List ExtentState}
    (parts : Behind hi value rest front back) (behind : ∀ state ∈ rest, hi ≤ state.lo) :
    Safe call caching (beginsBefore hi back) hi back ↔
      Safe call caching (decide (Swallows value hi rest)) hi rest := by
  by_cases swallows : Swallows value hi rest
  · obtain ⟨following, later, start, rfl, rfl, early⟩ := parts.swallowed swallows
    rw [decide_eq_true swallows, beginsBefore, decide_eq_true
      (show (⟨start, following.stop, following.state⟩ : ExtentState).lo < hi from early)]
    exact Iff.rfl
  · obtain rfl := parts.same swallows
    rw [decide_eq_false swallows]
    cases back with
    | nil => exact Iff.rfl
    | cons state later =>
      rw [beginsBefore, decide_eq_false (not_lt.mpr (behind state mem_cons_self))]

theorem wins_next {cursor hi : Nat} {value : Bits} {rest : List ExtentState} {caching prealloc : Bool}
    {loop : Setting} (next : NextIs call bits cursor hi value rest caching prealloc loop)
    (le : cursor ≤ hi) (behind : ∀ state ∈ rest, hi ≤ state.lo)
    (allocated : prealloc = true → call.wait = true)
    (exact_rest : ∀ back : List ExtentState, back.length ≤ rest.length → Exact call back) :
    Wins call (Filled call bits cursor) loop ↔
      (hi ≤ call.stop.toNat → Safe call caching (decide (Swallows value hi rest)) hi rest) := by
  rcases next with ⟨past, tree, rfl, stands⟩ |
    ⟨inside, front, back, vars, rfl, parts, rfl, rfl, rfl, stands⟩
  · rw [wins_out]
    exact iff_of_true stands fun inside => absurd past (not_lt.mpr inside)
  rw [imp_iff_right inside, ← filled_trans le (le_succ_of_le inside)]
  rw [exact_rest back parts.length.le parts.divided inside allocated stands, safe_behind parts behind]

variable {front rest : List ExtentState} {state : ExtentState} {vars : SetVars}

theorem again_running (tree : Tree) : Setting.again states vars ≠ .out tree := by
  intro equal
  cases equal

theorem prealloc_or (allocated : vars.prealloc = true → call.wait = true) :
    (vars.prealloc || call.wait) = call.wait := by
  cases had : vars.prealloc with
  | false => rfl
  | true => rw [allocated had]; rfl

section

variable (divided : At vars.start.toNat front (state :: rest))
  (allocated : vars.prealloc = true → call.wait = true)

include divided allocated

theorem setRound_again (answer : Bool) : setRound call answer (.again (front ++ state :: rest) vars)
      = setHit call answer .here ⟨front.reverse, state, rest⟩ { vars with prealloc := call.wait } := by
  rw [setRound, treeSearch_at divided, prealloc_or allocated]

theorem wins_otherwise {goal : Tree → Prop}
    (other : ¬ (state.start = vars.start ∧ state.stop ≤ call.stop)) :
    Wins call goal (.again (front ++ state :: rest) vars) ↔
      Goes call goal (setHit call true .here ⟨front.reverse, state, rest⟩
        { vars with prealloc := call.wait }) := by
  rw [wins_step again_running]
  constructor
  · intro each
    rw [← setRound_again divided allocated]
    exact each true
  · intro each answer
    rw [setRound_again divided allocated, setHit_otherwise other]
    exact each

end

/-- The loop goes on without a search: `node` is still the first state, which must not be merged. -/
theorem wins_back {goal : Tree → Prop} {place : Place} {older : ExtentState}
    (stands : Stands place.states vars.dirtyBytes bits) (head : ∃ before, place.before = older :: before)
    (touches : older.hi = place.state.lo) (starts : place.state.start = vars.start)
    (prealloc : vars.prealloc = true)
    (round : Goes call goal (setHit call true .here place vars)) :
    Wins call goal (.hitNext .back place vars) ↔
      ¬ (kept older.state = false ∧ place.state.hi < call.stop.toNat ∧
        place.state.state ||| stateBits call.bits = older.state) := by
  obtain ⟨before, head⟩ := head
  have running : ∀ tree, Setting.hitNext .back place vars ≠ .out tree := by
    intro tree equal
    cases equal
  rw [wins_step running]
  have rounds : ∀ answer, setRound call answer (.hitNext .back place vars)
      = setHit call answer .back place vars := fun _ => rfl
  simp only [rounds, Bool.forall_bool]
  rw [setHit_node, and_iff_left round]
  by_cases ends : place.state.stop ≤ call.stop
  · rw [setHit_back starts ends stands]
    obtain ⟨merged, -, -⟩ := @setMerged_spec call bits place vars stands
    have lost : (setMerged call place vars).1.lostPrev.isSome ↔
        kept older.state = false ∧ place.state.state ||| stateBits call.bits = older.state := by
      refine merged.lostPrev.trans ⟨?_, ?_⟩
      · rintro ⟨free, other, _, same, -, value⟩
        obtain rfl : older = other := (cons.inj (head.symm.trans same)).1
        exact ⟨value ▸ free, value.symm⟩
      · rintro ⟨free, value⟩
        exact ⟨(congrArg kept value).trans free, older, before, head, touches, value.symm⟩
    split
    case isTrue fails =>
      obtain ⟨short, -, gone⟩ := fails
      obtain ⟨free, value⟩ := lost.mp gone
      exact iff_of_false not_goes fun fine => fine ⟨free, short, value⟩
    case isFalse fine =>
      exact iff_of_true round fun fails =>
        fine ⟨fails.2.1, prealloc, lost.mpr ⟨fails.1, fails.2.2⟩⟩
  · rw [setHit_otherwise fun both => ends both.2]
    refine iff_of_true round fun fails => ends (le_def.mpr ?_)
    exact le_of_lt (lt_of_succ_lt fails.2.1)

theorem wins_here {goal : Tree → Prop} {place : Place}
    (stands : Stands place.states vars.dirtyBytes bits) (starts : place.state.start = vars.start)
    (ends : place.state.stop ≤ call.stop) (allocated : vars.prealloc = true → call.wait = true)
    (wins : Wins call goal (setNext call place vars)) :
    Goes call goal (setHit call false .here place vars) ↔
      (vars.prealloc = true → place.state.hi < call.stop.toNat →
        ¬ Swallows (place.state.state ||| stateBits call.bits) place.state.hi place.after ∧
        ¬ Follows call (place.state.state ||| stateBits call.bits) place.state.hi place.after) := by
  obtain ⟨merged, sorted, stands'⟩ := @setMerged_spec call bits place vars stands
  have resched : Goes call goal (setHit call true .here place vars) :=
    ⟨_, setHit_resched starts ends .here, wins⟩
  rw [setHit_here starts ends stands]
  let made := setMerged call place vars
  by_cases goes : place.state.hi < call.stop.toNat ∧ vars.prealloc = true
  · rw [if_pos goes, imp_iff_right goes.2, imp_iff_right goes.1]
    by_cases swallows : Swallows (place.state.state ||| stateBits call.bits) place.state.hi place.after
    · rw [if_pos (merged.lostOwn.mpr swallows)]
      exact iff_of_false not_goes fun fine => fine.1 swallows
    have stays : made.1.lostOwn = none :=
      Option.not_isSome_iff_eq_none.mp fun gone => swallows (merged.lostOwn.mp gone)
    rw [if_neg (by rw [stays]; exact nofun), and_iff_right swallows]
    have own := merged.own
    rw [stays] at own
    obtain ⟨listed, divided, -, -⟩ := merged.behind sorted
    rw [Merged.sides, stays] at listed divided
    rw [own.1] at listed divided
    cases after : place.after with
    | nil => exact iff_of_true resched id
    | cons next later =>
      dsimp only
      by_cases touches : next.lo = place.state.hi
      · rw [if_pos touches]
        have notLast := not_last goes.1
        have start := toNat_stop_succ notLast
        rw [after] at listed divided
        -- the round with a reschedule goes on with a search, which finds the next state
        have goesOn : ¬ place.state.stop + 1 > call.stop := by
          refine BitVec.not_lt.mpr (le_def.mpr ?_)
          rw [start]
          exact le_of_lt goes.1
        have explicit : setAgain call made.1.place.states
            { made.2 with start := place.state.stop + 1 } = .again
              ((made.1.place.state ::
                made.1.place.before).reverse ++ next :: later)
              { made.2 with start := place.state.stop + 1 } := by
          rw [← listed]
          exact if_neg goesOn
        rw [setNext, if_neg notLast, explicit] at wins
        have won := (wins_step again_running).mp wins true
        have found := @setRound_again call _ later next
          { made.2 with start := place.state.stop + 1 } (start ▸ divided)
          allocated true
        rw [found, reverse_reverse, (allocated goes.2).trans goes.2.symm] at won
        rw [listed] at stands'
        have following : Stands (⟨made.1.place.state ::
            made.1.place.before, next, later⟩ : Place).states
            made.2.dirtyBytes
            (filled call place.state.lo place.state.hi bits) := stands'
        have back := @wins_back call _ { made.2 with
          start := place.state.stop + 1 } goal _ made.1.place.state following
          ⟨_, rfl⟩ (by rw [touches, ExtentState.hi, own.2]; rfl)
          (eq_of_toNat_eq (touches.trans start.symm)) goes.2 won
        rw [merged.value] at back
        refine goes_ok.trans (back.trans (not_congr ?_))
        exact ⟨fun all => ⟨all.1, touches, all.2⟩, fun all => ⟨all.1, all.2.2⟩⟩
      · rw [if_neg touches]
        exact iff_of_true resched fun follows => touches follows.2.1
  · rw [if_neg goes]
    exact iff_of_true resched fun prealloc short => absurd ⟨short, prealloc⟩ goes

theorem wins_nil (divided : At vars.start.toNat front [])
    (inside : vars.start.toNat ≤ call.stop.toNat) (allocated : vars.prealloc = true → call.wait = true)
    (stands : Stands (front ++ []) vars.dirtyBytes bits) :
    Wins call (Filled call bits vars.start.toNat) (.again (front ++ []) vars) ↔ call.wait = true := by
  obtain ⟨merged, dirtyBytes, equation, -, -, stands'⟩ := @Stands.insert _ front [] _ vars.start call.stop
    call.bits stands inside divided.before (forall_mem_nil _)
  rw [wins_step again_running]
  simp only [setRound, treeSearch_at divided, prealloc_or allocated, equation]
  cases wait : call.wait with
  | false => exact iff_of_false (fun each => not_goes (each true)) nofun
  | true => exact iff_of_true (fun _ => ⟨_, rfl, wins_out.mpr stands'⟩) rfl

section Found

variable (divided : At vars.start.toNat front (state :: rest))
  (inside : vars.start.toNat ≤ call.stop.toNat) (allocated : vars.prealloc = true → call.wait = true)
  (stands : Stands (front ++ state :: rest) vars.dirtyBytes bits)

include divided inside allocated stands

omit divided allocated stands in
theorem setHit_null (differs : ¬ (state.start = vars.start ∧ state.stop ≤ call.stop)) :
    setHit call true .here ⟨front.reverse, state, rest⟩ { vars with prealloc := false } =
      .error .nullPointer := by
  rw [setHit, if_neg differs]
  by_cases early : state.start < vars.start
  · rw [if_pos early]
    rfl
  rw [if_neg early]
  by_cases late : state.start > vars.start
  · rw [if_pos late]
    rfl
  have starts : state.start = vars.start :=
    BitVec.le_antisymm (BitVec.not_lt.mp late) (BitVec.not_lt.mp early)
  rw [if_neg late, if_pos ⟨starts ▸ le_def.mpr inside,
    BitVec.not_le.mp fun ends => differs ⟨starts, ends⟩⟩]
  rfl

/-- **A state that begins at the cursor and ends behind the range.** -/
theorem wins_end (starts : state.start = vars.start) (ends : ¬ state.stop ≤ call.stop) :
    Wins call (Filled call bits vars.start.toNat) (.again (front ++ state :: rest) vars) ↔
      call.wait = true := by
  have differs : ¬ (state.start = vars.start ∧ state.stop ≤ call.stop) := fun both => ends both.2
  rw [wins_otherwise divided allocated differs]
  cases wait : call.wait with
  | false =>
    rw [setHit_null inside differs]
    exact iff_of_false not_goes Bool.false_ne_true
  | true =>
    obtain ⟨tree, equation, stands'⟩ := @setHit_end call bits ⟨front.reverse, state, rest⟩
      { vars with prealloc := true } (states_reverse .. ▸ stands) starts rfl ends inside
    rw [equation]
    exact iff_of_true ⟨_, rfl, wins_out.mpr stands'⟩ rfl

variable (exact_rest : ∀ back : List ExtentState, back.length ≤ rest.length → Exact call back)

include exact_rest

/-- **A state that begins before the cursor.** -/
theorem wins_early (early : state.lo < vars.start.toNat) :
    Wins call (Filled call bits vars.start.toNat) (.again (front ++ state :: rest) vars) ↔
      SafeAt call vars.caching true state rest
        fun caching early => Safe call caching early state.hi rest := by
  have differs : ¬ (state.start = vars.start ∧ state.stop ≤ call.stop) :=
    fun both => early.ne (congrArg BitVec.toNat both.1)
  have reaches := divided.after state mem_cons_self
  rw [wins_otherwise divided allocated differs, SafeAt]
  cases wait : call.wait with
  | false =>
    rw [setHit_null inside differs]
    refine iff_of_false not_goes fun safe => ?_
    split at safe
    · cases safe
    · cases safe.1 rfl
  | true =>
    obtain ⟨equation, cut⟩ := @setHit_early call bits ⟨front.reverse, state, rest⟩
      { vars with prealloc := true } (states_reverse .. ▸ stands) early reaches rfl
    rw [equation, goes_ok]
    by_cases ends : state.stop ≤ call.stop
    · have next := @setAgain_spec call bits _ { vars with prealloc := false } vars.start.toNat cut rfl
        (le_def.mp ends)
      rw [if_pos ends, if_neg (not_lt.mpr (le_def.mp ends))]
      have rest_iff := wins_next next (le_of_lt reaches)
        (fun other member => (after_head stands.sorted other member).1) (fun _ => wait) exact_rest
      exact ⟨fun wins => ⟨fun _ => rfl, fun short => ⟨fun _ => Bool.noConfusion, rest_iff.mp wins short⟩⟩,
        fun safe => rest_iff.mpr fun short => (safe.2 short).2⟩
    -- the next round finds the second half, which begins at the cursor
    rw [cut_states] at cut
    have second := @wins_end call bits _ rest { state with start := vars.start }
      { vars with prealloc := false } (divided.split early) inside (fun _ => wait) cut rfl ends
    rw [if_neg ends, setAgain, if_neg (BitVec.not_lt.mpr inside), cut_states,
      if_pos (lt_def.mp (BitVec.not_le.mp ends))]
    exact iff_of_true (second.mpr wait) rfl

omit inside in
/-- **A state that begins at the cursor and ends in the range.** -/
theorem wins_whole (starts : state.start = vars.start) (ends : state.stop ≤ call.stop) :
    Wins call (Filled call bits vars.start.toNat) (.again (front ++ state :: rest) vars) ↔
      SafeAt call vars.caching false state rest
        fun caching early => Safe call caching early state.hi rest := by
  have reaches := divided.after state mem_cons_self
  have stands' : Stands (⟨front.reverse, state, rest⟩ : Place).states
    ({ vars with prealloc := call.wait } : SetVars).dirtyBytes bits := states_reverse .. ▸ stands
  have next := setAgain_spec stands' (congrArg BitVec.toNat starts) (le_def.mp ends)
  have rest_iff := wins_next next (le_of_lt reaches)
    (fun other member => (after_head stands.sorted other member).1) id exact_rest
  have here := @wins_here call bits { vars with prealloc := call.wait }
    (Filled call bits vars.start.toNat) ⟨front.reverse, state, rest⟩ stands' starts ends id
  rw [SafeAt, if_neg (not_lt.mpr (le_def.mp ends)), wins_step again_running]
  simp only [setRound_again divided allocated, Bool.forall_bool]
  rw [@setHit_resched call ⟨front.reverse, state, rest⟩ { vars with prealloc := call.wait } starts ends,
    goes_ok]
  constructor
  · rintro ⟨goes, wins⟩
    exact ⟨nofun, fun inside => ⟨fun wait _ => (here wins).mp goes wait, rest_iff.mp wins inside⟩⟩
  · rintro ⟨-, safe⟩
    have wins := rest_iff.mpr fun inside => (safe inside).2
    refine ⟨(here wins).mpr fun wait short => ?_, wins⟩
    exact (safe (le_of_lt short)).1 wait trivial short

theorem wins_at (reached : state.lo ≤ vars.start.toNat) :
    Wins call (Filled call bits vars.start.toNat) (.again (front ++ state :: rest) vars) ↔
      Safe call vars.caching (beginsBefore vars.start.toNat (state :: rest)) vars.start.toNat
        (state :: rest) := by
  rw [Safe, if_neg fun both => not_lt.mpr reached both.2, beginsBefore]
  by_cases early : state.lo < vars.start.toNat
  · rw [decide_eq_true early]
    exact wins_early divided inside allocated stands exact_rest early
  rw [decide_eq_false early]
  have starts : state.start = vars.start := eq_of_toNat_eq (le_antisymm reached (not_lt.mp early))
  by_cases ends : state.stop ≤ call.stop
  · exact wins_whole divided allocated stands exact_rest starts ends
  · rw [wins_end divided inside allocated stands starts ends, SafeAt,
      if_pos (lt_def.mp (BitVec.not_le.mp ends))]

/-- **A state behind a hole.** -/
theorem wins_hole (late : vars.start.toNat < state.lo) :
    Wins call (Filled call bits vars.start.toNat) (.again (front ++ state :: rest) vars) ↔
      Safe call vars.caching false vars.start.toNat (state :: rest) := by
  have differs : ¬ (state.start = vars.start ∧ state.stop ≤ call.stop) :=
    fun both => late.ne' (congrArg BitVec.toNat both.1)
  rw [wins_otherwise divided allocated differs, Safe, if_pos ⟨rfl, late⟩]
  cases wait : call.wait with
  | false =>
    rw [setHit_null inside differs]
    exact iff_of_false not_goes fun safe => Bool.false_ne_true safe.1
  | true =>
    obtain ⟨merged, dirtyBytes, sorted, source, stands', equation⟩ := @setHit_hole call bits
      { vars with prealloc := true } front rest state stands divided.before late rfl inside
    have lost : merged.lostOwn.isSome ↔
        Swallows (stateBits call.bits) ((holeEnd call state).toNat + 1) (state :: rest) :=
      source.lostOwn
    rw [equation, and_iff_right rfl]
    by_cases fails : merged.lostOwn.isSome ∧ vars.caching = true
    · rw [if_pos fails]
      have swallows := lost.mp fails.1
      -- the new state touches the one found, wherever the hole ends
      refine iff_of_false not_goes fun safe => ?_
      split at safe
      case isTrue short =>
        rw [holeEnd, if_pos (lt_def.mpr short)] at swallows
        exact safe fails.2 swallows
      case isFalse long =>
        rw [← swallows.2.1] at swallows
        exact safe.1 fails.2 swallows
    rw [if_neg fails]
    by_cases short : call.stop.toNat < state.lo
    · have ended : holeEnd call state = call.stop := if_pos (lt_def.mpr short)
      have next : (call.stop + 1).toNat = call.stop.toNat + 1 :=
        toNat_succ (lt_of_le_of_lt short state.start.isLt)
      rw [if_pos short, ended, setAgain, if_pos (lt_def.mpr (next ▸ lt_succ_self _))]
      rw [ended] at lost stands'
      refine iff_of_true ⟨_, rfl, wins_out.mpr stands'⟩ fun caching swallows => ?_
      exact fails ⟨lost.mpr swallows, caching⟩
    have positive : 0 < state.start.toNat := lt_of_le_of_lt (zero_le _) late
    have ended : holeEnd call state = state.start - 1 :=
      if_neg fun less => short (lt_def.mp less)
    have hi : (holeEnd call state).toNat + 1 = state.lo := by
      rw [ended, toNat_pred positive]
      exact succ_pred_eq_of_pos positive
    have goes : ¬ state.start > call.stop := fun less => short (lt_def.mp less)
    have caching : (vars.caching && !(merged.lostOwn.isNone && kept (stateBits call.bits)))
        = (vars.caching && !kept (stateBits call.bits)) := by
      cases own : merged.lostOwn with
      | none => rfl
      | some gone =>
        rw [own] at lost
        rw [(lost.mp rfl).1]
        rfl
    obtain ⟨listed, parts⟩ := source.behind sorted
    generalize merged.sides.1.reverse = front' at listed parts
    generalize merged.sides.2 = back' at listed parts
    have hi' : (⟨vars.start, holeEnd call state, stateBits call.bits⟩ : ExtentState).hi
        = state.lo := hi
    rw [hi'] at parts
    rw [hi] at lost stands'
    rw [if_neg short, ended, sub_add_cancel, setAgain, if_neg goes, caching, listed,
      ← @filled_trans call bits vars.start.toNat state.lo (le_of_lt late)
        (le_succ_of_le (not_lt.mp short))]
    rw [listed] at stands'
    have fine : vars.caching = true →
        ¬ Swallows (stateBits call.bits) state.lo (state :: rest) :=
      fun caching swallows => fails ⟨lost.mpr swallows, caching⟩
    obtain ⟨first, rfl, reached⟩ : ∃ first, back' = first :: rest ∧ first.lo ≤ state.lo := by
      by_cases swallows : Swallows (stateBits call.bits) state.lo (state :: rest)
      · obtain ⟨_, _, start, same, rfl, early⟩ := parts.swallowed swallows
        cases same
        exact ⟨_, rfl, le_of_lt early⟩
      · exact ⟨state, parts.same swallows, le_rfl⟩
    have behind : ∀ other ∈ state :: rest, state.lo ≤ other.lo :=
      forall_mem_cons.mpr ⟨le_rfl, fun other member => le_trans
        (le_of_lt (stands.sorted.nonempty state (by simp))) (after_head stands.sorted other member).1⟩
    rw [goes_ok, and_iff_right fine]
    refine (@wins_at call _ front' rest first
      ⟨state.start, dirtyBytes, false, vars.caching && !kept (stateBits call.bits)⟩ parts.divided
      (not_lt.mp short) (fun _ => wait) stands' exact_rest reached).trans ?_
    refine (safe_behind parts behind).trans ?_
    rw [Safe, if_neg fun both => lt_irrefl _ both.2]

end Found

/-- **The loop of `set_extent_bit` ends with its range set exactly when the states are safe.** -/
theorem exact_all (call : SetCall) : ∀ back : List ExtentState, Exact call back
  | [] => fun divided inside allocated stands => by
    rw [wins_nil divided inside allocated stands, Safe]
  | state :: rest => fun divided inside allocated stands => by
    rename_i vars _
    -- the rounds that follow see at most the states behind this one
    have shorter : ∀ back : List ExtentState, back.length ≤ rest.length → Exact call back :=
      fun back le => exact_all call back
    by_cases late : vars.start.toNat < state.lo
    · rw [wins_hole divided inside allocated stands shorter late, beginsBefore,
        decide_eq_false (lt_asymm late)]
    · exact wins_at divided inside allocated stands shorter (not_lt.mp late)
termination_by back => back.length
decreasing_by exact lt_succ_of_le le

end Loop

/-! ### The calls -/

variable {change : Bits → Bits} {tree' : Tree}

section Calls

variable {tree : Tree} {start stop : BitVec 64} {bits : Bits} {wait : Bool}

/-- The tree is the map of another one with the bits of a range changed, and in order. -/
structure Changed (change : Bits → Bits) (start stop : BitVec 64) (tree tree' : Tree) : Prop where
  sorted : Sorted tree'.states
  bits : bitsAt tree'.states = paint change start.toNat (stop.toNat + 1) (bitsAt tree.states)
  dirty : tree'.dirtyBytes.toNat = dirtyCount (bitsAt tree'.states)

/-- `set_extent_bit` returns, whatever `need_resched` answers, and adds exactly the given bits. -/
def SetsExactly (tree : Tree) (start stop : BitVec 64) (bits : Bits) (caching wait : Bool) : Prop :=
  ∃ bound, ∀ answers : List Bool, bound ≤ answers.length →
    ∃ tree', setExtentBit answers tree start stop bits caching wait = some (.ok tree') ∧
      Changed (· ||| stateBits bits) start stop tree tree'

/-- `clear_extent_bit` returns, whatever `need_resched` answers, and removes exactly the given bits. -/
def ClearsExactly (tree : Tree) (start stop : BitVec 64) (bits : Bits) (delete wait : Bool) : Prop :=
  ∃ bound, ∀ answers : List Bool, bound ≤ answers.length →
    ∃ tree' set, clearExtentBit answers tree start stop bits delete wait = some (.ok (tree', set)) ∧
      Changed (· &&& ~~~clearedBits bits delete) start stop tree tree'

def reaching (start : BitVec 64) (states : List ExtentState) : List ExtentState :=
  states.filter fun state => decide (start.toNat < state.hi)

theorem reaching_eq {front back : List ExtentState} (divided : At start.toNat front back) :
    reaching start (front ++ back) = back := by
  rw [reaching, filter_append, filter_eq_nil_iff.mpr, filter_eq_self.mpr,
    nil_append]
  · exact fun state member => decide_eq_true (divided.after state member)
  · intro state member
    rw [decide_eq_true_eq]
    exact not_lt.mpr (divided.before state member)

theorem dirtyCount_lt_iff {map : Nat → Bits} : dirtyCount map < 2 ^ 64 ↔
    ∃ offset : BitVec 64, map offset.toNat &&& extentDirty = 0 := by
  have all := Finset.card_filter_eq_iff (s := Finset.range (2 ^ 64))
    (p := fun offset => map offset &&& extentDirty ≠ 0)
  have most := Finset.card_filter_le (Finset.range (2 ^ 64)) fun offset => map offset &&& extentDirty ≠ 0
  rw [Finset.card_range] at all most
  refine (lt_iff_le_and_ne.trans (and_iff_right most)).trans ((not_congr all).trans ?_)
  push Not
  constructor
  · rintro ⟨offset, inside, clean⟩
    refine ⟨BitVec.ofNat 64 offset, ?_⟩
    rwa [toNat_ofNat, mod_eq_of_lt (Finset.mem_range.mp inside)]
  · exact fun ⟨offset, clean⟩ => ⟨offset.toNat, Finset.mem_range.mpr offset.isLt, clean⟩

theorem changed_iff : Changed change start stop tree tree' ↔ Stands tree'.states tree'.dirtyBytes
      (paint change start.toNat (stop.toNat + 1) (bitsAt tree.states)) ∧
    dirtyCount (paint change start.toNat (stop.toNat + 1) (bitsAt tree.states)) < 2 ^ 64 := by
  constructor
  · rintro ⟨sorted, bits, dirty⟩
    rw [← bits, ← dirty]
    refine ⟨⟨sorted, rfl, ?_⟩, tree'.dirtyBytes.isLt⟩
    rw [← dirty, ofNat_toNat, setWidth_eq]
  · rintro ⟨stands, fits⟩
    refine ⟨stands.sorted, stands.bits_eq, ?_⟩
    rw [stands.dirty, stands.bits_eq, toNat_ofNat, mod_eq_of_lt fits]

variable (sorted : Sorted tree.states) (dirty : tree.dirtyBytes.toNat = dirtyCount (bitsAt tree.states))
  (ordered : start ≤ stop)

include sorted dirty

theorem stands_self : Stands tree.states tree.dirtyBytes (bitsAt tree.states) := by
  refine ⟨sorted, rfl, ?_⟩
  rw [← dirty, ofNat_toNat, setWidth_eq]

include ordered

theorem clearsExactly (delete : Bool) : ClearsExactly tree start stop bits delete wait := by
  refine ⟨2 * tree.states.length + 2, fun answers enough => ?_⟩
  obtain ⟨tree', set, run, stands'⟩ :=
    clearExtentBit_spec (stands_self sorted dirty) ordered bits delete wait answers enough
  refine ⟨tree', set, run, changed_iff.mpr ⟨stands', ?_⟩⟩
  have small : dirtyCount (bitsAt tree.states) < 2 ^ 64 := by
    rw [← dirty]
    exact tree.dirtyBytes.isLt
  refine lt_of_le_of_lt (Finset.card_le_card fun offset member => ?_) small
  obtain ⟨inside, set⟩ := Finset.mem_filter.mp member
  refine Finset.mem_filter.mpr ⟨inside, fun clean => set ?_⟩
  rw [dirty_iff] at clean ⊢
  unfold paint
  split
  · rw [getLsbD_and, clean, Bool.false_and]
  · exact clean

/-- **`set_extent_bit` and `clear_extent_bit` change exactly the given bits**, exactly when the
states of the range are safe and not every offset gets dirty. -/
theorem extent_bits_iff (delete caching : Bool) :
    (SetsExactly tree start stop bits caching wait ∧ ClearsExactly tree start stop bits delete wait) ↔
      Safe (setCall stop bits wait) caching (beginsBefore start.toNat (reaching start tree.states))
          start.toNat (reaching start tree.states) ∧
        ∃ offset : BitVec 64, paint (· ||| stateBits bits) start.toNat (stop.toNat + 1)
          (bitsAt tree.states) offset.toNat &&& extentDirty = 0 := by
  obtain ⟨front, back, listed, divided⟩ := exists_at sorted start
  have stands : Stands (front ++ back) tree.dirtyBytes (bitsAt tree.states) :=
    listed ▸ stands_self sorted dirty
  have exact_loop := @exact_all (setCall stop bits wait) back front
    ⟨start, tree.dirtyBytes, false, caching⟩ (bitsAt tree.states) divided ordered nofun stands
  have goal : filled (setCall stop bits wait) start.toNat (stop.toNat + 1) (bitsAt tree.states)
      = paint (· ||| stateBits bits) start.toNat (stop.toNat + 1) (bitsAt tree.states) := by
    rw [filled, setCall, stateBits_or_first]
  have wins : Wins (setCall stop bits wait) (Filled (setCall stop bits wait) (bitsAt tree.states)
      start.toNat) (.again tree.states ⟨start, tree.dirtyBytes, false, caching⟩) ↔
      ∃ bound, ∀ answers : List Bool, bound ≤ answers.length →
        ∃ tree', setExtentBit answers tree start stop bits caching wait = some (.ok tree') ∧
          Stands tree'.states tree'.dirtyBytes
            (paint (· ||| stateBits bits) start.toNat (stop.toNat + 1) (bitsAt tree.states)) := by
    rw [← goal]
    exact Iff.rfl
  rw [← listed, wins] at exact_loop
  rw [and_iff_left (clearsExactly sorted dirty ordered delete), listed, reaching_eq divided, ← listed,
    ← exact_loop, ← dirtyCount_lt_iff, SetsExactly]
  simp only [changed_iff]
  constructor
  · rintro ⟨bound, each⟩
    refine ⟨⟨bound, fun answers enough => ?_⟩, ?_⟩
    · obtain ⟨tree', run, stands', -⟩ := each answers enough
      exact ⟨tree', run, stands'⟩
    · obtain ⟨-, -, -, fits⟩ := each (replicate bound true) (le_of_eq (length_replicate ..).symm)
      exact fits
  · rintro ⟨⟨bound, each⟩, fits⟩
    refine ⟨bound, fun answers enough => ?_⟩
    obtain ⟨tree', run, stands'⟩ := each answers enough
    exact ⟨tree', run, stands', fits⟩

end Calls

theorem dirtyCount_clean (clean : ∀ state ∈ states, state.state &&& extentDirty = 0) :
    dirtyCount (bitsAt states) = 0 := by
  refine Finset.card_eq_zero.mpr (Finset.filter_eq_empty_iff.mpr fun offset _ dirty => dirty ?_)
  rw [bitsAt, Lib.valueAt]
  cases found : Lib.itemAt ExtentState.lo ExtentState.hi states offset with
  | none => rfl
  | some state => exact clean state (mem_of_find?_eq_some found)

/-- One state that the start of the range divides. -/
theorem extent_bits_iff_one_state :
    SetsExactly ⟨[⟨0, 9, 4⟩], 0⟩ 5 19 16 false true ∧
      ClearsExactly ⟨[⟨0, 9, 4⟩], 0⟩ 5 19 16 false true := by
  have sorted : Sorted [⟨0, 9, 4⟩] := sorted_single (by decide)
  have dirty : (0 : BitVec 64).toNat = dirtyCount (bitsAt [⟨0, 9, 4⟩]) :=
    (dirtyCount_clean (forall_mem_singleton.mpr (by decide))).symm
  refine (@extent_bits_iff ⟨[⟨0, 9, 4⟩], 0⟩ 5 19 16 true sorted dirty (by decide) false false).mpr
    ⟨?_, 0, by decide⟩
  exact ⟨fun _ => rfl, fun _ => ⟨nofun, rfl⟩⟩

/-- The first of two touching states gets the bit of the second and goes into it; `rb_next` follows
it. -/
theorem swallowed_node : ∃ tree : Tree, Sorted tree.states ∧
    tree.dirtyBytes.toNat = dirtyCount (bitsAt tree.states) ∧
    ∀ answers, setExtentBit (false :: answers) tree 0 29 16 false true = some (.error .gone) := by
  refine ⟨⟨[⟨0, 9, 4⟩, ⟨10, 19, 20⟩], 0⟩, ?_, (dirtyCount_clean (by decide)).symm, fun _ => rfl⟩
  refine ascending_cons.mpr ⟨by decide, sorted_single (by decide), ?_⟩
  exact forall_mem_singleton.mpr (by decide)

end KernelImx.Btrfs
