/-
**When `set_extent_bit` sets exactly the given bits of its range.**

The loop goes from state to state, and after `merge_state` it asks `rb_next(node)` for the next one.
By then `node` may have left the tree: it was merged into its successor, or, when the loop had gone on
from it without a new search, into the state after it.
-/

import KernelImx.Btrfs.Clearing

namespace KernelImx.Btrfs

open List BitVec Nat Bool

open Lib (ascending_append ascending_cons Ascending)

/-! ### The condition -/

/-- The next state touches, ends in the range, and has the same bits once they are set. -/
def Follows (call : SetCall) (bits : Bits) (hi : Nat) : List ExtentState → Prop
  | [] => False
  | next :: _ => kept bits = false ∧ next.lo = hi ∧ next.hi < call.stop.toNat ∧
      next.state ||| stateBits call.bits = bits

/-- The condition at a state; `early` when it begins before the cursor, `next` for the states behind
it. -/
def SafeAt (call : SetCall) (caching early : Bool) (state : ExtentState) (rest : List ExtentState)
    (next : Bool → Bool → Prop) : Prop :=
  if call.stop.toNat < state.stop.toNat then
    -- the state is split at the end of the range
    call.wait = true
  else
    (early = true → call.wait = true) ∧
    (state.hi ≤ call.stop.toNat →
      -- a state the search arrived at must not leave the tree before `rb_next`
      (call.wait = true → early = false → state.hi < call.stop.toNat →
        ¬ Swallows (state.state ||| stateBits call.bits) state.hi rest ∧
        ¬ Follows call (state.state ||| stateBits call.bits) state.hi rest) ∧
      next (caching && !kept (state.state ||| stateBits call.bits))
        (decide (Swallows (state.state ||| stateBits call.bits) state.hi rest)))

/-- **The condition on the states from the cursor on.** `early` says that the first one begins
before the cursor. -/
def Safe (call : SetCall) : Bool → Bool → Nat → List ExtentState → Prop
  | _, _, _, [] => call.wait = true
  | caching, early, cursor, state :: rest =>
    if early = false ∧ cursor < state.lo then
      -- the hole before the state is filled
      call.wait = true ∧
      if call.stop.toNat < state.lo then
        caching = true → ¬ Swallows (stateBits call.bits) (call.stop.toNat + 1) (state :: rest)
      else
        (caching = true → ¬ Swallows (stateBits call.bits) state.lo (state :: rest)) ∧
        SafeAt call (caching && !kept (stateBits call.bits))
          (decide (Swallows (stateBits call.bits) state.lo (state :: rest))) state rest
          fun caching early => Safe call caching early state.hi rest
    else
      SafeAt call caching early state rest fun caching early => Safe call caching early state.hi rest

def beginsBefore (cursor : Nat) : List ExtentState → Bool
  | [] => false
  | state :: _ => decide (state.lo < cursor)

/-! ### Runs of the loop -/

section Wins

variable {call : SetCall} {goal : Tree → Prop} {loop : Setting}

/-- Given enough rounds the loop ends well, whatever `need_resched` answers. -/
def Wins (call : SetCall) (goal : Tree → Prop) (loop : Setting) : Prop :=
  ∃ bound, ∀ answers : List Bool, bound ≤ answers.length →
    ∃ tree, setLoop call answers loop = some (.ok tree) ∧ goal tree

/-- A round was not the last one, or the loop has ended well. -/
def Goes (call : SetCall) (goal : Tree → Prop) (round : Except Fault Setting) : Prop :=
  ∃ loop, round = .ok loop ∧ Wins call goal loop

theorem not_goes {fault : Fault} : ¬ Goes call goal (.error fault) := by
  rintro ⟨_, equation, -⟩
  cases equation

theorem goes_ok : Goes call goal (.ok loop) ↔ Wins call goal loop := by
  constructor
  · rintro ⟨_, same, wins⟩
    cases same
    exact wins
  · exact fun wins => ⟨_, rfl, wins⟩

theorem wins_out {tree : Tree} : Wins call goal (.out tree) ↔ goal tree := by
  constructor
  · rintro ⟨bound, wins⟩
    obtain ⟨tree', equation, reached⟩ := wins (replicate bound true)
      (le_of_eq (length_replicate ..).symm)
    rw [setLoop] at equation
    cases equation
    exact reached
  · exact fun reached => ⟨0, fun answers _ => ⟨tree, by rw [setLoop], reached⟩⟩

theorem setLoop_cons (running : ∀ tree, loop ≠ .out tree) (answer : Bool) (rest : List Bool) :
    setLoop call (answer :: rest) loop = match setRound call answer loop with
      | .error fault => some (.error fault)
      | .ok loop => setLoop call rest loop := by
  cases loop with
  | out tree => exact absurd rfl (running tree)
  | again states vars | hitNext node place vars => exact setLoop.eq_def ..

/-- **The loop wins if it does after every round.** -/
theorem wins_step (running : ∀ tree, loop ≠ .out tree) : Wins call goal loop ↔
    ∀ answer, Goes call goal (setRound call answer loop) := by
  constructor
  · rintro ⟨bound, wins⟩ answer
    have after := fun (rest : List Bool) (enough : bound ≤ rest.length) =>
      wins (answer :: rest) (le_succ_of_le enough)
    simp only [setLoop_cons running] at after
    cases result : setRound call answer loop with
    | error fault =>
      obtain ⟨tree, equation, -⟩ := after (replicate bound true)
        (le_of_eq (length_replicate ..).symm)
      rw [result] at equation
      cases equation
    | ok loop' =>
      rw [result] at after
      exact ⟨loop', rfl, bound, after⟩
  intro each
  obtain ⟨yes, yesRound, yesBound, yesWins⟩ := each true
  obtain ⟨no, noRound, noBound, noWins⟩ := each false
  refine ⟨max yesBound noBound + 1, fun answers enough => ?_⟩
  cases answers with
  | nil => exact absurd enough (not_succ_le_zero _)
  | cons answer rest =>
    have more : max yesBound noBound ≤ rest.length := le_of_succ_le_succ enough
    rw [setLoop_cons running]
    cases answer with
    | true =>
      rw [yesRound]
      exact yesWins rest (le_trans (le_max_left ..) more)
    | false =>
      rw [noRound]
      exact noWins rest (le_trans (le_max_right ..) more)

end Wins

/-! ### Rounds on the map -/

section Rounds

variable {call : SetCall} {bits : Nat → Bits} {place : Place} {vars : SetVars}

/-- The bits of the call in the map from `first` up to `last`. -/
abbrev filled (call : SetCall) (first last : Nat) (bits : Nat → Bits) : Nat → Bits :=
  paint (· ||| stateBits call.bits) first last bits

theorem setMerged_spec (stands : Stands place.states vars.dirtyBytes bits) :
    MergedFrom { place with state := (setStateBits call.bits place.state vars.dirtyBytes).1 }
        (setMerged call place vars).1 ∧
      Sorted ({ place with
        state := (setStateBits call.bits place.state vars.dirtyBytes).1 } : Place).states ∧
      Stands (setMerged call place vars).1.place.states (setMerged call place vars).2.dirtyBytes
        (filled call place.state.lo place.state.hi bits) := by
  have set := stands.setBits call.bits
  have merged := mergeState_spec set.sorted
  exact ⟨merged, set.sorted, merged.sorted, merged.bits.trans set.bits_eq, set.dirty⟩

/-- The loop is over, or goes on behind a state with the bits set up to there. -/
def NextIs (call : SetCall) (bits : Nat → Bits) (cursor hi : Nat) (value : Bits)
    (rest : List ExtentState) (caching prealloc : Bool) (loop : Setting) : Prop :=
  (call.stop.toNat < hi ∧ ∃ tree, loop = .out tree ∧
    Stands tree.states tree.dirtyBytes (filled call cursor (call.stop.toNat + 1) bits)) ∨
  (hi ≤ call.stop.toNat ∧ ∃ front back vars, loop = .again (front ++ back) vars ∧
    Behind hi value rest front back ∧ vars.start.toNat = hi ∧ vars.caching = caching ∧
    vars.prealloc = prealloc ∧
    Stands (front ++ back) vars.dirtyBytes (filled call cursor hi bits))

/-- Where the loop goes on without `rb_next` behind a state that got the bits. -/
abbrev setNext (call : SetCall) (place : Place) (vars : SetVars) : Setting :=
  if place.state.stop = -1 then
    .out ⟨(setMerged call place vars).1.place.states, (setMerged call place vars).2.dirtyBytes⟩
  else setAgain call (setMerged call place vars).1.place.states
    { (setMerged call place vars).2 with start := place.state.stop + 1 }

theorem setAgain_spec {cursor : Nat} (stands : Stands place.states vars.dirtyBytes bits)
    (starts : place.state.lo = cursor) (ends : place.state.stop.toNat ≤ call.stop.toNat) :
    NextIs call bits cursor place.state.hi (place.state.state ||| stateBits call.bits) place.after
      (vars.caching && !kept (place.state.state ||| stateBits call.bits)) vars.prealloc
      (setNext call place vars) := by
  obtain ⟨merged, sorted, stands'⟩ := @setMerged_spec call bits place vars stands
  rw [starts] at stands'
  have past : call.stop.toNat < place.state.hi → place.state.hi = call.stop.toNat + 1 :=
    fun long => le_antisymm (succ_le_succ ends) long
  rw [setNext]
  split
  case isTrue last =>
    have long : call.stop.toNat < place.state.hi := hi_of_last last ▸ call.stop.isLt
    exact .inl ⟨long, _, rfl, past long ▸ stands'⟩
  case isFalse notLast =>
    have next := toNat_stop_succ notLast
    rw [setAgain]
    split
    case isTrue beyond =>
      have long : call.stop.toNat < place.state.hi := next ▸ lt_def.mp beyond
      exact .inl ⟨long, _, rfl, past long ▸ stands'⟩
    case isFalse goes =>
      obtain ⟨equation, behind⟩ := merged.behind sorted
      rw [equation] at stands' ⊢
      exact .inr ⟨next ▸ not_lt.mp goes, _, _, _, rfl, behind, next, rfl, rfl, stands'⟩

theorem not_last (short : place.state.hi < call.stop.toNat) : ¬ place.state.stop = -1 := by
  intro last
  rw [hi_of_last last] at short
  exact absurd call.stop.isLt (not_lt.mpr (le_of_lt short))

theorem setHit_whole (starts : place.state.start = vars.start) (ends : place.state.stop ≤ call.stop)
    (needResched : Bool) (node : Node) : setHit call needResched node place vars =
      if place.state.hi < call.stop.toNat ∧ vars.prealloc = true ∧ needResched = false then
        match rbNext node (setMerged call place vars).1 with
        | .error fault => .error fault
        | .ok none => .ok (setNext call place vars)
        | .ok (some next) =>
          if next.state.start = place.state.stop + 1 then
            .ok (.hitNext .back next
              { (setMerged call place vars).2 with start := place.state.stop + 1 })
          else .ok (setNext call place vars)
      else .ok (setNext call place vars) := by
  rw [setHit, if_pos ⟨starts, ends⟩]
  by_cases last : place.state.stop = -1
  · rw [if_pos last, if_neg fun goes => not_last goes.1 last, setNext, if_pos last]
  · simp only [setNext, if_neg last]
    refine if_congr ?_ rfl rfl
    rw [lt_def, toNat_stop_succ last, not_eq_true']
    exact Iff.rfl

section Whole

variable (starts : place.state.start = vars.start) (ends : place.state.stop ≤ call.stop)

include starts ends

/-- **A round at a state of the range that asks for a reschedule**: the loop goes on with a search. -/
theorem setHit_resched (node : Node) :
    setHit call true node place vars = .ok (setNext call place vars) := by
  rw [setHit_whole starts ends, if_neg fun goes => nomatch goes.2.2]

variable (stands : Stands place.states vars.dirtyBytes bits)

include stands

theorem setHit_back : setHit call false .back place vars =
    if place.state.hi < call.stop.toNat ∧ vars.prealloc = true ∧
        (setMerged call place vars).1.lostPrev.isSome then .error .gone
    else setHit call true .here place vars := by
  obtain ⟨merged, -, -⟩ := @setMerged_spec call bits place vars stands
  rw [setHit_whole starts ends, setHit_resched starts ends]
  by_cases goes : place.state.hi < call.stop.toNat ∧ vars.prealloc = true
  · have next := toNat_stop_succ (not_last goes.1)
    rw [if_pos ⟨goes.1, goes.2, rfl⟩, rbNext]
    have lo := merged.lo
    generalize (setMerged call place vars).1 = result at lo
    cases lost : result.lostPrev with
    | some gone =>
      rw [if_pos ⟨goes.1, goes.2, rfl⟩]
    | none =>
      rw [if_neg fun all => nomatch all.2.2]
      have differs : ¬ result.place.state.start = place.state.stop + 1 := by
        intro same
        have nonempty := nonempty_place stands.sorted
        have later := congrArg BitVec.toNat same
        rw [next] at later
        exact not_lt.mpr (later ▸ lo) nonempty
      exact if_neg differs
  · rw [if_neg fun all => goes ⟨all.1, all.2.1⟩, if_neg fun all => goes ⟨all.1, all.2.1⟩]

theorem setHit_here : setHit call false .here place vars =
    if place.state.hi < call.stop.toNat ∧ vars.prealloc = true then
      if (setMerged call place vars).1.lostOwn.isSome then .error .gone
      else match place.after with
        | [] => setHit call true .here place vars
        | next :: after =>
          if next.lo = place.state.hi then
            .ok (.hitNext .back ⟨(setMerged call place vars).1.place.state ::
                (setMerged call place vars).1.place.before, next, after⟩
              { (setMerged call place vars).2 with start := place.state.stop + 1 })
          else setHit call true .here place vars
    else setHit call true .here place vars := by
  obtain ⟨merged, -, -⟩ := @setMerged_spec call bits place vars stands
  rw [setHit_whole starts ends, setHit_resched starts ends]
  by_cases goes : place.state.hi < call.stop.toNat ∧ vars.prealloc = true
  · have next := toNat_stop_succ (not_last goes.1)
    rw [if_pos ⟨goes.1, goes.2, rfl⟩, if_pos goes, rbNext]
    have own := merged.own
    generalize (setMerged call place vars).1 = result at own
    cases lost : result.lostOwn with
    | some gone => rfl
    | none =>
      rw [lost] at own
      have after : result.place.after = place.after := own.1
      rw [if_neg nofun, after]
      cases place.after with
      | nil => rfl
      | cons following later =>
        have same : following.start = place.state.stop + 1 ↔ following.lo = place.state.hi := by
          rw [← toNat_inj, next]
          exact Iff.rfl
        exact if_congr same rfl rfl
  · rw [if_neg fun all => goes ⟨all.1, all.2.1⟩, if_neg goes]

end Whole

theorem setHit_otherwise (other : ¬ (place.state.start = vars.start ∧ place.state.stop ≤ call.stop))
    (needResched : Bool) (node : Node) :
    setHit call needResched node place vars = setHit call true .here place vars := by
  rw [setHit, setHit, if_neg other, if_neg other]

theorem setHit_node (node : Node) :
    setHit call true node place vars = setHit call true .here place vars := by
  by_cases whole : place.state.start = vars.start ∧ place.state.stop ≤ call.stop
  · rw [setHit_resched whole.1 whole.2, setHit_resched whole.1 whole.2]
  · exact setHit_otherwise whole true node

/-- **A state that begins before the cursor** is split, and the second half gets the bits. -/
theorem setHit_early (stands : Stands place.states vars.dirtyBytes bits)
    (early : place.state.lo < vars.start.toNat) (reaches : vars.start.toNat < place.state.hi)
    (prealloc : vars.prealloc = true) : setHit call true .here place vars = .ok
        (if place.state.stop ≤ call.stop then
          setNext call (place.cut vars.start) { vars with prealloc := false }
        else setAgain call (place.cut vars.start).states { vars with prealloc := false }) ∧
      Stands (place.cut vars.start).states vars.dirtyBytes bits := by
  have differs : ¬ (place.state.start = vars.start ∧ place.state.stop ≤ call.stop) :=
    fun both => early.ne (congrArg BitVec.toNat both.1)
  obtain ⟨equation, stands'⟩ := stands.split early reaches
  refine ⟨?_, stands'⟩
  rw [setHit, if_neg differs, if_pos (lt_def.mpr early), prealloc, equation]
  dsimp only
  rw [if_neg (by decide), states_next, apply_ite Except.ok, apply_ite Except.ok]
  rfl

/-- **A round at a state that begins at the cursor and ends behind the range.** -/
theorem setHit_end (stands : Stands place.states vars.dirtyBytes bits)
    (starts : place.state.start = vars.start) (prealloc : vars.prealloc = true)
    (ends : ¬ place.state.stop ≤ call.stop) (inside : vars.start.toNat ≤ call.stop.toNat) :
    ∃ tree, setHit call true .here place vars = .ok (.out tree) ∧
      Stands tree.states tree.dirtyBytes
        (filled call vars.start.toNat (call.stop.toNat + 1) bits) := by
  have lo : place.state.lo = vars.start.toNat := congrArg BitVec.toNat starts
  obtain ⟨equation, stands'⟩ := stands.splitEnd (lo ▸ inside) (BitVec.not_le.mp ends)
  obtain ⟨-, -, stands''⟩ := @setMerged_spec call bits _ vars stands'
  refine ⟨⟨_, _⟩, ?_, lo ▸ stands''⟩
  rw [setHit, if_neg fun both => ends both.2, if_neg (starts ▸ BitVec.lt_irrefl _),
    if_neg (starts ▸ BitVec.lt_irrefl _),
    if_pos ⟨starts ▸ le_def.mpr inside, BitVec.not_le.mp ends⟩, prealloc, equation]
  rfl

def holeEnd (call : SetCall) (state : ExtentState) : BitVec 64 :=
  if call.stop < state.start then call.stop else state.start - 1

/-- **A round at a state behind a hole**: a new state fills the hole, and may go into the one found. -/
theorem setHit_hole {front back : List ExtentState} {state : ExtentState}
    (stands : Stands (front ++ state :: back) vars.dirtyBytes bits)
    (before : ∀ other ∈ front, other.hi ≤ vars.start.toNat)
    (late : vars.start.toNat < state.lo) (prealloc : vars.prealloc = true)
    (inside : vars.start.toNat ≤ call.stop.toNat) :
    ∃ merged dirtyBytes, Sorted (⟨front.reverse, ⟨vars.start, holeEnd call state,
        stateBits call.bits⟩, state :: back⟩ : Place).states ∧
      MergedFrom ⟨front.reverse, ⟨vars.start, holeEnd call state, stateBits call.bits⟩,
        state :: back⟩ merged ∧
      Stands merged.place.states dirtyBytes
        (filled call vars.start.toNat ((holeEnd call state).toNat + 1) bits) ∧
      setHit call true .here ⟨front.reverse, state, back⟩ vars =
        if merged.lostOwn.isSome ∧ vars.caching = true then .error .gone
        else .ok (setAgain call merged.place.states ⟨holeEnd call state + 1, dirtyBytes, false,
          vars.caching && !(merged.lostOwn.isNone && kept (stateBits call.bits))⟩) := by
  have atEnd : vars.start.toNat ≤ (holeEnd call state).toNat ∧
      (holeEnd call state).toNat < state.lo := by
    rw [holeEnd]
    split
    case isTrue short => exact ⟨inside, lt_def.mp short⟩
    case isFalse =>
      have pred : (state.start - 1).toNat = state.start.toNat - 1 :=
        toNat_pred (lt_of_le_of_lt (zero_le _) late)
      unfold ExtentState.lo at *
      omega
  have behind := after_head stands.sorted
  have nonempty := stands.sorted.nonempty state (by simp)
  obtain ⟨merged, dirtyBytes, equation, sorted, source, stands'⟩ := @Stands.insert _ front (state :: back) _
    vars.start (holeEnd call state) call.bits stands atEnd.1 before
    (forall_mem_cons.mpr ⟨atEnd.2, fun other member => by
      have := (behind other member).1
      omega⟩)
  refine ⟨merged, dirtyBytes, sorted, source, stands', ?_⟩
  have differs : ¬ state.start = vars.start :=
    fun same => late.ne' (congrArg BitVec.toNat same)
  have notBefore : ¬ state.start < vars.start := fun early =>
    lt_asymm late (lt_def.mp early)
  rw [setHit, if_neg fun both => differs both.1, if_neg notBefore, if_pos (lt_def.mpr late),
    prealloc, states_reverse]
  rw [holeEnd] at equation
  have value := source.value
  dsimp only at value ⊢
  rw [equation, if_neg (by decide)]
  dsimp only
  cases own : merged.lostOwn with
  | some gone =>
    cases vars.caching <;> rfl
  | none =>
    have stays : ¬ ((none : Option ExtentState).isSome = true ∧ vars.caching = true) :=
      fun all => false_ne_true all.1
    rw [if_neg stays, cacheState, value]
    rfl

end Rounds

end KernelImx.Btrfs
