/-
**`kernel/timer.c`: the timer wheel fires on time.**

A pending timer is on a list of one of five vectors. Those of the first vector are run, one list for
each jiffy; a list of another vector is cascaded when its turn comes, and its timers are put in again.

* **`timers_on_time`**: every timer is run in the round of its deadline, in no other, and the timers
  of a list in the order in which they came.
-/

import KernelImx.Lib.Runs

namespace KernelImx.Timers

open List BitVec KernelImx.Lib Nat

/-! ### The wheel -/

structure Timer where
  name : Nat
  expires : BitVec 32
  /-- How many timers had been put on lists before it was put on this one. -/
  entered : Nat
  deriving DecidableEq

structure TvecBase where
  timerJiffies : BitVec 32
  /-- The lists of `tv1` (`vec 0`) and of the vector that `INDEX(N)` is for (`vec (N + 1)`). -/
  vec : Nat → Nat → List Timer
  /-- How many times a timer was put on a list. -/
  entries : Nat

/-- `TVN_BITS`, `small` being `CONFIG_BASE_SMALL`. -/
def tvnBits (small : Bool) : Nat := if small then 4 else 6

/-- `TVR_BITS`. -/
def tvrBits (small : Bool) : Nat := if small then 6 else 8

/-- The bits of a time below those of an index: none for `tv1`, `TVR_BITS + (N) * TVN_BITS` in
`INDEX(N)`. -/
def shift (small : Bool) : Nat → Nat
  | 0 => 0
  | n + 1 => tvrBits small + n * tvnBits small

def bits (small : Bool) : Nat → Nat
  | 0 => tvrBits small
  | _ + 1 => tvnBits small

/-- The list of a time in a vector, `INDEX` for `timer_jiffies`. -/
def indexOf (small : Bool) (level : Nat) (time : BitVec 32) : Nat :=
  time.toNat >>> shift small level &&& ((1 <<< bits small level) - 1)

/-- `list_add_tail`. -/
def listAddTail (base : TvecBase) (place : Nat × Nat) (timer : Timer) : TvecBase :=
  { base with
    vec := fun level index =>
      if (level, index) = place then base.vec level index ++ [{ timer with entered := base.entries }]
      else base.vec level index
    entries := base.entries + 1 }

/-- `list_replace_init`, for the list that stays empty. -/
def listReplaceInit (base : TvecBase) (place : Nat × Nat) : TvecBase :=
  { base with
    vec := fun level index => if (level, index) = place then [] else base.vec level index }

/-- The list that `internal_add_timer` chooses. A `long` has 32 bits, so no `idx` is too large. -/
def vecOf (small : Bool) (base : TvecBase) (expires : BitVec 32) : Nat × Nat :=
  let idx := expires - base.timerJiffies
  if idx.toNat < 1 <<< shift small 1 then (0, indexOf small 0 expires)
  else if idx.toNat < 1 <<< shift small 2 then (1, indexOf small 1 expires)
  else if idx.toNat < 1 <<< shift small 3 then (2, indexOf small 2 expires)
  else if idx.toNat < 1 <<< shift small 4 then (3, indexOf small 3 expires)
  else if idx.toInt < 0 then (0, indexOf small 0 base.timerJiffies)
  else (4, indexOf small 4 expires)

def internalAddTimer (small : Bool) (base : TvecBase) (timer : Timer) : TvecBase :=
  listAddTail base (vecOf small base timer.expires) timer

def cascade (small : Bool) (base : TvecBase) (level index : Nat) : TvecBase :=
  (base.vec level index).foldl (internalAddTimer small) (listReplaceInit base (level, index))

/-- The cascades from a vector on: the next vector has its turn when the index is 0. -/
def cascadeUp (small : Bool) (base : TvecBase) (level : Nat) : Nat → TvecBase
  | 0 => base
  | more + 1 =>
    let index := indexOf small level base.timerJiffies
    if index = 0 then cascadeUp small (cascade small base level index) (level + 1) more
    else cascade small base level index

/-- `__run_timers` before it runs the timers of a jiffy. -/
def cascades (small : Bool) (base : TvecBase) : TvecBase :=
  if indexOf small 0 base.timerJiffies = 0 then cascadeUp small base 1 4 else base

/-- One round of `__run_timers`, with the `work_list`. -/
def runTimers (small : Bool) (base : TvecBase) : TvecBase × List Timer :=
  let index := indexOf small 0 base.timerJiffies
  let base := cascades small base
  (listReplaceInit { base with timerJiffies := base.timerJiffies + 1 } (0, index), base.vec 0 index)

structure World where
  base : TvecBase
  /-- The work list of each round. -/
  ran : List (List Timer)

inductive Op
  | modTimer (name : Nat) (expires : BitVec 32)
  | detachTimer (name : Nat)
  | runTimers

/-- `detach_timer`, wherever the timer is. -/
def detachTimer (base : TvecBase) (name : Nat) : TvecBase :=
  { base with
    vec := fun level index => (base.vec level index).filter fun timer => timer.name != name }

/-- A pending timer is detached before it is put in, as in `__mod_timer`. -/
def step (small : Bool) (world : World) : Op → World
  | .modTimer name expires =>
    { world with base := internalAddTimer small (detachTimer world.base name) ⟨name, expires, 0⟩ }
  | .detachTimer name => { world with base := detachTimer world.base name }
  | .runTimers =>
    let (base, work) := runTimers small world.base
    ⟨base, world.ran ++ [work]⟩

def boot (jiffies : BitVec 32) : World := ⟨⟨jiffies, fun _ _ => [], 0⟩, []⟩

/-! ### Where a timer is -/

variable {deadline : Nat} {place : Nat × Nat}

section Places

variable {small : Bool} {base : TvecBase} {name level index now cascading : Nat} {timer : Timer}
  {expires : BitVec 32}

def named (base : TvecBase) (name level index : Nat) : List Timer :=
  (base.vec level index).filter fun timer => timer.name == name

/-- **The list of a deadline.** In `tv1` the deadline is less than a turn away; in another vector
the list is still to be cascaded, and not now if the vector is below the one that is cascaded next.
-/
structure Awaits (small : Bool) (now cascading deadline : Nat) (expires : BitVec 32)
    (place : Nat × Nat) : Prop where
  level : place.1 < 5
  index : place.2 = deadline / 2 ^ shift small place.1 % 2 ^ bits small place.1
  ahead : now ≤ deadline ∧ deadline < now + 2 ^ 31
  root : place.1 = 0 → deadline < now + 2 ^ tvrBits small
  exact : place.1 ≠ 0 → expires = BitVec.ofNat 32 deadline
  turn : place.1 ≠ 0 → now ≤ deadline / 2 ^ shift small place.1 * 2 ^ shift small place.1
  passed : place.1 ≠ 0 → place.1 < cascading →
    now ≠ deadline / 2 ^ shift small place.1 * 2 ^ shift small place.1

/-- After `now` jiffies, counted without a wrap, the timer is on one list only, once, and waits there for
its deadline. -/
def Pending (small : Bool) (base : TvecBase) (name now cascading deadline : Nat) : Prop :=
  base.timerJiffies = BitVec.ofNat 32 now ∧ ∃ place timer,
    (named base name = fun level index => if (level, index) = place then [timer] else []) ∧
    Awaits small now cascading deadline timer.expires place

/-- The timer is on no list. -/
def Absent (base : TvecBase) (name : Nat) : Prop := ∀ level index, named base name level index = []

theorem indexOf_ofNat (small : Bool) (inside : level < 5) (time : Nat) :
    indexOf small level (BitVec.ofNat 32 time)
      = time / 2 ^ shift small level % 2 ^ bits small level := by
  have fits : shift small level + bits small level ≤ 32 := by
    have all : ∀ level < 5, shift small level + bits small level ≤ 32 := by cases small <;> decide
    exact all level inside
  have split : 2 ^ 32 = 2 ^ shift small level * 2 ^ (32 - shift small level) := by
    rw [← pow_add]
    congr 1
    omega
  rw [indexOf, one_shiftLeft, and_two_pow_sub_one_eq_mod, shiftRight_eq_div_pow,
    toNat_ofNat, split, mod_mul_right_div_self]
  exact mod_mod_of_dvd _ (pow_dvd_pow 2 (by omega))

theorem vecOf_awaits (small : Bool) (jiffies : base.timerJiffies = BitVec.ofNat 32 now)
    (time : (expires = BitVec.ofNat 32 deadline ∧ now ≤ deadline ∧ deadline < now + 2 ^ 31) ∨
      ((expires - base.timerJiffies).toInt < 0 ∧ deadline = now)) :
    Awaits small now cascading deadline expires (vecOf small base expires) := by
  rw [vecOf]
  simp only [one_shiftLeft]
  rcases time with ⟨rfl, low, near⟩ | ⟨past, rfl⟩
  · have idx : (BitVec.ofNat 32 deadline - base.timerJiffies).toNat = deadline - now := by
      rw [jiffies, toNat_sub, toNat_ofNat, toNat_ofNat]
      omega
    have future : ¬ (BitVec.ofNat 32 deadline - base.timerJiffies).toInt < 0 := by
      rw [toInt_eq_toNat_cond, idx]
      split <;> omega
    -- a later vector is for what is at least one of its turns away
    have beyond : ∀ {level}, level < 5 → level ≠ 0 → ¬ deadline - now < 2 ^ shift small level →
        Awaits small now cascading deadline (BitVec.ofNat 32 deadline)
          (level, indexOf small level (BitVec.ofNat 32 deadline)) := by
      intro level inside other far
      have parts := div_add_mod' deadline (2 ^ shift small level)
      have later : now < deadline / 2 ^ shift small level * 2 ^ shift small level := by omega
      exact ⟨inside, indexOf_ofNat small inside deadline, ⟨low, near⟩, fun root => absurd root other,
        fun _ => rfl, fun _ => le_of_lt later, fun _ _ => later.ne⟩
    rw [idx, if_neg future]
    split_ifs with first second third fourth
    · have root : deadline < now + 2 ^ tvrBits small := by
        rw [shift, Nat.zero_mul, add_zero] at first
        omega
      exact ⟨zero_lt_succ _, indexOf_ofNat small (zero_lt_succ _) deadline, ⟨low, near⟩, fun _ => root,
        absurd rfl, absurd rfl, absurd rfl⟩
    · exact beyond (by decide) (by decide) first
    · exact beyond (by decide) (by decide) second
    · exact beyond (by decide) (by decide) third
    · exact beyond (by decide) (by decide) fourth
  · have idx : 2 ^ 31 ≤ (expires - base.timerJiffies).toNat := by
      rw [toInt_eq_toNat_cond] at past
      split at past <;> omega
    have far : ∀ level < 5, ¬ (expires - base.timerJiffies).toNat < 2 ^ shift small level := by
      have least : ∀ level < 5, 2 ^ shift small level ≤ 2 ^ 31 := by cases small <;> decide
      exact fun level inside => not_lt.mpr (le_trans (least level inside) idx)
    rw [if_neg (far 1 (by decide)), if_neg (far 2 (by decide)), if_neg (far 3 (by decide)),
      if_neg (far 4 (by decide)), if_pos past, jiffies]
    exact ⟨zero_lt_succ _, indexOf_ofNat small (zero_lt_succ _) _, by omega,
      fun _ => Nat.lt_add_of_pos_right (Nat.two_pow_pos _), absurd rfl, absurd rfl, absurd rfl⟩

/-! ### Cascades -/

theorem internalAddTimer_named (small : Bool) (base : TvecBase) (timer : Timer) (name level index : Nat) :
    named (internalAddTimer small base timer) name level index = named base name level index ++
      if (level, index) = vecOf small base timer.expires ∧ timer.name = name then
        [{ timer with entered := base.entries }] else [] := by
  rw [named, internalAddTimer, listAddTail]
  dsimp only
  by_cases here : (level, index) = vecOf small base timer.expires
  · by_cases own : timer.name = name
    · rw [if_pos here, if_pos ⟨here, own⟩, filter_append, filter_singleton, beq_iff_eq.mpr own]
      rfl
    · rw [if_pos here, if_neg fun both => own both.2, filter_append, filter_singleton,
        beq_false_of_ne own]
      rfl
  · rw [if_neg here, if_neg fun both => here both.1, append_nil]
    rfl

theorem foldl_jiffies (timers : List Timer) :
    (timers.foldl (internalAddTimer small) base).timerJiffies = base.timerJiffies := by
  induction timers generalizing base with
  | nil => rfl
  | cons timer _ ih => exact ih

theorem add_other (other : ¬ timer.name = name) :
    named (internalAddTimer small base timer) name = named base name := by
  funext level index
  rw [internalAddTimer_named, if_neg fun both => other both.2, append_nil]

theorem foldl_others {timers : List Timer} (others : ∀ timer ∈ timers, ¬ timer.name = name) :
    named (timers.foldl (internalAddTimer small) base) name = named base name := by
  induction timers generalizing base with
  | nil => rfl
  | cons timer rest ih =>
    obtain ⟨other, others⟩ := forall_mem_cons.mp others
    rw [foldl_cons, ih others, add_other other]

theorem listReplaceInit_named (base : TvecBase) (place : Nat × Nat) (name level index : Nat) :
    named (listReplaceInit base place) name level index
      = if (level, index) = place then [] else named base name level index := by
  rw [named, listReplaceInit]
  dsimp only
  split
  · rfl
  · rfl

theorem cascade_others (absent : named base name level index = []) :
    named (cascade small base level index) name = named base name := by
  rw [cascade, foldl_others fun timer member own =>
    filter_eq_nil_iff.mp absent timer member (beq_iff_eq.mpr own)]
  funext other place
  rw [listReplaceInit_named]
  split
  next same => rw [← absent, (Prod.mk.inj same).1, (Prod.mk.inj same).2]
  next => rfl

theorem cascade_moves (small : Bool)
    (alone : named base name = fun other place => if (other, place) = (level, index) then [timer] else []) :
    ∃ entered, named (cascade small base level index) name = fun other place =>
      if (other, place) = vecOf small base timer.expires then [{ timer with entered := entered }]
      else [] := by
  obtain ⟨front, back, list, before, own, after⟩ :=
    filter_eq_cons_iff.mp ((congrFun₂ alone level index).trans (if_pos rfl))
  have before : ∀ timer ∈ front, ¬ timer.name = name := fun timer member own =>
    before timer member (beq_iff_eq.mpr own)
  have after : ∀ timer ∈ back, ¬ timer.name = name := fun timer member own =>
    filter_eq_nil_iff.mp after timer member (beq_iff_eq.mpr own)
  refine ⟨(front.foldl (internalAddTimer small) (listReplaceInit base (level, index))).entries, ?_⟩
  funext other place
  have nowhere : named (listReplaceInit base (level, index)) name other place = [] := by
    rw [listReplaceInit_named, alone]
    split
    · rfl
    next elsewhere => exact if_neg elsewhere
  rw [cascade, list, foldl_append, foldl_cons, foldl_others after, internalAddTimer_named,
    foldl_others before, nowhere, nil_append, vecOf, foldl_jiffies]
  simp only [and_iff_left (beq_iff_eq.mp own)]
  rfl

/-- **One cascade**: no timer whose list has its turn is left in this vector. -/
theorem cascade_pending (positive : level ≠ 0) (pending : Pending small base name now level deadline) :
    Pending small (cascade small base level (indexOf small level base.timerJiffies)) name now (level + 1)
      deadline := by
  obtain ⟨jiffies, place, timer, alone, awaits⟩ := pending
  refine ⟨(foldl_jiffies _).trans jiffies, ?_⟩
  by_cases here : (level, indexOf small level base.timerJiffies) = place
  · subst here
    obtain ⟨entered, moved⟩ := cascade_moves small alone
    exact ⟨_, _, moved, vecOf_awaits small jiffies (.inl ⟨awaits.exact positive, awaits.ahead⟩)⟩
  have absent : named base name level (indexOf small level base.timerJiffies) = [] := by
    rw [alone]
    exact if_neg here
  refine ⟨place, timer, (cascade_others absent).trans alone,
    { awaits with passed := fun other low turn => ?_ }⟩
  rcases Nat.lt_succ_iff_lt_or_eq.mp low with below | rfl
  · exact awaits.passed other below turn
  refine here (Prod.ext rfl ?_)
  rw [jiffies, indexOf_ofNat small awaits.level, awaits.index]
  rw [turn, Nat.mul_div_cancel _ (Nat.two_pow_pos _)]

theorem cascade_absent (small : Bool) (absent : Absent base name) (level index : Nat) :
    Absent (cascade small base level index) name := by
  intro other place
  rw [cascade_others (absent level index)]
  exact absent other place

theorem cascadeUp_absent (small : Bool) (absent : Absent base name) (level more : Nat) :
    Absent (cascadeUp small base level more) name := by
  induction more generalizing base level with
  | zero => exact absent
  | succ more ih =>
    rw [cascadeUp]
    split
    · exact ih (cascade_absent small absent level _) (level + 1)
    · exact cascade_absent small absent level _

theorem cascades_absent (small : Bool) (absent : Absent base name) :
    Absent (cascades small base) name := by
  rw [cascades]
  split
  · exact cascadeUp_absent small absent 1 4
  · exact absent

theorem shift_succ (small : Bool) (level : Nat) :
    shift small (level + 1) = shift small level + bits small level := by
  cases level with
  | zero => rw [shift, shift, bits, Nat.zero_mul, add_comm]
  | succ level => rw [shift, shift, bits, Nat.succ_mul, add_assoc]

theorem not_turn (index : now / 2 ^ shift small level % 2 ^ bits small level ≠ 0) {higher : Nat}
    (above : level + 1 ≤ higher) : now % 2 ^ shift small higher ≠ 0 := by
  intro turn
  have grows : shift small (level + 1) ≤ shift small higher :=
    monotone_nat_of_le_succ (fun level => shift_succ small level ▸ le_add_right _ _) above
  have lower : now % 2 ^ shift small (level + 1) = 0 := mod_eq_zero_of_dvd
    (dvd_trans (pow_dvd_pow 2 grows) (dvd_of_mod_eq_zero turn))
  apply index
  rw [← mod_mul_right_div_self, ← pow_add, ← shift_succ, lower, Nat.zero_div]

theorem Pending.advance {cascading : Nat} (pending : Pending small base name now level deadline)
    (rests : ∀ higher, higher ≠ 0 → level ≤ higher → now % 2 ^ shift small higher ≠ 0) :
    Pending small base name now cascading deadline := by
  obtain ⟨jiffies, place, timer, alone, awaits⟩ := pending
  refine ⟨jiffies, place, timer, alone, { awaits with passed := fun other _ turn => ?_ }⟩
  by_cases low : place.1 < level
  · exact awaits.passed other low turn
  · refine rests place.1 other (not_lt.mp low) ?_
    rw [turn, mul_mod_left]

/-- After the cascades no list whose turn has come is left. -/
theorem cascadeUp_pending (more : Nat) (all : level + more = 5) (positive : level ≠ 0)
    (pending : Pending small base name now level deadline) :
    Pending small (cascadeUp small base level more) name now 5 deadline := by
  induction more generalizing base level with
  | zero => exact all ▸ pending
  | succ more ih =>
    have next := cascade_pending positive pending
    rw [cascadeUp]
    split
    case isTrue => exact ih (by omega) (succ_ne_zero _) next
    case isFalse rests =>
      rw [pending.1, indexOf_ofNat small (by omega)] at rests
      exact next.advance fun _ _ => not_turn rests

theorem cascades_pending (pending : Pending small base name now 0 deadline) :
    Pending small (cascades small base) name now 5 deadline := by
  rw [cascades]
  split
  case isTrue =>
    obtain ⟨jiffies, place, timer, alone, awaits⟩ := pending
    exact cascadeUp_pending 4 rfl (by decide) ⟨jiffies, place, timer, alone,
      { awaits with passed := fun other low => absurd (lt_one_iff.mp low) other }⟩
  case isFalse rests =>
    rw [pending.1, indexOf_ofNat small (by decide)] at rests
    exact pending.advance fun _ other _ => not_turn rests (pos_of_ne_zero other)

/-- The lists hold the timers in the order in which they were put there. -/
def Ordered (base : TvecBase) : Prop :=
  ∀ level index, (base.vec level index).Pairwise (fun one two => one.entered < two.entered) ∧
    ∀ timer ∈ base.vec level index, timer.entered < base.entries

theorem Ordered.add (ordered : Ordered base) (timer : Timer) :
    Ordered (internalAddTimer small base timer) := by
  intro level index
  obtain ⟨sorted, below⟩ := ordered level index
  rw [internalAddTimer, listAddTail]
  dsimp only
  split
  · refine ⟨pairwise_append.mpr ⟨sorted, pairwise_singleton _ _, fun one member two last => ?_⟩,
      fun other member => ?_⟩
    · rw [mem_singleton.mp last]
      exact below one member
    · rcases mem_append.mp member with old | new
      · exact lt_succ_of_lt (below other old)
      · rw [mem_singleton.mp new]
        exact lt_succ_self _
  · exact ⟨sorted, fun other member => lt_succ_of_lt (below other member)⟩

theorem Ordered.empty (ordered : Ordered base) (place : Nat × Nat) :
    Ordered (listReplaceInit base place) := by
  intro level index
  rw [listReplaceInit]
  dsimp only
  split
  · exact ⟨Pairwise.nil, nofun⟩
  · exact ordered level index

theorem Ordered.cascades (ordered : Ordered base) : Ordered (cascades small base) := by
  have one : ∀ {base : TvecBase} (level index : Nat), Ordered base →
      Ordered (cascade small base level index) :=
    fun {base} level index ordered => foldlRecOn (base.vec level index) _
      (ordered.empty (level, index)) fun _ ordered timer _ => ordered.add timer
  have up : ∀ more {base : TvecBase} (level : Nat), Ordered base →
      Ordered (cascadeUp small base level more) := by
    intro more
    induction more with
    | zero => exact fun _ ordered => ordered
    | succ more ih =>
      intro base level ordered
      rw [cascadeUp]
      split
      · exact ih (level + 1) (one level _ ordered)
      · exact one level _ ordered
  rw [Timers.cascades]
  split
  · exact up 4 1 ordered
  · exact ordered

/-- A round does not run a timer that is on no list, and puts it on none. -/
theorem runTimers_absent (small : Bool) (absent : Absent base name) :
    ((runTimers small base).2.countP fun timer => timer.name == name) = 0 ∧
      Absent (runTimers small base).1 name := by
  have gone := cascades_absent small absent
  refine ⟨?_, fun level index => ?_⟩
  · rw [countP_eq_length_filter]
    exact congrArg length (gone 0 (indexOf small 0 base.timerJiffies))
  · refine (listReplaceInit_named _ _ _ _ _).trans ?_
    split
    · rfl
    · exact gone level index

/-- **A round runs a timer exactly if its deadline is now.** It then is on no list any more. -/
theorem runTimers_pending (pending : Pending small base name now 0 deadline) :
    ((runTimers small base).2.countP fun timer => timer.name == name) = (if deadline = now then 1 else 0) ∧
      (deadline ≠ now → Pending small (runTimers small base).1 name (now + 1) 0 deadline) ∧
      (deadline = now → Absent (runTimers small base).1 name) := by
  obtain ⟨after, place, timer, alone, awaits⟩ := cascades_pending pending
  have here : (0, indexOf small 0 base.timerJiffies) = place ↔ deadline = now := by
    rw [pending.1, indexOf_ofNat small (zero_lt_succ _)]
    constructor
    · rintro rfl
      have index : now / 2 ^ shift small 0 % 2 ^ bits small 0
          = deadline / 2 ^ shift small 0 % 2 ^ bits small 0 := awaits.index
      rw [shift, pow_zero, Nat.div_one, Nat.div_one] at index
      have away := sub_mod_eq_zero_of_mod_eq index.symm
      rw [bits, mod_eq_of_lt (Nat.sub_lt_left_of_lt_add awaits.ahead.1 (awaits.root rfl))] at away
      exact le_antisymm (Nat.sub_eq_zero_iff_le.mp away) awaits.ahead.1
    · rintro rfl
      have root : place.1 = 0 := by
        by_contra other
        exact awaits.passed other awaits.level (le_antisymm (awaits.turn other) (div_mul_le_self _ _))
      refine Prod.ext root.symm ?_
      rw [awaits.index, root]
  have work := congrArg length (congrFun₂ alone 0 (indexOf small 0 base.timerJiffies))
  refine ⟨?_, fun other => ⟨?_, place, timer, ?_, ?_⟩, fun same level index => ?_⟩
  · rw [countP_eq_length_filter]
    refine work.trans ?_
    simp only [here]
    split <;> rfl
  · rw [ofNat_add, ← after]
    rfl
  · funext level index
    refine (listReplaceInit_named _ _ _ _ _).trans ?_
    split
    next root => rw [if_neg fun same => other (here.mp (root.symm.trans same))]
    next => exact congrFun₂ alone level index
  · obtain ⟨low, high⟩ := awaits.ahead
    exact { awaits with
      ahead := by omega
      root := fun root => lt_trans (awaits.root root) (by omega)
      turn := fun root => lt_of_le_of_ne (awaits.turn root) (awaits.passed root awaits.level)
      passed := fun _ => nofun }
  · -- the only list with the timer has become the work list
    refine (listReplaceInit_named _ _ _ _ _).trans ?_
    split
    next => rfl
    next elsewhere =>
      refine (congrFun₂ alone level index).trans (if_neg fun its => elsewhere ?_)
      exact its.trans (here.mpr same).symm

theorem detach_own (base : TvecBase) (name : Nat) : Absent (detachTimer base name) name := by
  intro level index
  rw [named, detachTimer, filter_filter]
  refine filter_eq_nil_iff.mpr fun timer _ => ?_
  rw [bne, Bool.and_not_self]
  exact Bool.false_ne_true

theorem detach_other {gone : Nat} (other : ¬ gone = name) :
    named (detachTimer base gone) name = named base name := by
  funext level index
  rw [named, detachTimer, filter_filter]
  refine filter_congr fun timer _ => ?_
  by_cases own : timer.name = name
  · rw [own, bne_iff_ne.mpr (Ne.symm other), Bool.and_true]
  · rw [beq_false_of_ne own, Bool.false_and]

theorem Ordered.detach (ordered : Ordered base) (name : Nat) : Ordered (detachTimer base name) := by
  intro level index
  obtain ⟨sorted, below⟩ := ordered level index
  exact ⟨sorted.filter _, fun timer member => below timer (mem_of_mem_filter member)⟩

def latest (jiffies expires : BitVec 32) : BitVec 32 :=
  if (expires - jiffies).toInt < 0 then jiffies else expires

def delay (jiffies expires : BitVec 32) : Nat := (latest jiffies expires - jiffies).toNat

theorem add_pending (small : Bool) (nowhere : Absent base name)
    (expires : BitVec 32) :
    Pending small (internalAddTimer small base ⟨name, expires, 0⟩) name base.timerJiffies.toNat 0
      (base.timerJiffies.toNat + delay base.timerJiffies expires) := by
  have jiffies : base.timerJiffies = BitVec.ofNat 32 base.timerJiffies.toNat := by
    rw [ofNat_toNat, setWidth_eq]
  refine ⟨jiffies, _, ⟨name, expires, base.entries⟩, ?_, vecOf_awaits small jiffies ?_⟩
  · funext level index
    rw [internalAddTimer_named, nowhere, nil_append]
    simp only [and_true]
  rw [delay, latest]
  split
  case isTrue past =>
    rw [BitVec.sub_self]
    exact .inr ⟨past, rfl⟩
  case isFalse future =>
    refine .inl ⟨?_, le_add_right _ _, ?_⟩
    · rw [ofNat_add, ← jiffies, ofNat_toNat, setWidth_eq, BitVec.add_comm,
        sub_add_cancel]
    · rw [toInt_eq_toNat_cond] at future
      split at future <;> omega

end Places

/-! ### Every sequence of calls -/

section Runs

variable {small : Bool} {name : Nat} {world : World}

/-- The lists of the wheel and the work lists are in the order in which the timers came. -/
structure InOrder (world : World) : Prop where
  ordered : Ordered world.base
  ran : ∀ work ∈ world.ran, work.Pairwise fun one two => one.entered < two.entered

def Op.isRound : Op → Bool
  | .runTimers => true
  | _ => false

/-- The call takes the timer off its list, or puts it on another. -/
def Op.moves (name : Nat) : Op → Prop
  | .modTimer other _ | .detachTimer other => other = name
  | .runTimers => False

theorem step_inOrder (op : Op) (inOrder : InOrder world) : InOrder (step small world op) := by
  obtain ⟨ordered, ran⟩ := inOrder
  cases op with
  | modTimer name expires => exact ⟨(ordered.detach name).add _, ran⟩
  | detachTimer name => exact ⟨ordered.detach name, ran⟩
  | runTimers =>
    have ordered := @Ordered.cascades small _ ordered
    refine ⟨ordered.empty _, fun work member => ?_⟩
    rcases mem_append.mp member with old | new
    · exact ran work old
    · rw [mem_singleton.mp new]
      exact (ordered _ _).1

theorem run_inOrder (ops : List Op) (inOrder : InOrder world) :
    InOrder (ops.foldl (step small) world) :=
  foldlRecOn ops _ inOrder fun _ inOrder op _ => step_inOrder op inOrder

/-- A call that does not move a timer leaves the lists with it as they are. -/
theorem step_named {op : Op} (stays : ¬ op.moves name) (call : op.isRound = false) :
    (step small world op).ran = world.ran ∧
      (step small world op).base.timerJiffies = world.base.timerJiffies ∧
      named (step small world op).base name = named world.base name := by
  cases op with
  | modTimer other expires =>
    exact ⟨rfl, rfl, (@add_other _ _ _ ⟨other, expires, 0⟩ stays).trans (detach_other stays)⟩
  | detachTimer other => exact ⟨rfl, rfl, detach_other stays⟩
  | runTimers => cases call

/-- **The rounds of a run** add their work lists; a timer that waits is on the one of its deadline
only. -/
theorem run_rounds (ops : List Op) (world : World) (stays : ∀ op ∈ ops, ¬ op.moves name) :
    ∃ new, (ops.foldl (step small) world).ran = world.ran ++ new ∧ new.length = ops.countP Op.isRound ∧
      (Absent world.base name → ∀ work ∈ new, (work.countP fun timer => timer.name == name) = 0) ∧
      ∀ now deadline, Pending small world.base name now 0 deadline →
        ∀ round work, new[round]? = some work →
          (work.countP fun timer => timer.name == name) = if now + round = deadline then 1 else 0 := by
  induction ops generalizing world with
  | nil =>
    exact ⟨[], (append_nil _).symm, rfl, fun _ _ => nofun, fun _ _ _ _ _ => nofun⟩
  | cons op rest ih =>
    obtain ⟨stay, stays⟩ := forall_mem_cons.mp stays
    obtain ⟨new, ran, length, never, fires⟩ := ih (step small world op) stays
    cases round : op.isRound with
    | false =>
      obtain ⟨same, jiffies, lists⟩ := @step_named small _ world _ stay round
      refine ⟨new, ran.trans (by rw [same]), ?_, fun absent => ?_, fun now deadline pending => ?_⟩
      · rw [countP_cons, round, length]
        rfl
      · exact never fun level index => by rw [lists, absent]
      · obtain ⟨start, place, timer, alone, awaits⟩ := pending
        exact fires now deadline ⟨jiffies.trans start, place, timer, lists.trans alone, awaits⟩
    | true =>
      obtain rfl : op = .runTimers := by cases op <;> first | rfl | cases round
      refine ⟨(runTimers small world.base).2 :: new, ran.trans ?_, ?_, fun absent => ?_,
        fun now deadline pending number work found => ?_⟩
      · rw [append_cons]
        rfl
      · rw [length_cons, countP_cons, length]
        rfl
      · obtain ⟨none, after⟩ := runTimers_absent small absent
        exact forall_mem_cons.mpr ⟨none, never after⟩
      obtain ⟨counted, waits, run⟩ := runTimers_pending pending
      cases number with
      | zero =>
        rw [← Option.some.inj found, counted]
        simp only [add_zero, eq_comm]
      | succ number =>
        have found : new[number]? = some work := found
        rw [← succ_add_eq_add_succ]
        by_cases due : deadline = now
        · rw [if_neg (by omega), never (run due) work (mem_of_getElem? found)]
        · exact fires (now + 1) deadline (waits due) number work found

end Runs

/-- **The timer wheel fires on time.** A timer that is left alone is run once, in the round of the
later of `expires` and the present jiffy. The timers of a round are run in the order in which they
were put on its list. -/
theorem timers_on_time (small : Bool) (jiffies : BitVec 32) (before after : List Op) (name : Nat)
    (expires : BitVec 32) (stays : ∀ op ∈ after, ¬ op.moves name) :
    let world := before.foldl (step small) (boot jiffies)
    let last := after.foldl (step small) (step small world (.modTimer name expires))
    (∃ new, last.ran = world.ran ++ new ∧ new.length = after.countP Op.isRound ∧
      ∀ round work, new[round]? = some work →
        (work.countP fun timer => timer.name == name)
          = if round = delay world.base.timerJiffies expires then 1 else 0) ∧
    ∀ work ∈ last.ran, work.Pairwise fun one two => one.entered < two.entered := by
  intro world last
  have booted : InOrder (boot jiffies) := ⟨fun _ _ => ⟨Pairwise.nil, nofun⟩, nofun⟩
  have added := @run_inOrder small _ (before ++ [.modTimer name expires]) booted
  rw [foldl_append] at added
  obtain ⟨new, ran, length, -, fires⟩ :=
    @run_rounds small name after (step small world (.modTimer name expires)) stays
  refine ⟨⟨new, ran, length, fun round work found => ?_⟩, (run_inOrder after added).ran⟩
  have counted := fires _ _ (add_pending small (detach_own world.base name) expires) round work found
  simp only [add_left_cancel_iff] at counted
  exact counted

/-- Six rounds from just before the wrap of the jiffies, while another timer is detached. -/
def wrappingRounds : List Op :=
  [.runTimers, .runTimers, .detachTimer 2, .runTimers, .runTimers, .runTimers, .runTimers]

theorem timers_on_time_wrapping : delay 0xfffffffe 1 = 3 ∧
    ∃ new, (wrappingRounds.foldl (step false)
        (step false (step false (boot 0xfffffffe) (.modTimer 2 0)) (.modTimer 1 1))).ran = new ∧
      new.length = 6 ∧ ∀ round work, new[round]? = some work →
        (work.countP fun timer => timer.name == 1) = if round = 3 then 1 else 0 := by
  obtain ⟨⟨new, ran, length, counted⟩, -⟩ := timers_on_time false 0xfffffffe [.modTimer 2 0]
    wrappingRounds 1 1 (by simp [wrappingRounds, Op.moves])
  exact ⟨rfl, new, ran, length, counted⟩

end KernelImx.Timers
