/-
**The timer of the wake locks.**

When no permanent suspend lock is active, the timer is pending until the latest expiry, or nothing is
active any more and `suspend_work` was queued. The handler of the timer does not set the timer again:
it relies on every lock having expired when it runs. Since times are compared modulo `2 ^ 32`, that
holds as long as it runs at most `2 ^ 31` jiffies after the timer was set.

Main result: `suspend_trigger_kept`.
-/

import KernelImx.Power.Scans

namespace KernelImx.Power

open List KernelImx.Lib Option BitVec Nat Bool

/-! ### Times -/

variable {x : BitVec 32}

theorem toNat_of_toInt_pos (pos : 0 < x.toInt) : (x.toNat : Int) = x.toInt ∧ x.toNat < 2 ^ 31 := by
  rw [toInt_eq_toNat_cond] at pos ⊢
  split at pos
  · rw [if_pos ‹_›]
    exact ⟨rfl, by omega⟩
  · omega

theorem toInt_sub_nonneg {y : BitVec 32} (pos : 0 < x.toInt) (le : x.toInt ≤ y.toInt) :
    0 ≤ (y - x).toInt := by
  obtain ⟨hx, x_small⟩ := toNat_of_toInt_pos pos
  obtain ⟨hy, y_small⟩ := toNat_of_toInt_pos (pos.trans_le le)
  have difference : (y - x).toNat = y.toNat - x.toNat := by
    rw [toNat_sub]
    omega
  rw [toInt_eq_toNat_cond, difference, if_pos (by omega)]
  omega

/-- **A timer that is not too late**: what was to expire first has expired. -/
theorem toInt_sub_nonpos {y z : BitVec 32} (pos : 0 < x.toInt) (le : x.toInt ≤ y.toInt)
    (in_time : z.toNat ≤ 2 ^ 31) (after : 0 ≤ (z - y).toInt) : (x - z).toInt ≤ 0 := by
  obtain ⟨hx, x_small⟩ := toNat_of_toInt_pos pos
  obtain ⟨hy, y_small⟩ := toNat_of_toInt_pos (pos.trans_le le)
  rw [toInt_eq_toNat_cond, toNat_sub] at after ⊢
  split at after
  · split <;> omega
  · omega

/-! ### The system, watched -/

/-- The system with the jiffy at which the timer was set, and whether `suspend_work` was queued
since. -/
structure Watched where
  state : WakeState
  /-- The jiffy of the last call that set or stopped the timer. -/
  armedAt : BitVec 32
  /-- Whether `suspend_work` was queued since the last suspend lock was taken. -/
  queuedSince : Bool

def setsTimer (s : WakeState) : WakeCall → Bool
  | .lock id | .lockTimeout id _ | .unlock id => (s.locks id).type = .suspend
  | _ => false

def takesLock (s : WakeState) : WakeCall → Bool
  | .lock id | .lockTimeout id _ => (s.locks id).type = .suspend
  | _ => false

def Watched.after (w : Watched) (call : WakeCall) (next : WakeState) : Watched :=
  { state := next
    armedAt := if setsTimer w.state call then w.state.jiffies else w.armedAt
    queuedSince := (!takesLock w.state call && w.queuedSince) ||
      decide (w.state.suspendWork < next.suspendWork) }

def watchedStep (w : Watched) (call : WakeCall) : Option Watched :=
  (wakeStep w.state call).map (w.after call)

def Watched.init (jiffies : BitVec 32) : Watched := ⟨wakelocksInit jiffies, jiffies, false⟩

/-- The calls that use `has_wake_lock_locked` as the scan, on locks that are not destroyed. -/
def Plain : WakeCall → Prop
  | .init .. | .lock _ | .lockTimeout .. | .unlock _ | .pass _ | .timer => True
  | .destroy _ | .suspend | .suspendLate | .suspendEnd => False

/-- **The timer is not too late**: its handler runs at most `2 ^ 31` jiffies after it was set. -/
def InTime (w : Watched) (call : WakeCall) : Prop :=
  call = .timer → (w.state.jiffies - w.armedAt).toNat ≤ 2 ^ 31

/-! ### The invariant -/

/-- The timer is right for the active suspend locks; `queued` says that `suspend_work` was queued. -/
structure TimerRight (s : WakeState) (armedAt : BitVec 32) (queued : Prop) : Prop where
  pending : ∀ expires, s.expireTimer = some expires → ∀ id ∈ s.activeWakeLocks .suspend,
    s.timed id = true ∧ 0 < ((s.locks id).expires - armedAt).toInt ∧
      ((s.locks id).expires - armedAt).toInt ≤ (expires - armedAt).toInt
  stopped : s.expireTimer = none → (∃ id ∈ s.activeWakeLocks .suspend, s.timed id = false) ∨
    s.activeWakeLocks .suspend = [] ∧ queued

structure Kept (w : Watched) : Prop where
  linked : Linked w.state
  timer : TimerRight w.state w.armedAt (w.queuedSince = true)

theorem permanent_eq_none_iff (s : WakeState) (type : WakeLockType) :
    s.permanent type = none ↔ ∀ id ∈ s.activeWakeLocks type, s.timed id = true := by
  unfold WakeState.permanent
  simp

variable {s : WakeState}

theorem active_scanned {type : WakeLockType} (temporary : s.permanent type = none) :
    (expireAll s ((s.front type).filter s.expired)).activeWakeLocks type =
      (s.activeWakeLocks type).filter fun id => !s.expired id := by
  have list : s.activeWakeLocks type = s.front type := by
    obtain ⟨-, ⟨-, list⟩ | ⟨id, _, some, -⟩⟩ := front_split s type
    · exact list
    · rw [temporary] at some
      cases some
  rw [(expireAll_spec _ s).2.1, ← list]
  refine filter_congr fun id member => ?_
  simp [mem_filter, member]

theorem timeout_pos {id : Nat} (timed : s.timed id = true) (running : s.expired id = false) :
    0 < s.timeout id := by
  unfold WakeState.expired at running
  rw [timed, Bool.true_and] at running
  exact Int.not_le.mp (of_decide_eq_false running)

variable {queued : Prop}

section Rearm

variable (linked : Linked s)

include linked

theorem rearm_timed (temporary : s.permanent .suspend = none) {next : WakeState} {result : Int}
    (scan : hasWakeLockLocked s .suspend = (next, result)) :
    TimerRight (setExpireTimer next result) s.jiffies
      (s.suspendWork < (setExpireTimer next result).suspendWork) := by
  obtain ⟨_, run, -, timed⟩ := hasWakeLockLocked_spec linked .suspend
  obtain ⟨rfl, rfl⟩ := Prod.mk.inj (scan.symm.trans run)
  obtain ⟨more, bound, attained⟩ := timed temporary
  have same := (expireAll_spec ((s.front .suspend).filter s.expired) s).2.2
  -- a lock that is left is timed, and has at most the result to run
  have runs : ∀ id ∈ (expireAll s ((s.front .suspend).filter s.expired)).activeWakeLocks .suspend,
      s.timed id = true ∧ (expireAll s ((s.front .suspend).filter s.expired)).locks id = s.locks id ∧
        0 < s.timeout id ∧ s.timeout id ≤ result := by
    intro id member
    rw [active_scanned temporary, mem_filter, not_eq_true'] at member
    have timed_id := (permanent_eq_none_iff s .suspend).mp temporary id member.1
    exact ⟨timed_id, (locks_scanned _ member.2).2, timeout_pos timed_id member.2,
      (bound id member.1).resolve_left (ne_true_of_eq_false member.2)⟩
  generalize expireAll s ((s.front .suspend).filter s.expired) = next at same runs
  rcases Int.lt_or_le 0 result with positive | zero
  · have armed : setExpireTimer next result =
        { next with expireTimer := some (next.jiffies + BitVec.ofInt 32 result) } := if_pos positive
    rw [armed]
    refine ⟨fun expires timer id member => ?_, fun stopped => nomatch stopped⟩
    obtain ⟨timed_id, lock, pos, le⟩ := runs id member
    have exact_result : (expires - s.jiffies).toInt = result := by
      cases timer
      rw [same.jiffies, add_comm, add_sub_cancel]
      rcases attained with eq | ⟨other, -, -, eq⟩
      · rw [eq] at positive
        exact absurd positive (lt_irrefl 0)
      · rw [← eq, WakeState.timeout, ofInt_toInt]
    refine ⟨?_, ?_, ?_⟩
    · show (next.locks id).autoExpire = true
      rw [lock]
      exact timed_id
    · rw [lock]
      exact pos
    · rw [lock, exact_result]
      exact le
  · obtain rfl : result = 0 := le_antisymm zero more
    refine ⟨fun expires timer => (nomatch timer), fun _ => .inr ⟨?_, ?_⟩⟩
    · refine eq_nil_iff_forall_not_mem.mpr fun id member => ?_
      obtain ⟨-, -, pos, le⟩ := runs id member
      exact absurd (pos.trans_le le) (Int.not_lt.mpr zero)
    · rw [← same.work]
      exact lt_succ_self _

/-- A scan and what follows it leave the timer right. -/
theorem rearm_spec {next : WakeState} {result : Int}
    (scan : hasWakeLockLocked s .suspend = (next, result)) :
    TimerRight (setExpireTimer next result) s.jiffies
      (s.suspendWork < (setExpireTimer next result).suspendWork) := by
  by_cases none : s.permanent .suspend = none
  · exact rearm_timed linked none scan
  -- with a permanent lock the timer is stopped
  obtain ⟨_, run, permanent, -⟩ := hasWakeLockLocked_spec linked .suspend
  obtain ⟨rfl, rfl⟩ := Prod.mk.inj (scan.symm.trans run)
  obtain rfl := permanent none
  obtain ⟨id, found⟩ := ne_none_iff_exists'.mp none
  have there : id ∈ s.activeWakeLocks .suspend := mem_of_find?_eq_some found
  have permanent_id : s.timed id = false := by simpa using find?_some found
  obtain ⟨apart, lock⟩ := locks_scanned (s.front .suspend) (running_of_permanent permanent_id)
  refine ⟨fun expires timer => (nomatch timer), fun _ => .inl ⟨id, ?_, ?_⟩⟩
  · exact ((expireAll_spec _ s).2.1 _).symm ▸ mem_filter.mpr ⟨there, decide_eq_true apart⟩
  · exact (congrArg WakeLock.autoExpire lock).trans permanent_id

end Rearm

/-! ### The calls -/

variable {armedAt : BitVec 32}

theorem TimerRight.frame {next : WakeState} {queued' : Prop} (right : TimerRight s armedAt queued)
    (timer : next.expireTimer = s.expireTimer)
    (list : next.activeWakeLocks .suspend = s.activeWakeLocks .suspend)
    (locks : ∀ id ∈ s.activeWakeLocks .suspend, next.locks id = s.locks id)
    (still : queued → queued') :
    TimerRight next armedAt queued' := by
  refine ⟨fun expires pending id member => ?_, fun stopped => ?_⟩
  · rw [list] at member
    rw [timer] at pending
    unfold WakeState.timed
    rw [locks id member]
    exact right.pending expires pending id member
  rw [timer] at stopped
  rw [list]
  refine (right.stopped stopped).imp (fun ⟨id, member, permanent⟩ => ⟨id, member, ?_⟩) (And.imp_right still)
  unfold WakeState.timed
  rw [locks id member]
  exact permanent

theorem Linked.not_mem_of_idle (linked : Linked s) {id : Nat} (idle : (s.locks id).type ≠ .suspend) :
    id ∉ s.activeWakeLocks .suspend :=
  fun member => idle ((linked.active_iff id .suspend).mp member).2.1

theorem filter_ne_of_not_mem {list : List Nat} {id : Nat} (absent : id ∉ list) :
    list.filter (· ≠ id) = list :=
  filter_eq_self.mpr fun _ member => decide_eq_true (ne_of_mem_of_not_mem member absent)

section Calls

variable {id : Nat}

theorem takeWakeLock_right (linked : Linked s) (ready : (s.locks id).initialized = true)
    (right : TimerRight s armedAt queued) (timeout : BitVec 32) (hasTimeout : Bool) :
    TimerRight (takeWakeLock s id timeout hasTimeout)
      (if (s.locks id).type = .suspend then s.jiffies else armedAt)
      ((s.locks id).type ≠ .suspend ∧ queued ∨
        s.suspendWork < (takeWakeLock s id timeout hasTimeout).suspendWork) := by
  have linked' := linked.activate ready timeout hasTimeout
  unfold takeWakeLock
  by_cases suspend : (s.locks id).type = .suspend
  · simp only [suspend, if_true]
    cases hasTimeout with
    | true =>
      have spec := rearm_spec (linked'.congr rfl rfl : Linked { activate s id timeout true with
        currentEventNum := (activate s id timeout true).currentEventNum + 1 }) rfl
      exact spec.frame rfl rfl (fun _ _ => rfl) .inr
    | false =>
      refine ⟨fun expires timer => (nomatch timer), fun _ => .inl ⟨id, ?_, ?_⟩⟩
      · show id ∈ (activate s id timeout false).activeWakeLocks .suspend
        rw [active_activate, if_pos suspend.symm]
        exact mem_cons_self
      · show ((activate s id timeout false).locks id).autoExpire = false
        rw [locks_activate_self]
  · have absent := linked.not_mem_of_idle suspend
    simp only [suspend, if_false]
    refine right.frame (by cases hasTimeout <;> rfl) ?_ (fun other member => ?_)
      fun queued => .inl ⟨suspend, queued⟩
    · rw [active_activate, if_neg (Ne.symm suspend), filter_ne_of_not_mem absent]
    · exact locks_activate_ne s timeout hasTimeout (ne_of_mem_of_not_mem member absent)

theorem wakeUnlock_right (linked : Linked s) (right : TimerRight s armedAt queued) :
    TimerRight (wakeUnlock s id) (if (s.locks id).type = .suspend then s.jiffies else armedAt)
      (queued ∨ s.suspendWork < (wakeUnlock s id).suspendWork) := by
  unfold wakeUnlock
  by_cases suspend : (s.locks id).type = .suspend
  · simp only [suspend, if_true]
    have spec := @rearm_spec (expireWakeLock s id) (linked.expireWakeLock id) _ _ rfl
    exact spec.frame rfl rfl (fun _ _ => rfl) .inr
  · have absent := linked.not_mem_of_idle suspend
    simp only [suspend, if_false]
    refine right.frame rfl ?_ (fun other member => ?_) .inl
    · exact filter_ne_of_not_mem absent
    · exact locks_expireWakeLock_ne s (ne_of_mem_of_not_mem member absent)

theorem expired_of_in_time {expires : BitVec 32} (right : TimerRight s armedAt queued)
    (pending : s.expireTimer = some expires) (after : timeAfterEq s.jiffies expires = true)
    (in_time : (s.jiffies - armedAt).toNat ≤ 2 ^ 31) (member : id ∈ s.activeWakeLocks .suspend) :
    s.expired id = true := by
  obtain ⟨timed, pos, le⟩ := right.pending expires pending id member
  have after' : 0 ≤ ((s.jiffies - armedAt) - (expires - armedAt)).toInt := by
    rw [sub_sub_sub_cancel_right]
    exact of_decide_eq_true after
  have nonpos := toInt_sub_nonpos pos le in_time after'
  rw [sub_sub_sub_cancel_right] at nonpos
  unfold WakeState.expired WakeState.timeout
  rw [timed, decide_eq_true nonpos]
  rfl

/-- **The handler of the timer** when everything has expired: `suspend_work` is queued. -/
theorem expireWakeLocks_spec (linked : Linked s) (stopped : s.expireTimer = none)
    (expired : ∀ id ∈ s.activeWakeLocks .suspend, s.expired id = true) (armedAt : BitVec 32) :
    TimerRight (expireWakeLocks s) armedAt (s.suspendWork < (expireWakeLocks s).suspendWork) := by
  have no_permanent : s.permanent .suspend = none :=
    (permanent_eq_none_iff s .suspend).mpr fun id member => (and_eq_true_iff.mp (expired id member)).1
  obtain ⟨result, run, -, timed⟩ := hasWakeLockLocked_spec linked .suspend
  have right := rearm_spec linked run
  obtain ⟨-, -, zero | ⟨id, member, running, -⟩⟩ := timed no_permanent
  · have done : expireWakeLocks s =
        queueWork (expireAll s ((s.front .suspend).filter s.expired)) := by
      unfold expireWakeLocks
      rw [run, zero]
      rfl
    rw [zero] at right
    rw [done]
    -- as after a scan that stops the timer, which is not pending here
    refine ⟨fun expires timer => ?_, fun _ => right.stopped rfl⟩
    have pending := (expireAll_spec _ s).2.2.timer.symm.trans timer
    rw [stopped] at pending
    cases pending
  · rw [expired id member] at running
    cases running

end Calls

/-! ### Runs -/

theorem watchedStep_kept {w next : Watched} {call : WakeCall} (kept : Kept w) (plain : Plain call)
    (in_time : InTime w call) (taken : watchedStep w call = some next) : Kept next := by
  obtain ⟨s, step, rfl⟩ := map_eq_some_iff.mp taken
  refine ⟨wakeStep_linked kept.linked step, ?_⟩
  cases call with
  | init id type name =>
    obtain ⟨fresh, ⟨⟩⟩ := ite_none_left_eq_some.mp step
    refine kept.timer.frame rfl rfl (fun other member => ?_) fun queued => ?_
    · refine if_neg fun eq => fresh ?_
      exact eq ▸ ((kept.linked.active_iff other .suspend).mp member).1
    · show (true && w.queuedSince || _) = true
      rw [queued]
      rfl
  | lock id | lockTimeout id timeout =>
    obtain ⟨ready, ⟨⟩⟩ := ite_none_right_eq_some.mp step
    have right := takeWakeLock_right kept.linked ready kept.timer
    simpa [Watched.after, setsTimer, takesLock] using right _ _
  | unlock id =>
    obtain ⟨-, ⟨⟩⟩ := ite_none_right_eq_some.mp step
    have right := @wakeUnlock_right _ _ _ id kept.linked kept.timer
    simpa [Watched.after, setsTimer, takesLock] using right
  | pass jiffies =>
    cases step
    refine kept.timer.frame rfl rfl (fun _ _ => rfl) fun queued => ?_
    show (true && w.queuedSince || _) = true
    rw [queued]
    rfl
  | timer =>
    rw [wakeStep] at step
    split at step
    case h_1 => cases step
    case h_2 expires pending =>
      obtain ⟨after, ⟨⟩⟩ := ite_none_right_eq_some.mp step
      have stopped : Linked { w.state with expireTimer := none } := kept.linked.congr rfl rfl
      have expired : ∀ id ∈ w.state.activeWakeLocks .suspend, w.state.expired id = true :=
        fun id member => expired_of_in_time kept.timer pending after (in_time rfl) member
      have right := expireWakeLocks_spec stopped rfl expired w.armedAt
      exact right.frame rfl rfl (fun _ _ => rfl) fun queued => by
        show (true && w.queuedSince || decide (w.state.suspendWork < _)) = true
        rw [decide_eq_true queued, Bool.or_true]
  | destroy id | suspend | suspendLate | suspendEnd => exact plain.elim

theorem watched_init_kept (jiffies : BitVec 32) : Kept (Watched.init jiffies) := by
  refine ⟨wakelocksInit_linked jiffies, fun expires timer => (nomatch timer), fun _ => .inl ?_⟩
  exact ⟨0, mem_cons_self, rfl⟩

/-- **The suspend trigger**: the timer is pending, not before the expiry of an active lock, or every
lock has expired and `suspend_work` was queued since a lock was last taken. -/
def Triggered (w : Watched) : Prop :=
  (∀ id ∈ w.state.activeWakeLocks .suspend, w.state.timed id = true) →
    (∃ expires, w.state.expireTimer = some expires ∧
      ∀ id ∈ w.state.activeWakeLocks .suspend, timeAfterEq expires (w.state.locks id).expires = true) ∨
    (∀ id ∈ w.state.activeWakeLocks .suspend, w.state.expired id = true) ∧ w.queuedSince = true

theorem Kept.triggered {w : Watched} (kept : Kept w) : Triggered w := by
  intro timed
  cases timer : w.state.expireTimer with
  | some expires =>
    refine .inl ⟨expires, rfl, fun id member => ?_⟩
    obtain ⟨-, pos, le⟩ := kept.timer.pending expires timer id member
    have order := toInt_sub_nonneg pos le
    rw [sub_sub_sub_cancel_right] at order
    exact decide_eq_true order
  | none =>
    rcases kept.timer.stopped timer with ⟨id, member, permanent⟩ | ⟨empty, queued⟩
    · rw [timed id member] at permanent
      cases permanent
    · refine .inr ⟨fun id member => ?_, queued⟩
      rw [empty] at member
      cases member

/-- **The suspend trigger is never lost** in a run in which the timer fires at most `2 ^ 31` jiffies
late and the active locks are those on the list of their type. -/
theorem suspend_trigger_kept {jiffies : BitVec 32} {calls : List WakeCall} {w : Watched}
    (along : Along watchedStep (fun w call => Plain call ∧ InTime w call) (Watched.init jiffies) calls)
    (run : exec watchedStep (Watched.init jiffies) calls = some w) :
    (∀ id, (w.state.locks id).initialized = true → ((w.state.locks id).active = true ↔
      id ∈ w.state.activeWakeLocks (w.state.locks id).type)) ∧ Triggered w := by
  have kept : Kept w := exec_invariant_along Kept
    (fun _ _ _ kept good taken => watchedStep_kept kept good.1 good.2 taken)
    (watched_init_kept jiffies) along run
  refine ⟨fun id ready => ?_, kept.triggered⟩
  rw [kept.linked.active_iff]
  exact ⟨fun active => ⟨ready, rfl, active⟩, fun linked => linked.2.2⟩

instance : DecidablePred Plain
  | .init .. | .lock _ | .lockTimeout .. | .unlock _ | .pass _ | .timer => isTrue trivial
  | .destroy _ | .suspend | .suspendLate | .suspendEnd => isFalse id

instance (w : Watched) (call : WakeCall) : Decidable (InTime w call) :=
  inferInstanceAs (Decidable (_ → _))

/-- Two timed locks, one of them taken again; the timer fires at the last expiry. -/
def twoTimedLocks : List WakeCall :=
  [.init 2 .suspend "a", .init 3 .suspend "b", .lockTimeout 2 100, .lockTimeout 3 50, .unlock 0,
    .pass 10, .lockTimeout 3 200, .pass 200, .timer]

theorem suspend_trigger_kept_two_locks : ∃ w, exec watchedStep (Watched.init 0) twoTimedLocks = some w ∧
    Triggered w := by
  have along : Along watchedStep (fun w call => Plain call ∧ InTime w call) (Watched.init 0)
      twoTimedLocks := by decide +kernel
  have defined : (exec watchedStep (Watched.init 0) twoTimedLocks).isSome = true := by decide +kernel
  obtain ⟨w, run⟩ := isSome_iff_exists.mp defined
  exact ⟨w, run, (suspend_trigger_kept along run).2⟩

/-- A lock for as long as possible and one for a jiffy; the timer fires three jiffies late. -/
def lateTimer : List WakeCall :=
  [.init 2 .suspend "long", .init 3 .suspend "short", .lockTimeout 2 0x7fffffff, .lockTimeout 3 1,
    .unlock 0, .pass 0x80000002, .timer]

/-- **The trigger is lost**: the short lock expired more than `2 ^ 31` jiffies before the timer
fires and looks as if it had not, so nothing is queued. -/
theorem suspend_trigger_lost : ∃ w, exec watchedStep (Watched.init 0) lateTimer = some w ∧
    w.state.activeWakeLocks .suspend = [3] ∧ w.state.timed 3 = true ∧ w.state.expireTimer = none ∧
    w.queuedSince = false ∧ ¬ Triggered w := by
  have reached : (exec watchedStep (Watched.init 0) lateTimer).map (fun w =>
      (w.state.activeWakeLocks .suspend, w.state.timed 3, w.state.expireTimer, w.queuedSince)) =
      some ([3], true, none, false) := by decide +kernel
  obtain ⟨w, run, values⟩ := map_eq_some_iff.mp reached
  simp only [Prod.mk.injEq] at values
  obtain ⟨list, timed, timer, queued⟩ := values
  refine ⟨w, run, list, timed, timer, queued, fun triggered => ?_⟩
  have all : ∀ id ∈ w.state.activeWakeLocks .suspend, w.state.timed id = true := by
    intro id member
    rw [list, mem_singleton] at member
    rw [member]
    exact timed
  rcases triggered all with ⟨expires, pending, -⟩ | ⟨-, yes⟩
  · rw [timer] at pending
    cases pending
  · rw [queued] at yes
    cases yes

end KernelImx.Power
