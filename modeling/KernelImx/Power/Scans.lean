/-
**The two scans of the active wake locks.**

Both scans walk the list up to its first permanent lock. `has_wake_lock_locked` deactivates the timed
locks that have expired; `has_wake_lock_locked_test`, which `has_wake_lock` calls, deactivates every
timed lock on its way, and a permanent lock named `PowerManagerService` too.

* **`has_wake_lock_blocks`**: in every state of every run the two scans agree exactly when the list
  is `Agreeable`, and then `has_wake_lock` returns 0 only when no lock is held.
-/

import Mathlib.Data.List.TakeWhile
import KernelImx.Lib.Runs
import KernelImx.Power.WakeLock

namespace KernelImx.Power

open List KernelImx.Lib
open Option hiding filter_filter

/-! ### Lists and flags -/

/-- **An initialised lock is on the list that its flags say.** -/
structure Linked (s : WakeState) : Prop where
  nodup : ∀ type, (s.activeWakeLocks type).Nodup
  active_iff : ∀ id type, id ∈ s.activeWakeLocks type ↔
    (s.locks id).initialized = true ∧ (s.locks id).type = type ∧ (s.locks id).active = true

variable (s : WakeState)

def expireAll (ids : List Nat) : WakeState := ids.foldl expireWakeLock s

theorem expireAll_cons (id : Nat) (rest : List Nat) :
    expireAll s (id :: rest) = expireAll (expireWakeLock s id) rest := rfl

@[simp] theorem locks_setLock (id other : Nat) (lock : WakeLock) :
    (s.setLock id lock).locks other = if other = id then lock else s.locks other := rfl

theorem locks_expireWakeLock (id other : Nat) :
    (expireWakeLock s id).locks other =
      if other = id then { s.locks id with active := false, autoExpire := false } else s.locks other := rfl

theorem active_expireWakeLock (id : Nat) (type : WakeLockType) :
    (expireWakeLock s id).activeWakeLocks type = (s.activeWakeLocks type).filter (· ≠ id) := rfl

variable {other id : Nat}

theorem locks_expireWakeLock_ne (differ : other ≠ id) :
    (expireWakeLock s id).locks other = s.locks other := if_neg differ

/-- Nothing but locks and lists changes. -/
structure SameTimer (s next : WakeState) : Prop where
  jiffies : next.jiffies = s.jiffies
  timer : next.expireTimer = s.expireTimer
  work : next.suspendWork = s.suspendWork

theorem expireAll_spec (ids : List Nat) : ∀ s : WakeState,
    (∀ id, (expireAll s ids).locks id =
      if id ∈ ids then { s.locks id with active := false, autoExpire := false } else s.locks id) ∧
    (∀ type, (expireAll s ids).activeWakeLocks type =
      (s.activeWakeLocks type).filter (· ∉ ids)) ∧ SameTimer s (expireAll s ids) := by
  induction ids with
  | nil =>
    intro s
    exact ⟨fun id => rfl, fun type => (filter_eq_self.mpr fun _ _ => by simp).symm, rfl, rfl, rfl⟩
  | cons first rest ih =>
    intro s
    obtain ⟨locks, lists, same⟩ := ih (expireWakeLock s first)
    rw [expireAll_cons]
    refine ⟨fun id => ?_, fun type => ?_, same.jiffies, same.timer, same.work⟩
    · rw [locks, locks_expireWakeLock]
      by_cases eq : id = first <;> simp [eq]
    · rw [lists, active_expireWakeLock, filter_filter]
      refine filter_congr fun id _ => ?_
      simp only [mem_cons, not_or, Bool.decide_and]
      exact Bool.and_comm _ _

variable {s : WakeState}

theorem Linked.expireWakeLock (linked : Linked s) (id : Nat) :
    Linked (Power.expireWakeLock s id) := by
  refine ⟨fun type => (linked.nodup type).filter _, fun other type => ?_⟩
  rw [active_expireWakeLock, mem_filter, linked.active_iff, locks_expireWakeLock]
  by_cases eq : other = id <;> simp [eq]

theorem Linked.expireAll {ids : List Nat} : ∀ {s : WakeState}, Linked s → Linked (expireAll s ids) := by
  induction ids with
  | nil => exact fun linked => linked
  | cons id _ ih => exact fun linked => ih (linked.expireWakeLock id)

/-! ### What the scans do -/

def WakeState.timed (s : WakeState) (id : Nat) : Bool := (s.locks id).autoExpire

def WakeState.expired (s : WakeState) (id : Nat) : Bool := s.timed id && decide (s.timeout id ≤ 0)

/-- Timed locks at the front of the list: the expired ones are deactivated, and the longest timeout
is kept. -/
theorem lockedLoop_front (s₀ : WakeState) (tail front : List Nat) {s : WakeState} {longest : Int}
    (nodup : front.Nodup) (timed : ∀ id ∈ front, s₀.timed id = true)
    (same_time : s.jiffies = s₀.jiffies) (same : ∀ id ∈ front, s.locks id = s₀.locks id) :
    ∃ result, hasWakeLockLockedLoop (front ++ tail) longest s =
        hasWakeLockLockedLoop tail result (expireAll s (front.filter s₀.expired)) ∧
      longest ≤ result ∧ (∀ id ∈ front, s₀.expired id = true ∨ s₀.timeout id ≤ result) ∧
      (result = longest ∨ ∃ id ∈ front, s₀.expired id = false ∧ s₀.timeout id = result) := by
  induction front generalizing s longest with
  | nil =>
    exact ⟨longest, rfl, le_rfl, fun id member => absurd member not_mem_nil, .inl rfl⟩
  | cons id rest ih =>
    obtain ⟨apart, nodup'⟩ := nodup_cons.mp nodup
    have timed' := fun other member => timed other (mem_cons_of_mem id member)
    have same' := fun other member => same other (mem_cons_of_mem id member)
    have here : (s.locks id).autoExpire = true := by
      rw [same id mem_cons_self]
      exact timed id mem_cons_self
    have timeout_eq : s.timeout id = s₀.timeout id := by
      unfold WakeState.timeout
      rw [same id mem_cons_self, same_time]
    rw [cons_append, hasWakeLockLockedLoop, if_pos here, timeout_eq]
    by_cases late : s₀.timeout id ≤ 0
    · have expired : s₀.expired id = true := by
        unfold WakeState.expired
        rw [timed id mem_cons_self, decide_eq_true late]
        rfl
      have same_rest : ∀ other ∈ rest, (expireWakeLock s id).locks other = s₀.locks other := by
        intro other member
        rw [locks_expireWakeLock_ne s (ne_of_mem_of_not_mem member apart)]
        exact same' other member
      obtain ⟨result, run, more, bound, attained⟩ :=
        @ih (expireWakeLock s id) longest nodup' timed' same_time same_rest
      rw [if_pos late, run, filter_cons_of_pos expired, expireAll_cons]
      refine ⟨result, rfl, more, ?_, attained.imp_right ?_⟩
      · exact forall_mem_cons.mpr ⟨.inl expired, bound⟩
      · exact fun ⟨other, member, found⟩ => ⟨other, mem_cons_of_mem id member, found⟩
    have running : s₀.expired id = false := by
      unfold WakeState.expired
      rw [decide_eq_false late, Bool.and_false]
    obtain ⟨result, run, more, bound, attained⟩ :=
      @ih s (max longest (s₀.timeout id)) nodup' timed' same_time same'
    rw [if_neg late, filter_cons_of_neg (ne_true_of_eq_false running)]
    refine ⟨result, Eq.trans ?_ run, (le_max_left ..).trans more, ?_, ?_⟩
    · split
      case isTrue longer => rw [max_eq_right longer.le]
      case isFalse shorter => rw [max_eq_left (Int.not_lt.mp shorter)]
    · exact forall_mem_cons.mpr ⟨.inr ((le_max_right ..).trans more), bound⟩
    rcases attained with eq | ⟨other, member, found⟩
    · rcases max_choice longest (s₀.timeout id) with old | new
      · exact .inl (eq.trans old)
      · exact .inr ⟨id, mem_cons_self, running, (eq.trans new).symm⟩
    · exact .inr ⟨other, mem_cons_of_mem id member, found⟩

theorem testLoop_front (s₀ : WakeState) (tail front : List Nat) : ∀ {s : WakeState},
    front.Nodup → (∀ id ∈ front, s₀.timed id = true) → (∀ id ∈ front, s.locks id = s₀.locks id) →
      hasWakeLockLockedTestLoop (front ++ tail) 0 s =
        hasWakeLockLockedTestLoop tail 0 (expireAll s front) := by
  induction front with
  | nil => exact fun _ _ _ => rfl
  | cons id rest ih =>
    intro s nodup timed same
    obtain ⟨apart, nodup'⟩ := nodup_cons.mp nodup
    have here : (s.locks id).autoExpire = true := by
      rw [same id mem_cons_self]
      exact timed id mem_cons_self
    have rest_eq := @ih (expireWakeLock s id) nodup'
      (fun other member => timed other (mem_cons_of_mem id member)) fun other member => by
        rw [locks_expireWakeLock_ne s (ne_of_mem_of_not_mem member apart)]
        exact same other (mem_cons_of_mem id member)
    rw [cons_append, hasWakeLockLockedTestLoop, if_pos here, expireAll_cons, ← rest_eq]
    split
    · rfl
    · rw [if_pos (Int.not_le.mp ‹_›)]

theorem locks_scanned (list : List Nat) (running : s.expired id = false) :
    id ∉ list.filter s.expired ∧ (expireAll s (list.filter s.expired)).locks id = s.locks id := by
  have apart : id ∉ list.filter s.expired := by simp [running]
  exact ⟨apart, by rw [(expireAll_spec _ s).1, if_neg apart]⟩

theorem running_of_permanent (permanent : s.timed id = false) : s.expired id = false := by
  rw [WakeState.expired, permanent, Bool.false_and]

def WakeState.front (s : WakeState) (type : WakeLockType) : List Nat :=
  (s.activeWakeLocks type).takeWhile s.timed

def WakeState.permanent (s : WakeState) (type : WakeLockType) : Option Nat :=
  (s.activeWakeLocks type).find? fun id => !s.timed id

theorem front_split (s : WakeState) (type : WakeLockType) :
    (∀ id ∈ s.front type, s.timed id = true) ∧
      (s.permanent type = none ∧ s.activeWakeLocks type = s.front type ∨
        ∃ id rest, s.permanent type = some id ∧ s.timed id = false ∧
          s.activeWakeLocks type = s.front type ++ id :: rest) := by
  refine ⟨fun id member => mem_takeWhile_imp member, ?_⟩
  unfold WakeState.permanent WakeState.front
  generalize s.activeWakeLocks type = list
  induction list with
  | nil => exact .inl ⟨rfl, rfl⟩
  | cons id rest ih =>
    by_cases timed : s.timed id = true
    · rw [takeWhile_cons_of_pos timed, find?_cons_of_neg (by simp [timed])]
      rcases ih with ⟨none, eq⟩ | ⟨first, back, found, permanent, eq⟩
      · exact .inl ⟨none, congrArg _ eq⟩
      · exact .inr ⟨first, back, found, permanent, congrArg _ eq⟩
    · rw [takeWhile_cons_of_neg timed, find?_cons_of_pos (by simpa using timed)]
      exact .inr ⟨id, rest, rfl, by simpa using timed, rfl⟩

theorem hasWakeLockLocked_spec (linked : Linked s) (type : WakeLockType) :
    ∃ result, hasWakeLockLocked s type =
        (expireAll s ((s.front type).filter s.expired), result) ∧
      (s.permanent type ≠ none → result = -1) ∧
      (s.permanent type = none → 0 ≤ result ∧
        (∀ id ∈ s.activeWakeLocks type, s.expired id = true ∨ s.timeout id ≤ result) ∧
        (result = 0 ∨ ∃ id ∈ s.activeWakeLocks type, s.expired id = false ∧ s.timeout id = result)) := by
  obtain ⟨timed, split⟩ := front_split s type
  have nodup : (s.front type).Nodup := (linked.nodup type).sublist (takeWhile_sublist _)
  unfold hasWakeLockLocked
  rcases split with ⟨none, eq⟩ | ⟨id, rest, some, permanent, eq⟩
  · obtain ⟨result, run, more, bound, attained⟩ :=
      @lockedLoop_front s [] (s.front type) s 0 nodup timed rfl fun _ _ => rfl
    rw [append_nil, ← eq] at run
    rw [← eq] at bound attained
    refine ⟨result, ?_, fun there => absurd none there, fun _ => ⟨more, bound, attained⟩⟩
    rw [run, eq]
    rfl
  · obtain ⟨result, run, -, -, -⟩ :=
      @lockedLoop_front s (id :: rest) (s.front type) s 0 nodup timed rfl fun _ _ => rfl
    refine ⟨-1, ?_, fun _ => rfl, fun none => ?_⟩
    · rw [eq, run, hasWakeLockLockedLoop, (locks_scanned _ (running_of_permanent permanent)).2]
      exact if_neg (ne_true_of_eq_false permanent)
    · rw [some] at none
      cases none

theorem hasWakeLock_spec (linked : Linked s) (type : WakeLockType) :
    (s.permanent type = none ∧ hasWakeLock s type = (expireAll s (s.front type), 0)) ∨
      ∃ id, s.permanent type = some id ∧ hasWakeLock s type =
        if (s.locks id).name = "PowerManagerService" then (wakeUnlock (expireAll s (s.front type)) id, 0)
        else (expireAll s (s.front type), -1) := by
  obtain ⟨timed, split⟩ := front_split s type
  have nodup : (s.front type).Nodup := (linked.nodup type).sublist (takeWhile_sublist _)
  unfold hasWakeLock hasWakeLockLockedTest
  rcases split with ⟨none, eq⟩ | ⟨id, rest, some, permanent, eq⟩
  · have run := @testLoop_front s [] (s.front type) s nodup timed fun _ _ => rfl
    rw [append_nil, ← eq] at run
    refine .inl ⟨none, ?_⟩
    rw [run, eq]
    rfl
  refine .inr ⟨id, some, ?_⟩
  rw [eq, @testLoop_front s (id :: rest) (s.front type) s nodup timed fun _ _ => rfl]
  have unchanged : (expireAll s (s.front type)).locks id = s.locks id := by
    rw [(expireAll_spec _ s).1, if_neg fun member => ?_]
    have yes := timed id member
    rw [permanent] at yes
    cases yes
  rw [hasWakeLockLockedTestLoop, unchanged]
  exact if_neg (ne_true_of_eq_false permanent)

/-! ### When the scans agree -/

/-- **The list on which both scans do the same.** -/
def Agreeable (s : WakeState) (type : WakeLockType) : Prop :=
  (∀ id ∈ s.front type, s.expired id = true) ∧
    ∀ id, s.permanent type = some id → (s.locks id).name ≠ "PowerManagerService"

instance (s : WakeState) (type : WakeLockType) : Decidable (Agreeable s type) :=
  decidable_of_iff ((∀ id ∈ s.front type, s.expired id = true) ∧
    ∀ id ∈ (s.permanent type).toList, (s.locks id).name ≠ "PowerManagerService") (by simp [Agreeable])

/-- The same result, and the same locks left active. -/
def Agree (first second : WakeState × Int) : Prop :=
  first.2 = second.2 ∧ ∀ id, (first.1.locks id).active = (second.1.locks id).active

theorem hasWakeLock_of_agreeable (linked : Linked s) {type : WakeLockType}
    (agreeable : Agreeable s type) : hasWakeLock s type = hasWakeLockLocked s type := by
  obtain ⟨result, run, permanent, timed⟩ := hasWakeLockLocked_spec linked type
  have all : (s.front type).filter s.expired = s.front type := filter_eq_self.mpr agreeable.1
  rw [run, all]
  rcases hasWakeLock_spec linked type with ⟨none, eq⟩ | ⟨id, some, eq⟩
  · obtain ⟨-, -, zero | ⟨id, member, running, -⟩⟩ := timed none
    · rw [eq, zero]
    obtain ⟨-, ⟨-, list⟩ | ⟨_, _, other, -⟩⟩ := front_split s type
    · rw [list] at member
      rw [agreeable.1 id member] at running
      cases running
    · rw [none] at other
      cases other
  · rw [eq, if_neg (agreeable.2 id some), permanent (by rw [some]; exact some_ne_none id)]

theorem agree_iff (linked : Linked s) (type : WakeLockType) :
    Agree (hasWakeLock s type) (hasWakeLockLocked s type) ↔ Agreeable s type := by
  constructor
  · rintro ⟨results, actives⟩
    obtain ⟨result, run, permanent, -⟩ := hasWakeLockLocked_spec linked type
    have other_name : ∀ id, s.permanent type = some id → (s.locks id).name ≠ "PowerManagerService" := by
      intro id some name
      rcases hasWakeLock_spec linked type with ⟨none, -⟩ | ⟨id', some', eq⟩
      · rw [none] at some
        cases some
      · rw [some] at some'
        cases some'
        rw [eq, if_pos name, run, permanent (by rw [some]; exact some_ne_none id)] at results
        cases results
    refine ⟨fun id member => ?_, other_name⟩
    -- a timed lock that has not expired is left active by one scan only
    by_contra running
    have there : id ∈ s.activeWakeLocks type := (takeWhile_sublist _).subset member
    have active := ((linked.active_iff id type).mp there).2.2
    have left : ((hasWakeLockLocked s type).1.locks id).active = true := by
      rw [run, (locks_scanned _ (Bool.eq_false_iff.mpr running)).2]
      exact active
    have dropped : ((hasWakeLock s type).1.locks id).active = false := by
      have gone : ((expireAll s (s.front type)).locks id).active = false := by
        rw [(expireAll_spec _ s).1, if_pos member]
      rcases hasWakeLock_spec linked type with ⟨-, eq⟩ | ⟨id', some, eq⟩
      · rw [eq]
        exact gone
      · rw [eq, if_neg (other_name id' some)]
        exact gone
    rw [actives, left] at dropped
    cases dropped
  · intro agreeable
    rw [hasWakeLock_of_agreeable linked agreeable]
    exact ⟨rfl, fun _ => rfl⟩

/-! ### The lists along runs -/

variable {next : WakeState}

theorem Linked.congr (linked : Linked s) (locks : next.locks = s.locks)
    (lists : next.activeWakeLocks = s.activeWakeLocks) : Linked next := by
  refine ⟨fun type => ?_, fun id type => ?_⟩
  · rw [lists]
    exact linked.nodup type
  · rw [lists, locks]
    exact linked.active_iff id type

theorem setExpireTimer_frame (s : WakeState) (expireIn : Int) :
    (setExpireTimer s expireIn).locks = s.locks ∧
      (setExpireTimer s expireIn).activeWakeLocks = s.activeWakeLocks := by
  unfold setExpireTimer
  split
  · exact ⟨rfl, rfl⟩
  · split <;> exact ⟨rfl, rfl⟩

theorem Linked.setExpireTimer (linked : Linked s) (expireIn : Int) :
    Linked (Power.setExpireTimer s expireIn) :=
  linked.congr (setExpireTimer_frame s expireIn).1 (setExpireTimer_frame s expireIn).2

theorem Linked.hasWakeLockLocked (linked : Linked s) (type : WakeLockType) :
    Linked (Power.hasWakeLockLocked s type).1 := by
  obtain ⟨result, run, -⟩ := hasWakeLockLocked_spec linked type
  rw [run]
  exact linked.expireAll

theorem active_activate (s : WakeState) (id : Nat) (timeout : BitVec 32) (hasTimeout : Bool)
    (type : WakeLockType) : (activate s id timeout hasTimeout).activeWakeLocks type =
      if type = (s.locks id).type then
        if hasTimeout then (s.activeWakeLocks type).filter (· ≠ id) ++ [id]
        else id :: (s.activeWakeLocks type).filter (· ≠ id)
      else (s.activeWakeLocks type).filter (· ≠ id) := by
  unfold activate
  cases hasTimeout with
  | true | false =>
    by_cases eq : type = (s.locks id).type
    · subst eq
      simp [WakeState.setActive, WakeState.setLock, WakeState.listDel]
    · simp [WakeState.setActive, WakeState.setLock, WakeState.listDel, eq]

theorem locks_activate_ne (s : WakeState) (timeout : BitVec 32) (hasTimeout : Bool)
    (differ : other ≠ id) : (activate s id timeout hasTimeout).locks other = s.locks other := by
  cases hasTimeout <;> exact if_neg differ

theorem locks_activate_self (s : WakeState) (id : Nat) (timeout : BitVec 32) (hasTimeout : Bool) :
    (activate s id timeout hasTimeout).locks id =
      { s.locks id with
        active := true, autoExpire := hasTimeout,
        expires := if hasTimeout then s.jiffies + timeout else longMax } := by
  cases hasTimeout <;> exact if_pos rfl

section

variable (linked : Linked s)

include linked

theorem Linked.activate (ready : (s.locks id).initialized = true) (timeout : BitVec 32)
    (hasTimeout : Bool) :
    Linked (Power.activate s id timeout hasTimeout) := by
  have without : ∀ type, ((s.activeWakeLocks type).filter (· ≠ id)).Nodup :=
    fun type => (linked.nodup type).filter _
  have absent : ∀ type, id ∉ (s.activeWakeLocks type).filter (· ≠ id) := by simp
  refine ⟨fun type => ?_, fun other type => ?_⟩
  · rw [active_activate]
    split
    · split
      · exact (without type).append (nodup_singleton id) (disjoint_singleton.mpr (absent type))
      · exact nodup_cons.mpr ⟨absent type, without type⟩
    · exact without type
  rw [active_activate]
  by_cases eq : other = id
  · subst eq
    rw [locks_activate_self]
    by_cases same : type = (s.locks other).type
    · subst same
      cases hasTimeout <;> simp [ready]
    · simp [same, ready, Ne.symm same]
  · rw [locks_activate_ne s timeout hasTimeout eq, ← linked.active_iff]
    split
    · split <;> simp [eq]
    · simp [eq]

theorem Linked.takeWakeLock (ready : (s.locks id).initialized = true) (timeout : BitVec 32)
    (hasTimeout : Bool) :
    Linked (Power.takeWakeLock s id timeout hasTimeout) := by
  have taken := linked.activate ready timeout hasTimeout
  unfold Power.takeWakeLock
  dsimp only
  split
  · split
    · refine Linked.setExpireTimer (Linked.hasWakeLockLocked ?_ _) _
      exact taken.congr rfl rfl
    · refine Linked.setExpireTimer ?_ _
      exact taken.congr rfl rfl
  · exact taken

theorem Linked.wakeUnlock (id : Nat) : Linked (Power.wakeUnlock s id) := by
  unfold Power.wakeUnlock
  dsimp only
  split
  · exact ((linked.expireWakeLock id).hasWakeLockLocked _).setExpireTimer _
  · exact linked.expireWakeLock id

theorem Linked.hasWakeLock (type : WakeLockType) : Linked (Power.hasWakeLock s type).1 := by
  rcases hasWakeLock_spec linked type with ⟨-, eq⟩ | ⟨id, -, eq⟩
  · rw [eq]
    exact linked.expireAll
  · rw [eq]
    split
    · exact linked.expireAll.wakeUnlock id
    · exact linked.expireAll

theorem Linked.wakeLockInit (fresh : (s.locks id).initialized = false) (type : WakeLockType)
    (name : String) :
    Linked (Power.wakeLockInit s id type name) := by
  refine ⟨linked.nodup, fun other type' => (linked.active_iff other type').trans ?_⟩
  rw [Power.wakeLockInit, locks_setLock]
  by_cases eq : other = id <;> simp [eq, fresh]

theorem Linked.wakeLockDestroy (id : Nat) : Linked (Power.wakeLockDestroy s id) := by
  refine ⟨fun type => (linked.nodup type).filter _, fun other type => ?_⟩
  refine (mem_filter.trans (and_congr_left' (linked.active_iff other type))).trans ?_
  rw [Power.wakeLockDestroy, WakeState.listDel, locks_setLock]
  by_cases eq : other = id <;> simp [eq]

end

theorem wakelocksInit_linked (jiffies : BitVec 32) : Linked (wakelocksInit jiffies) := by
  refine Linked.wakeLockInit (Linked.takeWakeLock (Linked.wakeLockInit ?_ rfl _ _) rfl _ _) rfl _ _
  exact ⟨fun _ => nodup_nil, fun id type => by simp⟩

theorem wakeStep_linked {call : WakeCall} (linked : Linked s) (taken : wakeStep s call = some next) :
    Linked next := by
  have internal : ∀ {s : WakeState} {id timeout hasTimeout}, Linked s →
      wakeLockInternal s id timeout hasTimeout = some next → Linked next := by
    intro s id timeout hasTimeout linked taken
    obtain ⟨ready, ⟨⟩⟩ := ite_none_right_eq_some.mp taken
    exact linked.takeWakeLock ready timeout hasTimeout
  cases call with
  | init id type name =>
    obtain ⟨fresh, ⟨⟩⟩ := ite_none_left_eq_some.mp taken
    exact linked.wakeLockInit (by simpa using fresh) type name
  | destroy id =>
    obtain ⟨-, ⟨⟩⟩ := ite_none_right_eq_some.mp taken
    exact linked.wakeLockDestroy id
  | lock id | lockTimeout id timeout => exact internal linked taken
  | unlock id =>
    obtain ⟨-, ⟨⟩⟩ := ite_none_right_eq_some.mp taken
    exact linked.wakeUnlock id
  | pass jiffies =>
    cases taken
    exact linked.congr rfl rfl
  | timer =>
    rw [wakeStep] at taken
    split at taken
    · cases taken
    split at taken
    · cases taken
      unfold expireWakeLocks
      have stopped : Linked { s with expireTimer := none } := linked.congr rfl rfl
      dsimp only
      split
      · exact (stopped.hasWakeLockLocked _).congr rfl rfl
      · exact stopped.hasWakeLockLocked _
    · cases taken
  | suspend =>
    obtain ⟨-, ⟨⟩⟩ := ite_none_left_eq_some.mp taken
    unfold suspend
    dsimp only
    split
    · exact linked.hasWakeLock _
    · exact (linked.hasWakeLock _).congr rfl rfl
  | suspendLate =>
    obtain ⟨-, ⟨⟩⟩ := ite_none_right_eq_some.mp taken
    exact linked.hasWakeLock _
  | suspendEnd =>
    rw [wakeStep, suspendEnd] at taken
    split at taken
    · cases taken
    have ended : Linked { s with suspending := none } := linked.congr rfl rfl
    dsimp only at taken
    split at taken
    · exact internal ended taken
    · cases taken
      exact ended

/-! ### The suspend decision -/

/-- The lock is held: active, and permanent or not expired. -/
def WakeState.held (s : WakeState) (id : Nat) : Prop :=
  (s.locks id).active = true ∧ s.expired id = false

/-- **A held wake lock blocks suspend** on an `Agreeable` list, and exactly there the scans agree:
`has_wake_lock` then returns 0 only when no suspend lock is held, and deactivates none that is. -/
theorem has_wake_lock_blocks {jiffies : BitVec 32} {calls : List WakeCall}
    (run : exec wakeStep (wakelocksInit jiffies) calls = some s) :
    (Agree (hasWakeLock s .suspend) (hasWakeLockLocked s .suspend) ↔ Agreeable s .suspend) ∧
      (Agreeable s .suspend →
        ((hasWakeLock s .suspend).2 = 0 → ∀ id, (s.locks id).initialized = true →
          (s.locks id).type = .suspend → ¬ s.held id) ∧
        ∀ id, s.held id → ((hasWakeLock s .suspend).1.locks id).active = true) := by
  have linked : Linked s := exec_invariant Linked (fun _ _ _ => wakeStep_linked)
    (wakelocksInit_linked jiffies) run
  refine ⟨agree_iff linked .suspend, fun agreeable => ?_⟩
  obtain ⟨result, scan, permanent, timed⟩ := hasWakeLockLocked_spec linked .suspend
  rw [hasWakeLock_of_agreeable linked agreeable, scan]
  refine ⟨fun zero id ready suspend held => ?_, fun id held => ?_⟩
  · have there := (linked.active_iff id .suspend).mpr ⟨ready, suspend, held.1⟩
    obtain ⟨-, ⟨-, list⟩ | ⟨first, _, found, -⟩⟩ := front_split s .suspend
    · rw [list] at there
      have expired := agreeable.1 id there
      rw [held.2] at expired
      cases expired
    · rw [permanent (by rw [found]; exact some_ne_none first)] at zero
      cases zero
  · rw [(locks_scanned _ held.2).2]
    exact held.1

/-- A lock is taken for ten jiffies, the main lock is released, and twenty jiffies pass. -/
def shortLock : List WakeCall :=
  [.init 2 .suspend "short", .lockTimeout 2 10, .unlock 0, .pass 20]

theorem has_wake_lock_blocks_short : ∃ s, exec wakeStep (wakelocksInit 0) shortLock = some s ∧
    Agreeable s .suspend ∧ Agree (hasWakeLock s .suspend) (hasWakeLockLocked s .suspend) := by
  have reached : (exec wakeStep (wakelocksInit 0) shortLock).map
      (fun s => decide (Agreeable s .suspend)) = some true := by decide +kernel
  obtain ⟨s, run, agreeable⟩ := map_eq_some_iff.mp reached
  exact ⟨s, run, of_decide_eq_true agreeable,
    (has_wake_lock_blocks run).1.mpr (of_decide_eq_true agreeable)⟩

/-- **Held locks are dropped**: a timed lock with 90 jiffies left, and a permanent lock of the power
manager. `has_wake_lock` returns 0 and deactivates them. -/
theorem held_locks_dropped :
    (∃ s, exec wakeStep (wakelocksInit 0)
        [.init 2 .suspend "sync", .lockTimeout 2 100, .unlock 0, .pass 10] = some s ∧
      s.held 2 ∧ (hasWakeLock s .suspend).2 = 0 ∧ (hasWakeLockLocked s .suspend).2 = 90 ∧
      ((hasWakeLock s .suspend).1.locks 2).active = false ∧
      ((hasWakeLockLocked s .suspend).1.locks 2).active = true) ∧
    ∃ s, exec wakeStep (wakelocksInit 0)
        [.init 2 .suspend "PowerManagerService", .lock 2, .unlock 0] = some s ∧
      s.held 2 ∧ (hasWakeLock s .suspend).2 = 0 ∧ (hasWakeLockLocked s .suspend).2 = -1 ∧
      ((hasWakeLock s .suspend).1.locks 2).active = false ∧
      ((hasWakeLockLocked s .suspend).1.locks 2).active = true := by
  refine ⟨⟨_, rfl, ?_⟩, ⟨_, rfl, ?_⟩⟩
  · unfold WakeState.held
    decide +kernel
  · unfold WakeState.held
    decide +kernel

end KernelImx.Power
