/-
**Early suspend** (kernel/power/earlysuspend.c).

Two bits say that sleep is requested and that the handlers are suspended. `request_suspend_state`
changes the first one under `state_lock` and queues `early_suspend` or `late_resume`, which change the
second one and call the handlers under `early_suspend_lock`. The two run on a workqueue with one
thread, so one after the other; everything else interleaves with them between any two sections that
are not under the same lock. A request in another mode drops `state_lock` and flushes the workqueue
before it goes on.

Main result: `early_suspend_alternates`.

The mode that a handler reads in `pm_mode` is left out: nothing here depends on it.
-/

import Mathlib.Data.List.Sublists
import KernelImx.Lib.Runs

namespace KernelImx.EarlySuspend

open List KernelImx.Lib Option

/-- `suspend_state_t` -/
inductive SuspendState
  | on
  | standby
  | mem
  deriving DecidableEq, Repr

inductive Mode
  | normal
  | eink
  deriving DecidableEq, Repr

/-- What a handler is called for. -/
inductive Callback
  | suspend
  | resume
  deriving DecidableEq, Repr

/-- `struct early_suspend`: the level, and which callbacks are not `NULL`. -/
structure Handler where
  level : Int
  suspend : Bool
  resume : Bool

/-- What is on the workqueue; a flush waits for its own barrier. -/
inductive Work
  | earlySuspend
  | lateResume
  | barrier (caller : Nat)
  deriving DecidableEq, Repr

/-- Where the thread of the workqueue is. -/
inductive Worker
  | idle
  /-- Before `mutex_lock(&early_suspend_lock)`. -/
  | earlyStart
  | earlyLocked
  /-- The handlers still to be suspended. -/
  | earlyCalls (rest : List Nat)
  /-- After `mutex_unlock`, before the last section. -/
  | earlyEnd
  | lateStart
  | lateLocked
  | lateCalls (rest : List Nat)
  deriving DecidableEq, Repr

structure State where
  /-- `SUSPEND_REQUESTED` -/
  requested : Bool
  /-- `SUSPENDED` -/
  suspended : Bool
  mode : Mode
  lastMode : Option Mode
  requestedSuspendState : SuspendState
  mainWakeLock : Bool
  earlySuspendHandlers : List Nat
  worker : Worker
  queue : List Work
  /-- The handler whose registration holds `early_suspend_lock`. -/
  registering : Option Nat
  /-- The callers of `request_suspend_state` in the flush, with their new state. -/
  flushing : Nat → Option SuspendState
  /-- Whether the flush of a caller is done. -/
  flushed : Nat → Bool
  /-- The calls a handler has seen since it was registered. -/
  calls : Nat → List Callback

/-- At boot: nothing is requested, and `main_wake_lock` is held. -/
def State.init : State :=
  ⟨false, false, .normal, none, .mem, true, [], .idle, [], none, fun _ => none, fun _ => false, fun _ => []⟩

/-! ### The sections -/

/-- `queue_work`: a work item that is pending is not queued again. -/
def queueWork (work : Work) (s : State) : State :=
  if work ∈ s.queue then s else { s with queue := s.queue ++ [work] }

/-- Whether nobody holds `early_suspend_lock`. -/
def State.unlocked (s : State) : Bool :=
  match s.worker with
  | .earlyLocked | .earlyCalls _ | .lateLocked | .lateCalls _ => false
  | _ => s.registering.isNone

def State.call (s : State) (id : Nat) (callback : Callback) (has : Bool) : State :=
  if has then { s with calls := fun other => if other = id then s.calls id ++ [callback] else s.calls other }
  else s

section Sections

variable (handlers : Nat → Handler)

def workStep (s : State) : Option State :=
  match s.worker with
  | .idle =>
    match s.queue with
    | [] => none
    | .earlySuspend :: rest => some { s with worker := .earlyStart, queue := rest }
    | .lateResume :: rest => some { s with worker := .lateStart, queue := rest }
    | .barrier caller :: rest =>
      some { s with queue := rest, flushed := fun other => if other = caller then true else s.flushed other }
  | .earlyStart => if s.unlocked then some { s with worker := .earlyLocked } else none
  | .earlyLocked =>
    if s.requested = true ∧ s.suspended = false then
      some { s with suspended := true, worker := .earlyCalls s.earlySuspendHandlers }
    else some { s with worker := .earlyEnd }
  | .earlyCalls (id :: rest) =>
    some { s.call id .suspend (handlers id).suspend with worker := .earlyCalls rest }
  | .earlyCalls [] => some { s with worker := .earlyEnd }
  | .earlyEnd =>
    if s.requested = true ∧ s.suspended = true then
      some { s with mainWakeLock := false, worker := .idle }
    else some { s with worker := .idle }
  | .lateStart => if s.unlocked then some { s with worker := .lateLocked } else none
  | .lateLocked =>
    if s.suspended = true ∧ s.requested = false then
      some { s with suspended := false, worker := .lateCalls s.earlySuspendHandlers.reverse }
    else some { s with worker := .idle }
  | .lateCalls (id :: rest) =>
    some { s.call id .resume (handlers id).resume with worker := .lateCalls rest }
  | .lateCalls [] => some { s with worker := .idle }

/-- `register_early_suspend`, up to the new link: behind the handlers of the same level. -/
def insertHandler (id : Nat) (list : List Nat) : List Nat :=
  list.takeWhile (fun other => (handlers other).level ≤ (handlers id).level) ++
    id :: list.dropWhile (fun other => (handlers other).level ≤ (handlers id).level)

def registerStart (s : State) (id : Nat) : Option State :=
  if s.unlocked ∧ id ∉ s.earlySuspendHandlers then
    some { s with earlySuspendHandlers := insertHandler handlers id s.earlySuspendHandlers,
                  registering := some id,
                  calls := fun other => if other = id then [] else s.calls other }
  else none

/-- The rest of `register_early_suspend`. -/
def registerEnd (s : State) : Option State :=
  match s.registering with
  | none => none
  | some id =>
    some { s.call id .suspend (s.suspended && (handlers id).suspend) with registering := none }

end Sections

variable (s : State)

def unregisterEarlySuspend (id : Nat) : Option State :=
  if s.unlocked ∧ id ∈ s.earlySuspendHandlers then
    some { s with earlySuspendHandlers := s.earlySuspendHandlers.filter (· ≠ id) }
  else none

/-- The end of `request_suspend_state`. -/
def requestEnd (newState : SuspendState) (s : State) : State :=
  { s with lastMode := if newState ≠ .on then some s.mode else s.lastMode,
           requestedSuspendState := newState }

/-- `state |= SUSPEND_REQUESTED` and the rest of that branch. -/
def requestSleep (newState : SuspendState) (s : State) : State :=
  requestEnd newState (queueWork .earlySuspend { s with requested := true })

/-- `request_suspend_state` with the mode and the state it works with, to its end or up to the
flush. -/
def requestIn (caller : Nat) (mode : Mode) (newState : SuspendState) : State :=
  let oldSleep := s.requested
  let s := { s with mode := mode }
  if oldSleep = false ∧ newState ≠ .on then
    if s.suspended = true ∧ s.lastMode ≠ some mode then
      { s with flushing := fun other => if other = caller then some newState else s.flushing other,
               flushed := fun other => if other = caller then false else s.flushed other,
               queue := s.queue ++ [.barrier caller] }
    else requestSleep newState s
  else if oldSleep = true ∧ newState = .on then
    requestEnd newState (queueWork .lateResume { s with requested := false, mainWakeLock := true })
  else requestEnd newState s

def requestSuspendState (caller : Nat) (newState : SuspendState) : State :=
  if newState = .standby then requestIn s caller .eink .mem else requestIn s caller .normal newState

/-- `request_suspend_state` after the flush. -/
def requestAgain (caller : Nat) : Option State :=
  match s.flushing caller with
  | none => none
  | some newState =>
    if s.flushed caller then
      some (requestSleep newState
        { s with flushing := fun other => if other = caller then none else s.flushing other })
    else none

inductive Label
  | work
  | request (caller : Nat) (newState : SuspendState)
  | requestAgain (caller : Nat)
  | register (id : Nat)
  | registerEnd
  | unregister (id : Nat)
  deriving DecidableEq

/-- One section of somebody; a caller is in one request at a time. -/
def step (handlers : Nat → Handler) (s : State) : Label → Option State
  | .work => workStep handlers s
  | .request caller newState =>
    if (s.flushing caller).isSome then none else some (requestSuspendState s caller newState)
  | .requestAgain caller => requestAgain s caller
  | .register id => registerStart handlers s id
  | .registerEnd => registerEnd handlers s
  | .unregister id => unregisterEarlySuspend s id

/-! ### The invariant -/

def turns (n : Nat) : List Callback :=
  (range n).map fun i => if i % 2 = 0 then .suspend else .resume

theorem turns_succ (n : Nat) : turns (n + 1) = turns n ++ [if n % 2 = 0 then .suspend else .resume] := by
  unfold turns
  rw [range_succ, map_append]
  rfl

/-- The value of `SUSPENDED` for which the running work item calls handlers, and those still to be
called. -/
def Worker.calling : Worker → Option (Bool × List Nat)
  | .earlyCalls rest => some (true, rest)
  | .lateCalls rest => some (false, rest)
  | _ => none

def State.awaiting : List Nat := (s.worker.calling.map Prod.snd).getD []

/-- Whether the running work item holds `early_suspend_lock`. -/
def Worker.holdsLock : Worker → Bool
  | .earlyLocked | .earlyCalls _ | .lateLocked | .lateCalls _ => true
  | _ => false

theorem unlocked_iff : s.unlocked = true ↔ s.worker.holdsLock = false ∧ s.registering = none := by
  unfold State.unlocked
  cases s.worker <;> simp [Worker.holdsLock]

/-- The handler took its turns, and it is suspended when `suspended` says so, up to the call it is
still to get. -/
def Turn (id : Nat) : Prop :=
  ∃ n, s.calls id = turns n ∧ (n % 2 = 1 ↔ (s.suspended ^^ decide (id ∈ s.awaiting)) = true)

/-- The calls of a handler, and the handlers that a work item has still to call. -/
structure InTurn (handlers : Nat → Handler) (s : State) : Prop where
  nodup : s.earlySuspendHandlers.Nodup
  rest_nodup : s.awaiting.Nodup
  calling : ∀ on rest, s.worker.calling = some (on, rest) → s.suspended = on
  locked : s.worker.holdsLock = true → s.registering = none
  fresh : ∀ id, s.registering = some id → s.calls id = []
  turn : ∀ id ∈ s.earlySuspendHandlers, (handlers id).suspend = true → (handlers id).resume = true →
    s.registering ≠ some id → Turn s id
  main : s.mainWakeLock = false → s.requested = true

variable {queue : List Work} {worker : Worker} {id : Nat}

section Steps

variable {handlers : Nat → Handler} {s next : State}

section

variable (inTurn : InTurn handlers s)

include inTurn

theorem InTurn.frame {requested mainWakeLock : Bool} {mode : Mode} {lastMode : Option Mode}
    {newState : SuspendState} {flushing : Nat → Option SuspendState} {flushed : Nat → Bool}
    (main : mainWakeLock = false → requested = true) :
    InTurn handlers { s with
      requested := requested, mode := mode, lastMode := lastMode, requestedSuspendState := newState,
      mainWakeLock := mainWakeLock, queue := queue, flushing := flushing, flushed := flushed } :=
  { inTurn with main }

theorem InTurn.queued (work : Work) (newState : SuspendState) :
    InTurn handlers (requestEnd newState (queueWork work s)) := by
  unfold queueWork
  split
  · exact inTurn.frame inTurn.main
  · exact inTurn.frame inTurn.main

theorem InTurn.requestIn (caller : Nat) (mode : Mode) (newState : SuspendState) :
    InTurn handlers (EarlySuspend.requestIn s caller mode newState) := by
  unfold EarlySuspend.requestIn
  dsimp only
  split
  · split
    · exact inTurn.frame inTurn.main
    · exact InTurn.queued (inTurn.frame fun _ => rfl) _ _
  · split
    · refine InTurn.queued (inTurn.frame ?_) _ _
      exact nofun
    · exact inTurn.frame inTurn.main

theorem InTurn.request (caller : Nat) (newState : SuspendState) :
    InTurn handlers (requestSuspendState s caller newState) := by
  unfold requestSuspendState
  split
  · exact inTurn.requestIn caller .eink .mem
  · exact inTurn.requestIn caller .normal newState

theorem InTurn.requestAgain {caller : Nat} (taken : EarlySuspend.requestAgain s caller = some next) :
    InTurn handlers next := by
  unfold EarlySuspend.requestAgain at taken
  split at taken
  · cases taken
  · obtain ⟨-, ⟨⟩⟩ := ite_none_right_eq_some.mp taken
    exact InTurn.queued (inTurn.frame fun _ => rfl) _ _

end

theorem awaiting_of_unlocked (free : worker.holdsLock = false) (eq : s.worker = worker) :
    s.awaiting = [] := by
  unfold State.awaiting
  rw [eq]
  cases worker <;> first | rfl | cases free

theorem InTurn.goesOn (inTurn : InTurn handlers s) (none_left : s.awaiting = []) {main : Bool}
    (calls : worker.calling = none) (locked : worker.holdsLock = true → s.registering = none)
    (held : main = false → s.requested = true) :
    InTurn handlers { s with worker := worker, queue := queue, mainWakeLock := main } := by
  have empty : State.awaiting { s with worker := worker, queue := queue, mainWakeLock := main } = [] := by
    rw [State.awaiting, calls]
    rfl
  refine ⟨inTurn.nodup, ?_, fun on rest eq => (nomatch calls.symm.trans eq), locked,
    inTurn.fresh, ?_, held⟩
  · rw [empty]
    exact nodup_nil
  · unfold Turn
    rw [empty, ← none_left]
    exact inTurn.turn

theorem awaiting_of_locked (locked : s.worker = .earlyLocked ∨ s.worker = .lateLocked) :
    s.awaiting = [] := by
  unfold State.awaiting
  rcases locked with eq | eq <;> rw [eq] <;> rfl

/-- **All handlers are to be called**: the bit changes, and with it what every handler is waiting
for. -/
theorem InTurn.startCalls (inTurn : InTurn handlers s) (on : Bool)
    (locked : s.worker = .earlyLocked ∨ s.worker = .lateLocked) (was : s.suspended = !on)
    {all : List Nat} (nodup : all.Nodup) (same : ∀ id, id ∈ all ↔ id ∈ s.earlySuspendHandlers)
    (calls : worker.calling = some (on, all)) :
    InTurn handlers { s with suspended := on, worker := worker } := by
  have left : State.awaiting { s with suspended := on, worker := worker } = all := by
    rw [State.awaiting, calls]
    rfl
  have alone : s.registering = none := inTurn.locked (by rcases locked with eq | eq <;> rw [eq] <;> rfl)
  refine ⟨inTurn.nodup, ?_, fun on rest eq => ?_, fun _ => alone, inTurn.fresh, ?_,
    inTurn.main⟩
  · rw [left]
    exact nodup
  · cases calls.symm.trans eq
    rfl
  intro id member suspend resume other
  obtain ⟨n, seen, parity⟩ := inTurn.turn id member suspend resume other
  refine ⟨n, seen, ?_⟩
  rw [left, decide_eq_true ((same id).mpr member)]
  rw [awaiting_of_locked locked, was, decide_eq_false not_mem_nil] at parity
  rw [parity]
  cases on <;> rfl

theorem call_frame (s : State) (id : Nat) (callback : Callback) (has : Bool) :
    s.call id callback has = { s with calls := (s.call id callback has).calls } := by
  unfold State.call
  split <;> rfl

theorem calls_call (s : State) (id other : Nat) (callback : Callback) (has : Bool) :
    (s.call id callback has).calls other =
      if has = true ∧ other = id then s.calls id ++ [callback] else s.calls other := by
  unfold State.call
  cases has <;> simp

/-- **A handler is called**, and it is its turn. -/
theorem InTurn.callNext (inTurn : InTurn handlers s) (on : Bool) {rest : List Nat}
    (now : s.worker.calling = some (on, id :: rest)) (locked : s.worker.holdsLock = true) {has : Bool}
    (both : (handlers id).suspend = true → (handlers id).resume = true → has = true)
    (calls : worker.calling = some (on, rest)) :
    InTurn handlers { s.call id (if on then .suspend else .resume) has with worker := worker } := by
  rw [call_frame]
  have alone := inTurn.locked locked
  have is_on := inTurn.calling on _ now
  have left : s.awaiting = id :: rest := by rw [State.awaiting, now]; rfl
  have nodup := inTurn.rest_nodup
  rw [left, nodup_cons] at nodup
  generalize called : (s.call id (if on then .suspend else .resume) has).calls = calls'
  have left' : State.awaiting { s with calls := calls', worker := worker } = rest := by
    rw [State.awaiting, calls]
    rfl
  refine ⟨inTurn.nodup, ?_, fun on rest' eq => ?_, fun _ => alone, ?_, ?_, inTurn.main⟩
  · rw [left']
    exact nodup.2
  · cases calls.symm.trans eq
    exact is_on
  · intro other registering
    cases alone.symm.trans registering
  intro other member suspend resume apart
  obtain ⟨n, seen, parity⟩ := inTurn.turn other member suspend resume apart
  rw [left, is_on] at parity
  unfold Turn
  rw [left', is_on, ← called, calls_call]
  by_cases eq : other = id
  · subst eq
    rw [if_pos ⟨both suspend resume, rfl⟩, seen]
    rw [decide_eq_true mem_cons_self] at parity
    rw [decide_eq_false nodup.1]
    refine ⟨n + 1, ?_, ?_⟩
    · rw [turns_succ]
      congr 2
      cases on with
      | true =>
        have even : n % 2 = 0 := by simpa using parity
        rw [even]
        rfl
      | false =>
        have odd : n % 2 = 1 := by simpa using parity
        rw [odd]
        rfl
    · have next_odd : (n + 1) % 2 = 1 ↔ ¬ n % 2 = 1 := by omega
      rw [next_odd, parity]
      cases on <;> decide
  · rw [if_neg fun both => eq both.2]
    refine ⟨n, seen, ?_⟩
    simpa [eq] using parity

theorem workStep_inTurn (inTurn : InTurn handlers s) (taken : workStep handlers s = some next) :
    InTurn handlers next := by
  unfold workStep at taken
  split at taken
  case h_1 idle =>
    have none_left := awaiting_of_unlocked rfl idle
    split at taken
    case h_1 => cases taken
    case h_2 | h_3 =>
      cases taken
      exact inTurn.goesOn none_left rfl nofun inTurn.main
    case h_4 =>
      cases taken
      exact inTurn.frame inTurn.main
  case h_2 start | h_7 start =>
    obtain ⟨free, ⟨⟩⟩ := ite_none_right_eq_some.mp taken
    exact inTurn.goesOn (awaiting_of_unlocked rfl start) rfl
      (fun _ => ((unlocked_iff s).mp free).2) inTurn.main
  case h_3 locked =>
    split at taken
    case isTrue asked =>
      cases taken
      exact inTurn.startCalls true (.inl locked) asked.2 inTurn.nodup (fun _ => Iff.rfl) rfl
    case isFalse =>
      cases taken
      exact inTurn.goesOn (awaiting_of_locked (.inl locked)) rfl nofun inTurn.main
  case h_4 id rest calling =>
    cases taken
    exact inTurn.callNext true (congrArg Worker.calling calling) (congrArg Worker.holdsLock calling)
      (fun suspend _ => suspend) rfl
  case h_5 calling | h_10 calling =>
    cases taken
    exact inTurn.goesOn (by rw [State.awaiting, calling]; rfl) rfl nofun inTurn.main
  case h_6 ending =>
    have none_left := awaiting_of_unlocked rfl ending
    split at taken
    case isTrue asked =>
      cases taken
      exact inTurn.goesOn none_left rfl nofun fun _ => asked.1
    case isFalse =>
      cases taken
      exact inTurn.goesOn none_left rfl nofun inTurn.main
  case h_8 locked =>
    split at taken
    case isTrue asked =>
      cases taken
      exact inTurn.startCalls false (.inr locked) asked.1 (nodup_reverse.mpr inTurn.nodup)
        (fun _ => mem_reverse) rfl
    case isFalse =>
      cases taken
      exact inTurn.goesOn (awaiting_of_locked (.inr locked)) rfl nofun inTurn.main
  case h_9 id rest calling =>
    cases taken
    exact inTurn.callNext false (congrArg Worker.calling calling) (congrArg Worker.holdsLock calling)
      (fun _ resume => resume) rfl

theorem mem_insertHandler (id other : Nat) (list : List Nat) :
    other ∈ insertHandler handlers id list ↔ other = id ∨ other ∈ list := by
  unfold insertHandler
  conv_rhs =>
    rw [← @takeWhile_append_dropWhile Nat (fun other => (handlers other).level ≤ (handlers id).level)
      list]
  simp only [mem_append, mem_cons]
  exact or_left_comm

theorem nodup_insertHandler {list : List Nat} (nodup : list.Nodup) (absent : id ∉ list) :
    (insertHandler handlers id list).Nodup := by
  refine nodup_middle.mpr (nodup_cons.mpr ⟨?_, ?_⟩)
  · rw [takeWhile_append_dropWhile]
    exact absent
  · rw [takeWhile_append_dropWhile]
    exact nodup

variable (inTurn : InTurn handlers s)

include inTurn

theorem InTurn.registerStart (taken : EarlySuspend.registerStart handlers s id = some next) :
    InTurn handlers next := by
  obtain ⟨ready, ⟨⟩⟩ := ite_none_right_eq_some.mp taken
  obtain ⟨free, -⟩ := (unlocked_iff s).mp ready.1
  refine ⟨nodup_insertHandler inTurn.nodup ready.2, inTurn.rest_nodup, inTurn.calling,
    fun held => ?_, fun other registering => ?_, fun other member suspend resume apart => ?_,
    inTurn.main⟩
  · cases free.symm.trans held
  · cases registering
    exact if_pos rfl
  have differ : other ≠ id := fun eq => apart (congrArg some eq.symm)
  have there := ((mem_insertHandler id other _).mp member).resolve_left differ
  have alone : s.registering ≠ some other := by
    rw [((unlocked_iff s).mp ready.1).2]
    exact nofun
  obtain ⟨n, seen, parity⟩ := inTurn.turn other there suspend resume alone
  exact ⟨n, (if_neg differ).trans seen, parity⟩

theorem InTurn.registerEnd (taken : EarlySuspend.registerEnd handlers s = some next) :
    InTurn handlers next := by
  unfold EarlySuspend.registerEnd at taken
  split at taken
  case h_1 => cases taken
  case h_2 id registering =>
    cases taken
    rw [call_frame]
    have free : s.worker.holdsLock = false := by
      by_contra held
      rw [inTurn.locked (by simpa using held)] at registering
      cases registering
    have none_left : s.awaiting = [] := awaiting_of_unlocked free rfl
    refine { inTurn with
      locked := fun _ => rfl, fresh := nofun, turn := fun other member suspend resume _ => ?_ }
    show ∃ n, (s.call id .suspend (s.suspended && (handlers id).suspend)).calls other = turns n ∧
      (n % 2 = 1 ↔ (s.suspended ^^ decide (other ∈ s.awaiting)) = true)
    rw [calls_call]
    by_cases eq : other = id
    · subst eq
      rw [inTurn.fresh other registering, none_left, suspend]
      cases s.suspended with
      | true => exact ⟨1, if_pos ⟨rfl, rfl⟩, by simp⟩
      | false => exact ⟨0, if_neg nofun, by simp⟩
    · rw [if_neg fun both => eq both.2]
      exact inTurn.turn other member suspend resume fun same => eq (by
        rw [registering] at same
        exact (some.inj same).symm)

theorem InTurn.unregister (taken : unregisterEarlySuspend s id = some next) :
    InTurn handlers next := by
  obtain ⟨-, ⟨⟩⟩ := ite_none_right_eq_some.mp taken
  exact { inTurn with
    nodup := inTurn.nodup.filter _
    turn := fun other member => inTurn.turn other (mem_filter.mp member).1 }

theorem step_inTurn {label : Label} (taken : step handlers s label = some next) :
    InTurn handlers next := by
  cases label with
  | work => exact workStep_inTurn inTurn taken
  | request caller newState =>
    obtain ⟨-, ⟨⟩⟩ := ite_none_left_eq_some.mp taken
    exact inTurn.request caller newState
  | requestAgain caller => exact inTurn.requestAgain taken
  | register id => exact inTurn.registerStart taken
  | registerEnd => exact inTurn.registerEnd taken
  | unregister id => exact inTurn.unregister taken

end Steps

/-! ### Every interleaving -/

theorem init_inTurn (handlers : Nat → Handler) : InTurn handlers State.init where
  nodup := nodup_nil
  rest_nodup := nodup_nil
  calling := nofun
  locked := nofun
  fresh := nofun
  turn := forall_mem_nil _
  main := nofun

theorem turns_get {n i : Nat} {callback : Callback} (seen : (turns n)[i]? = some callback) :
    callback = .suspend ↔ i % 2 = 0 := by
  unfold turns at seen
  rw [getElem?_map] at seen
  obtain ⟨j, found, rfl⟩ := map_eq_some_iff.mp seen
  obtain ⟨inside, eq⟩ := List.getElem?_eq_some_iff.mp found
  split <;> simp_all

theorem turns_last (n : Nat) : (turns n).getLast? = some .suspend ↔ n % 2 = 1 := by
  cases n with
  | zero => simp [turns]
  | succ n =>
    rw [turns_succ, getLast?_append]
    split <;> simp <;> omega

/-- **Early suspend, over every interleaving.** Every handler with both callbacks has seen suspend
and resume in turn; at rest it is suspended exactly when `SUSPENDED` is set; `main_wake_lock` is
released only while `SUSPEND_REQUESTED` is set. -/
theorem early_suspend_alternates {handlers : Nat → Handler} {labels : List Label} {s : State}
    (run : exec (step handlers) State.init labels = some s) :
    (∀ id ∈ s.earlySuspendHandlers, (handlers id).suspend = true → (handlers id).resume = true →
      (∀ i callback, (s.calls id)[i]? = some callback → (callback = .suspend ↔ i % 2 = 0)) ∧
      (s.worker = .idle → s.registering ≠ some id →
        ((s.calls id).getLast? = some .suspend ↔ s.suspended = true))) ∧
      (s.mainWakeLock = false → s.requested = true) := by
  have inTurn : InTurn handlers s := exec_invariant (InTurn handlers)
    (fun _ _ _ inTurn taken => step_inTurn inTurn taken) (init_inTurn handlers) run
  refine ⟨fun id member suspend resume => ⟨fun i callback seen => ?_, fun idle apart => ?_⟩, inTurn.main⟩
  · by_cases registering : s.registering = some id
    · rw [inTurn.fresh id registering] at seen
      cases seen
    · obtain ⟨n, calls, -⟩ := inTurn.turn id member suspend resume registering
      rw [calls] at seen
      exact turns_get seen
  · obtain ⟨n, calls, parity⟩ := inTurn.turn id member suspend resume apart
    rw [calls, turns_last, parity, awaiting_of_unlocked rfl idle]
    simp

/-- Sleep is requested, taken back in another thread and requested again in the other mode. -/
def sleepTwice : List Label :=
  [.register 7, .registerEnd, .request 1 .mem, .work, .work, .work, .work, .work, .work,
    .request 2 .on, .request 1 .standby, .work, .work, .work, .work, .work, .work, .requestAgain 1,
    .work, .work, .work, .work, .work, .work]

theorem early_suspend_alternates_sleep_twice :
    ∃ s, exec (step fun _ => ⟨0, true, true⟩) State.init sleepTwice = some s ∧
      s.calls 7 = [.suspend, .resume, .suspend] ∧ (s.mainWakeLock = false → s.requested = true) := by
  have reached : (exec (step fun _ => ⟨0, true, true⟩) State.init sleepTwice).map (fun s => s.calls 7) =
      some [.suspend, .resume, .suspend] := by decide +kernel
  obtain ⟨s, run, calls⟩ := map_eq_some_iff.mp reached
  exact ⟨s, run, calls, (early_suspend_alternates run).2⟩

end KernelImx.EarlySuspend
