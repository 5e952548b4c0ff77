/-
**Wake locks** (kernel/power/wakelock.c).

A wake lock is active without a limit (a permanent lock) or until a jiffy (a timed lock). The active
locks of a type are on one list, permanent locks at its head and timed locks at its tail, and one
timer is set for the latest expiry of the timed suspend locks. `long` and `unsigned long` have 32
bits, so times are compared modulo `2 ^ 32`. Every call runs under `list_lock` with interrupts off,
in one jiffy.

The statistics of `CONFIG_WAKELOCK_STAT` and the log messages are left out: no decision reads them.
-/

import Mathlib.Data.BitVec
import KernelImx.Errno

namespace KernelImx.Power

inductive WakeLockType
  | suspend
  | idle
  deriving DecidableEq, Repr

/-- `struct wake_lock`, with the bits of its flags. -/
structure WakeLock where
  name : String
  type : WakeLockType
  initialized : Bool
  active : Bool
  autoExpire : Bool
  expires : BitVec 32

/-- The lists hold the addresses of the locks. -/
structure WakeState where
  locks : Nat → WakeLock
  activeWakeLocks : WakeLockType → List Nat
  inactiveLocks : List Nat
  jiffies : BitVec 32
  /-- The jiffy of `expire_timer` when it is pending. -/
  expireTimer : Option (BitVec 32)
  /-- How often `suspend_work` was queued. -/
  suspendWork : Nat
  currentEventNum : BitVec 32
  /-- `entry_event_num` of a `suspend` that is in `pm_suspend`. -/
  suspending : Option (BitVec 32)

def longMax : BitVec 32 := 0x7fffffff

/-- `HZ / 2` -/
def halfSecond : BitVec 32 := 50

/-! ### Locks and lists -/

variable (s : WakeState)

def WakeState.setLock (id : Nat) (lock : WakeLock) : WakeState :=
  { s with locks := fun other => if other = id then lock else s.locks other }

/-- `list_del(&lock->link)`: a lock is on one list. -/
def WakeState.listDel (id : Nat) : WakeState :=
  { s with activeWakeLocks := fun type => (s.activeWakeLocks type).filter (· ≠ id),
           inactiveLocks := s.inactiveLocks.filter (· ≠ id) }

variable (type : WakeLockType)

def WakeState.setActive (list : List Nat) : WakeState :=
  { s with activeWakeLocks := fun other => if other = type then list else s.activeWakeLocks other }

/-- `lock->expires - jiffies`, as a `long` -/
def WakeState.timeout (id : Nat) : Int := ((s.locks id).expires - s.jiffies).toInt

def expireWakeLock (id : Nat) : WakeState :=
  let s := (s.setLock id { s.locks id with active := false, autoExpire := false }).listDel id
  { s with inactiveLocks := id :: s.inactiveLocks }

/-! ### The scan of the lock paths -/

/-- The loop of `has_wake_lock_locked`, with `max_timeout`. -/
def hasWakeLockLockedLoop : List Nat → Int → WakeState → WakeState × Int
  | [], maxTimeout, s => (s, maxTimeout)
  | id :: rest, maxTimeout, s =>
    if (s.locks id).autoExpire then
      if s.timeout id ≤ 0 then hasWakeLockLockedLoop rest maxTimeout (expireWakeLock s id)
      else if s.timeout id > maxTimeout then hasWakeLockLockedLoop rest (s.timeout id) s
      else hasWakeLockLockedLoop rest maxTimeout s
    else (s, -1)

/-- The scan of the timer and of the lock paths. -/
def hasWakeLockLocked : WakeState × Int :=
  hasWakeLockLockedLoop (s.activeWakeLocks type) 0 s

def queueWork : WakeState := { s with suspendWork := s.suspendWork + 1 }

/-- What `wake_lock_internal` and `wake_unlock` do with the result of the scan. -/
def setExpireTimer (expireIn : Int) : WakeState :=
  if expireIn > 0 then { s with expireTimer := some (s.jiffies + BitVec.ofInt 32 expireIn) }
  else
    let s := { s with expireTimer := none }
    if expireIn = 0 then queueWork s else s

/-! ### Taking and releasing a lock -/

/-- The lock goes to the tail of its list with a timeout, and to the head without. -/
def activate (id : Nat) (timeout : BitVec 32) (hasTimeout : Bool) : WakeState :=
  let lock := s.locks id
  let s := s.listDel id
  if hasTimeout then
    (s.setLock id { lock with active := true, autoExpire := true, expires := s.jiffies + timeout }).setActive
      lock.type (s.activeWakeLocks lock.type ++ [id])
  else
    (s.setLock id { lock with active := true, autoExpire := false, expires := longMax }).setActive
      lock.type (id :: s.activeWakeLocks lock.type)

/-- `wake_lock_internal` after its two `BUG_ON`s. -/
def takeWakeLock (id : Nat) (timeout : BitVec 32) (hasTimeout : Bool) : WakeState :=
  let type := (s.locks id).type
  let s := activate s id timeout hasTimeout
  if type = .suspend then
    let s := { s with currentEventNum := s.currentEventNum + 1 }
    if hasTimeout then
      let (s, expireIn) := hasWakeLockLocked s type
      setExpireTimer s expireIn
    else setExpireTimer s (-1)
  else s

def wakeLockInternal (id : Nat) (timeout : BitVec 32) (hasTimeout : Bool) : Option WakeState :=
  if (s.locks id).initialized then some (takeWakeLock s id timeout hasTimeout) else none

def wakeUnlock (id : Nat) : WakeState :=
  let type := (s.locks id).type
  -- the flags and the lists change as when the lock expires
  let s := expireWakeLock s id
  if type = .suspend then
    let (s, hasLock) := hasWakeLockLocked s type
    setExpireTimer s hasLock
  else s

/-- `expire_wake_locks`, the function of the timer. -/
def expireWakeLocks : WakeState :=
  let (s, hasLock) := hasWakeLockLocked s .suspend
  if hasLock = 0 then queueWork s else s

/-! ### The scan of the suspend decision -/

def hasWakeLockLockedTestLoop : List Nat → Int → WakeState → WakeState × Int
  | [], maxTimeout, s => (s, maxTimeout)
  | id :: rest, maxTimeout, s =>
    if (s.locks id).autoExpire then
      if s.timeout id ≤ 0 then hasWakeLockLockedTestLoop rest maxTimeout (expireWakeLock s id)
      else if s.timeout id > maxTimeout then hasWakeLockLockedTestLoop rest 0 (expireWakeLock s id)
      else hasWakeLockLockedTestLoop rest maxTimeout s
    else if (s.locks id).name = "PowerManagerService" then (wakeUnlock s id, 0)
    else (s, -1)

/-- The scan of `has_wake_lock`, which decides about suspend. -/
def hasWakeLockLockedTest : WakeState × Int :=
  hasWakeLockLockedTestLoop (s.activeWakeLocks type) 0 s

def hasWakeLock : WakeState × Int :=
  hasWakeLockLockedTest s type

def powerSuspendLate : WakeState × Except Errno Unit :=
  let (s, has) := hasWakeLock s .suspend
  (s, if has ≠ 0 then .error .eagain else .ok ())

/-- `suspend` up to `pm_suspend`. -/
def suspend : WakeState :=
  let (s, has) := hasWakeLock s .suspend
  if has ≠ 0 then s else { s with suspending := some s.currentEventNum }

/-- The address of `unknown_wakeup`. -/
def unknownWakeup : Nat := 1

/-- `suspend` after `pm_suspend`: a lock for half a second when no lock was taken. -/
def suspendEnd : Option WakeState :=
  match s.suspending with
  | none => none
  | some entryEventNum =>
    let s := { s with suspending := none }
    if s.currentEventNum = entryEventNum then wakeLockInternal s unknownWakeup halfSecond true
    else some s

/-! ### The system -/

def wakeLockInit (id : Nat) (type : WakeLockType) (name : String) : WakeState :=
  let s := s.setLock id { s.locks id with name := name, type := type, initialized := true,
                                          active := false, autoExpire := false }
  { s with inactiveLocks := id :: s.inactiveLocks }

def wakeLockDestroy (id : Nat) : WakeState :=
  (s.setLock id { s.locks id with initialized := false }).listDel id

/-- After `wakelocks_init`: `main_wake_lock` is held. -/
def wakelocksInit (jiffies : BitVec 32) : WakeState :=
  let s : WakeState :=
    ⟨fun _ => ⟨"", .suspend, false, false, false, 0⟩, fun _ => [], [], jiffies, none, 0, 0, none⟩
  let s := takeWakeLock (wakeLockInit s 0 .suspend "main") 0 0 false
  wakeLockInit s unknownWakeup .suspend "unknown_wakeups"

inductive WakeCall
  | init (id : Nat) (type : WakeLockType) (name : String)
  | destroy (id : Nat)
  | lock (id : Nat)
  | lockTimeout (id : Nat) (timeout : BitVec 32)
  | unlock (id : Nat)
  /-- Jiffies pass. -/
  | pass (jiffies : BitVec 32)
  /-- `expire_timer` fires, at its jiffy or later. -/
  | timer
  | suspend
  | suspendLate
  | suspendEnd
  deriving DecidableEq

/-- `time_after_eq(a, b)` -/
def timeAfterEq (a b : BitVec 32) : Bool := 0 ≤ (a - b).toInt

/-- A call; a lock is initialised once and used while it is. -/
def wakeStep : WakeCall → Option WakeState
  | .init id type name => if (s.locks id).initialized then none else some (wakeLockInit s id type name)
  | .destroy id => if (s.locks id).initialized then some (wakeLockDestroy s id) else none
  | .lock id => wakeLockInternal s id 0 false
  | .lockTimeout id timeout => wakeLockInternal s id timeout true
  | .unlock id => if (s.locks id).initialized then some (wakeUnlock s id) else none
  | .pass jiffies => some { s with jiffies := s.jiffies + jiffies }
  | .timer =>
    match s.expireTimer with
    | none => none
    | some expires =>
      if timeAfterEq s.jiffies expires then some (expireWakeLocks { s with expireTimer := none })
      else none
  | .suspend => if s.suspending.isSome then none else some (suspend s)
  | .suspendLate => if s.suspending.isSome then some (powerSuspendLate s).1 else none
  | .suspendEnd => suspendEnd s

end KernelImx.Power
