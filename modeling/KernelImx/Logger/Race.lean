/-
**Concurrent writes to one log.**

`logger_aio_write` reads `orig = log->w_off` before it takes `log->mutex`. The calls are interleaved
here at the points the source allows: the unlocked read, taking the mutex, each copy under the
mutex, and the release. A call remembers the write offset it found when it took the mutex and the
one it left when it released it.

* **`failed_write_keeps_offset`**: in every run in which each call takes the mutex while the write
  offset is still the one it read, a call that fails leaves the offset it found.
-/

import KernelImx.Lib.Runs
import KernelImx.Logger.Write

namespace KernelImx.Logger

open Function KernelImx.Lib List

/-! ### The calls in flight -/

/-- Where a call of `logger_aio_write` is. `atLock` and `atUnlock` are the write offsets it found and
left. -/
inductive WritePhase
  | idle
  | sampled (iov : List Iovec) (stamp : LoggerEntry) (orig : Nat)
  | locked (iov : List Iovec) (stamp : LoggerEntry) (orig atLock : Nat)
  | copying (headerLen : Nat) (rest : List Iovec) (ret orig atLock : Nat)
  | failed (err : Errno) (orig atLock : Nat)
  | done (result : Except Errno Nat) (orig atLock atUnlock : Nat)

/-- The log, its mutex and the calls. -/
structure RaceState where
  log : LoggerLog
  mutex : Option Nat
  call : Nat → WritePhase

/-- The log of `LoggerState.init` and no call. -/
def RaceState.init (size : Nat) (buffer : Nat → UInt8) : RaceState where
  log := { buffer := buffer, readers := [], wOff := 0, head := 0, size := size }
  mutex := none
  call := fun _ => .idle

/-- The atomic steps of a call. -/
inductive RaceLabel
  | sample (id : Nat) (iov : List Iovec) (stamp : LoggerEntry)
  | lock (id : Nat)
  | header (id : Nat)
  | segment (id : Nat)
  | unlock (id : Nat)
  deriving DecidableEq, Repr

variable (state : RaceState)

def RaceState.setCall (id : Nat) (phase : WritePhase) : RaceState :=
  { state with call := update state.call id phase }

def writeStep : RaceLabel → Option RaceState
  | .sample id iov stamp =>
    match state.call id with
    | .idle =>
      -- a null write returns without the mutex
      if (writeHeader iov stamp).len = 0 then some state
      else some (state.setCall id (.sampled iov stamp state.log.wOff))
    | _ => none
  | .lock id =>
    match state.mutex, state.call id with
    | none, .sampled iov stamp orig =>
      some { state.setCall id (.locked iov stamp orig state.log.wOff) with mutex := some id }
    | _, _ => none
  | .header id =>
    match state.call id with
    | .locked iov stamp orig atLock =>
      let header := writeHeader iov stamp
      let log := fixUpReaders state.log (sizeofLoggerEntry + header.len.toNat)
      some { state.setCall id (.copying header.len.toNat iov 0 orig atLock) with
        log := doWriteLog log header.bytes }
    | _ => none
  | .segment id =>
    match state.call id with
    | .copying headerLen (iov :: rest) ret orig atLock =>
      match doWriteLogFromUser state.log iov (min iov.base.length (headerLen - ret)) with
      | (log, .error err) =>
        some { state.setCall id (.failed err orig atLock) with log := { log with wOff := orig } }
      | (log, .ok nr) =>
        some { state.setCall id (.copying headerLen rest (ret + nr) orig atLock) with log := log }
    | _ => none
  | .unlock id =>
    match state.call id with
    | .copying _ [] ret orig atLock =>
      some { state.setCall id (.done (.ok ret) orig atLock state.log.wOff) with mutex := none }
    | .failed err orig atLock =>
      some { state.setCall id (.done (.error err) orig atLock state.log.wOff) with mutex := none }
    | _ => none

/-! ### A call that runs alone -/

/-- The segments of a call, one step each, are the loop of `logger_aio_write`. -/
theorem segments_alone (id headerLen orig atLock : Nat) (iov : List Iovec) (state : RaceState)
    (ret : Nat) (phase : state.call id = .copying headerLen iov ret orig atLock) :
    ∃ count last, exec writeStep state (replicate count (.segment id) ++ [.unlock id]) = some last ∧
      last.log = (writeSegments orig headerLen state.log iov ret).1 := by
  induction iov generalizing state ret with
  | nil =>
    refine ⟨0, { state.setCall id (.done (.ok ret) orig atLock state.log.wOff) with mutex := none },
      ?_, rfl⟩
    simp [exec, writeStep, phase]
  | cons iov rest ih =>
    rw [writeSegments]
    cases outcome : doWriteLogFromUser state.log iov (min iov.base.length (headerLen - ret)) with
    | mk log result =>
      cases result with
      | error err =>
        refine ⟨1, { (state.setCall id (.failed err orig atLock)).setCall id
            (.done (.error err) orig atLock orig) with
          mutex := none, log := { log with wOff := orig } }, ?_, rfl⟩
        simp [exec, writeStep, phase, outcome, RaceState.setCall]
      | ok nr =>
        obtain ⟨count, last, run, sameLog⟩ :=
          ih { state.setCall id (.copying headerLen rest (ret + nr) orig atLock) with log := log }
            (ret + nr) (update_self _ _ _)
        refine ⟨count + 1, last, ?_, sameLog⟩
        rw [replicate_succ, cons_append, exec_cons]
        exact ⟨_, by simp [writeStep, phase, outcome], run⟩

/-- **A call that is not interleaved after its read is `loggerAioWriteLocked`.** -/
theorem writeStep_alone (id orig : Nat) (iov : List Iovec) (stamp : LoggerEntry)
    (free : state.mutex = none) (phase : state.call id = .sampled iov stamp orig) :
    ∃ count last, exec writeStep state
        ([.lock id, .header id] ++ (replicate count (.segment id) ++ [.unlock id])) = some last ∧
      last.log = (loggerAioWriteLocked state.log orig (writeHeader iov stamp) iov).1 := by
  obtain ⟨count, last, run, sameLog⟩ := segments_alone id (writeHeader iov stamp).len.toNat orig
    state.log.wOff iov
    { state with
      mutex := some id
      log := doWriteLog (fixUpReaders state.log
        (sizeofLoggerEntry + (writeHeader iov stamp).len.toNat)) (writeHeader iov stamp).bytes
      call := update (update state.call id (.locked iov stamp orig state.log.wOff)) id
        (.copying (writeHeader iov stamp).len.toNat iov 0 orig state.log.wOff) }
    0 (update_self _ _ _)
  refine ⟨count, last, ?_, sameLog⟩
  rw [cons_append, exec_cons]
  refine ⟨{ state.setCall id (.locked iov stamp orig state.log.wOff) with mutex := some id },
    by simp [writeStep, free, phase], ?_⟩
  rw [cons_append, exec_cons]
  exact ⟨_, by simp [writeStep, RaceState.setCall], run⟩

/-! ### The offset a failed call leaves -/

/-- A call inside the mutex holds it; one that has faulted put `orig` back. In a `fresh` run this is
the offset it found at its lock. -/
def WritePhase.Remembers (fresh : Prop) (mutex : Option Nat) (wOff id : Nat) : WritePhase → Prop
  | .locked _ _ orig atLock | .copying _ _ _ orig atLock => mutex = some id ∧ (fresh → orig = atLock)
  | .failed _ orig atLock => mutex = some id ∧ (fresh → orig = atLock) ∧ wOff = orig
  | .done (.error _) orig atLock atUnlock => atUnlock = orig ∧ (fresh → orig = atLock)
  | _ => True

/-- Who holds the mutex, and that a call that has faulted has put `orig` back. -/
def Guarded (fresh : Prop) (state : RaceState) : Prop :=
  ∀ id, (state.call id).Remembers fresh state.mutex state.log.wOff id

/-- The condition on the runs: a call takes the mutex while the write offset is the one it read. -/
def LocksFresh : RaceLabel → Prop
  | .lock id => ∀ iov stamp orig, state.call id = .sampled iov stamp orig → orig = state.log.wOff
  | _ => True

variable {fresh : Prop}

theorem WritePhase.Remembers.outside {phase : WritePhase} {mutex mutex' : Option Nat}
    {wOff wOff' id : Nat} (own : phase.Remembers fresh mutex wOff id) (not_held : mutex ≠ some id) :
    phase.Remembers fresh mutex' wOff' id := by
  cases phase with
  | idle | sampled => trivial
  | locked | copying | failed => exact absurd own.1 not_held
  | done result => cases result <;> exact own

theorem writeStep_guarded {state next : RaceState} {label : RaceLabel} (guarded : Guarded fresh state)
    (good : fresh → LocksFresh state label) (taken : writeStep state label = some next) :
    Guarded fresh next := by
  have moved {id wOff : Nat} {phase : WritePhase} {mutex : Option Nat}
      (own : phase.Remembers fresh mutex wOff id)
      (others : ∀ other ≠ id, (state.call other).Remembers fresh mutex wOff other) :
      ∀ other, (update state.call id phase other).Remembers fresh mutex wOff other :=
    (forall_update_iff _ fun other phase => WritePhase.Remembers fresh mutex wOff other phase).mpr
      ⟨own, others⟩
  have alone {id wOff : Nat} {mutex : Option Nat} (mine : state.mutex = some id) :
      ∀ other ≠ id, (state.call other).Remembers fresh mutex wOff other := fun other differs =>
    (guarded other).outside fun theirs => differs (Option.some.inj (theirs.symm.trans mine))
  cases label with
  | sample id iov stamp =>
    simp only [writeStep] at taken
    split at taken
    · split at taken
      · cases taken
        exact guarded
      · cases taken
        exact moved trivial fun other _ => guarded other
    · cases taken
  | lock id =>
    simp only [writeStep] at taken
    split at taken
    next iov stamp orig free phase =>
      cases taken
      exact moved ⟨rfl, fun isFresh => good isFresh iov stamp orig phase⟩ fun other _ =>
        (guarded other).outside (free ▸ nofun)
    · cases taken
  | header id =>
    have mine := guarded id
    simp only [writeStep] at taken
    split at taken
    next phase =>
      cases taken
      rw [phase] at mine
      exact moved mine (alone mine.1)
    · cases taken
  | segment id =>
    have mine := guarded id
    simp only [writeStep] at taken
    split at taken
    next phase =>
      rw [phase] at mine
      split at taken
      · cases taken
        exact moved ⟨mine.1, mine.2, rfl⟩ (alone mine.1)
      · cases taken
        exact moved mine (alone mine.1)
    · cases taken
  | unlock id =>
    have mine := guarded id
    simp only [writeStep] at taken
    split at taken
    next phase =>
      cases taken
      rw [phase] at mine
      exact moved trivial (alone mine.1)
    next phase =>
      cases taken
      rw [phase] at mine
      exact moved ⟨mine.2.2, mine.2.1⟩ (alone mine.1)
    · cases taken

theorem init_guarded (size : Nat) (buffer : Nat → UInt8) : Guarded fresh (.init size buffer) :=
  fun _ => trivial

/-- **No lost entry**: every call that has failed left the write offset it found when it took the
mutex. -/
def NoLostEntry : Prop :=
  ∀ id err orig atLock atUnlock, state.call id = .done (.error err) orig atLock atUnlock →
    atUnlock = atLock

/-- A failed call leaves the offset it found exactly when the offset it read before was still the
write offset at its lock. -/
theorem failed_write_keeps_offset_iff (size : Nat) (buffer : Nat → UInt8) (labels : List RaceLabel)
    (state : RaceState) (run : exec writeStep (RaceState.init size buffer) labels = some state)
    {id orig atLock atUnlock : Nat} {err : Errno}
    (phase : state.call id = .done (.error err) orig atLock atUnlock) :
    atUnlock = atLock ↔ orig = atLock := by
  have left : atUnlock = orig := by
    have own := exec_invariant (Guarded False)
      (fun _ _ _ guarded taken => writeStep_guarded guarded nofun taken)
      (init_guarded size buffer) run id
    rw [phase] at own
    exact own.1
  rw [left]

/-- **A failed write keeps the offset it found** when each call takes the mutex while the offset is
still the one it read; where it is not, a call that fails loses the offset it found. -/
theorem failed_write_keeps_offset (size : Nat) (buffer : Nat → UInt8) (labels : List RaceLabel)
    (state : RaceState) (run : exec writeStep (RaceState.init size buffer) labels = some state) :
    (Along writeStep LocksFresh (RaceState.init size buffer) labels → NoLostEntry state) ∧
      (NoLostEntry state ↔ ∀ id err orig atLock atUnlock,
        state.call id = .done (.error err) orig atLock atUnlock → orig = atLock) := by
  refine ⟨fun along id err orig atLock atUnlock phase => ?_, ?_⟩
  · have own := exec_invariant_along (Guarded True)
      (fun _ _ _ guarded good taken => writeStep_guarded guarded (fun _ => good) taken)
      (init_guarded size buffer) along run id
    rw [phase] at own
    exact own.1.trans (own.2 trivial)
  · exact forall₅_congr fun id err orig atLock atUnlock => imp_congr_right fun phase =>
      failed_write_keeps_offset_iff size buffer labels state run phase

/-- Call `0` reads the write offset, call `1` writes an entry, call `0` faults. -/
def lostEntryRun : List RaceLabel :=
  [.sample 0 [⟨[1], 0⟩] ⟨0, 0, 0, 0, 0, 0⟩, .sample 1 [⟨[2], 1⟩] ⟨0, 0, 0, 0, 0, 0⟩,
    .lock 1, .header 1, .segment 1, .unlock 1, .lock 0, .header 0, .segment 0, .unlock 0]

/-- Both calls read the write offset; call `0` faults, and then call `1` writes an entry. -/
def keptEntryRun : List RaceLabel :=
  [.sample 0 [⟨[1], 0⟩] ⟨0, 0, 0, 0, 0, 0⟩, .sample 1 [⟨[2], 1⟩] ⟨0, 0, 0, 0, 0, 0⟩,
    .lock 0, .header 0, .segment 0, .unlock 0, .lock 1, .header 1, .segment 1, .unlock 1]

theorem failed_write_keeps_offset_two_calls :
    ∃ state, exec writeStep (RaceState.init (2 ^ 13) fun _ => 0) keptEntryRun = some state ∧
      state.call 0 = .done (.error .efault) 0 0 0 ∧ state.log.wOff = 21 ∧ NoLostEntry state := by
  refine ⟨_, rfl, rfl, rfl, (failed_write_keeps_offset (2 ^ 13) (fun _ => 0) keptEntryRun _ rfl).1 ?_⟩
  iterate 2
    refine ⟨trivial, fun next taken => ?_⟩
    cases taken
  iterate 2
    refine ⟨fun iov stamp orig phase => ?_, fun next taken => ?_⟩
    · cases phase
      rfl
    cases taken
    iterate 3
      refine ⟨trivial, fun next taken => ?_⟩
      cases taken
  trivial

/-- **A lost entry**: the entry of call `1` is complete, and call `0` takes it back. -/
theorem lost_entry :
    ¬ ∀ (labels : List RaceLabel) (state : RaceState),
      exec writeStep (RaceState.init (2 ^ 13) fun _ => 0) labels = some state → NoLostEntry state := by
  intro claim
  have lost := claim lostEntryRun _ rfl 0 .efault 0 21 0 rfl
  cases lost

end KernelImx.Logger
