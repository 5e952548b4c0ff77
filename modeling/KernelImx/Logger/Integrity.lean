/-
**The log keeps whole entries, in order.**

Runs of the driver whose calls are serialised by `log->mutex`: writes (each may fault at any
segment), reads, opens, ioctls and releases. `LoggerState.written` collects the entries of the
writes that succeeded.

Main results: `logger_integrity`, `logger_queries`.
-/

import KernelImx.Lib.Runs
import KernelImx.Logger.Write

namespace KernelImx.Logger

open List KernelImx.Lib
open Function (update update_self update_of_ne)

/-! ### Runs -/

/-- The log and the entries of the writes that succeeded. -/
structure LoggerState where
  log : LoggerLog
  written : List (List UInt8)

/-- A log as `DEFINE_LOGGER_DEVICE` sets it up. -/
def LoggerState.init (size : Nat) (buffer : Nat → UInt8) : LoggerState where
  log := { buffer := buffer, readers := [], wOff := 0, head := 0, size := size }
  written := []

/-- One call of the driver. -/
inductive LoggerOp
  | write (iov : List Iovec) (stamp : LoggerEntry)
  | read (id count writable : Nat)
  | openReader (id : Nat)
  | ioctl (id : Option Nat) (writes : Bool) (cmd : LoggerCmd)
  | release (id : Nat)

def LoggerLog.reader? (log : LoggerLog) (id : Nat) : Option LoggerReader :=
  log.readers.find? fun reader => reader.id = id

/-- A call that runs alone under `log->mutex`. A write reads `orig` just before. -/
def loggerStep (state : LoggerState) : LoggerOp → Option LoggerState
  | .write iov stamp =>
    match loggerAioWrite state.log state.log.wOff iov stamp with
    | (log, .error _) => some { state with log := log }
    | (log, .ok count) =>
      -- a null write adds nothing
      if count = 0 then some { state with log := log }
      else some { log := log, written := state.written ++ [writtenEntry iov stamp] }
  | .read id count writable =>
    (state.log.reader? id).bind fun reader =>
      match loggerRead state.log reader count writable with
      | .error _ => some state
      | .ok (_, after) =>
        some { state with
          log := { state.log with
            readers := state.log.readers.map fun other => if other.id = id then after else other } }
  | .openReader id =>
    match state.log.reader? id with
    | some _ => none
    | none => some { state with log := loggerOpen state.log id }
  | .ioctl id writes cmd =>
    some { state with log := (loggerIoctl state.log (id.bind state.log.reader?) writes cmd).1 }
  | .release id => some { state with log := loggerRelease state.log id }

/-! ### The queues of the readers -/

/-- The entries that each reader, by its id, has still to read, and those for a new one. -/
structure Queues where
  head : List (List UInt8)
  reader : Nat → List (List UInt8)

/-- The same change of all queues. -/
def Queues.map (change : List (List UInt8) → List (List UInt8)) (queues : Queues) : Queues :=
  ⟨change queues.head, fun id => change (queues.reader id)⟩

/-- **What a log is for.** A write makes room in every queue and, if it does not fault, adds its
entry to all; a read takes the first entry; a new reader begins with the queue of the head. -/
def queueStep (state : LoggerState) (queues : Queues) : LoggerOp → Queues
  | .write iov stamp =>
    let entry := writtenEntry iov stamp
    match (loggerAioWrite state.log state.log.wOff iov stamp).2 with
    | .error _ => queues.map (makeRoom state.log.size entry.length)
    | .ok count =>
      if count = 0 then queues
      else queues.map fun entries => makeRoom state.log.size entry.length entries ++ [entry]
  | .read id count writable =>
    match (state.log.reader? id).map fun reader => loggerRead state.log reader count writable with
    | some (.ok _) => { queues with reader := update queues.reader id (queues.reader id).tail }
    | _ => queues
  | .openReader id => { queues with reader := update queues.reader id queues.head }
  | .ioctl _ writes .flushLog => if writes then queues.map fun _ => [] else queues
  | .ioctl _ _ _ | .release _ => queues

/-- The queues after a run. -/
def queuesAfter : LoggerState → Queues → List LoggerOp → Queues
  | _, queues, [] => queues
  | state, queues, op :: rest =>
    match loggerStep state op with
    | none => queues
    | some next => queuesAfter next (queueStep state queues op) rest

/-- Nobody reads yet. -/
def noQueues : Queues := ⟨[], fun _ => []⟩

/-- **The invariant of a log**: the offsets retain the entries of their queues, which were written. -/
structure Intact (size : Nat) (state : LoggerState) (queues : Queues) : Prop where
  size : state.log.size = size
  wOffIn : state.log.wOff < state.log.size
  head : Retains state.log state.log.head queues.head
  readers : ∀ reader ∈ state.log.readers, Retains state.log reader.rOff (queues.reader reader.id)
  written : queues.head <:+ state.written ∧ ∀ id, queues.reader id <:+ state.written

theorem init_intact {size : Nat} (sized : LogSize size) (buffer : Nat → UInt8) :
    Intact size (LoggerState.init size buffer) noQueues where
  size := rfl
  wOffIn := sized.pos
  head := Retains.nil sized.pos
  readers := by simp [LoggerState.init]
  written := ⟨suffix_refl _, fun _ => suffix_refl _⟩

variable {log after : LoggerLog} {entries : List (List UInt8)} {off : Nat}

/-- The readers and the head are of no account to what an offset retains. -/
theorem Retains.congr (retained : Retains log off entries) {readers : List LoggerReader} {head : Nat} :
    Retains { log with readers := readers, head := head } off entries :=
  { retained with }

theorem Retains.rolledBack {total : Nat} (sized : LogSize log.size) (retained : Retains log off entries)
    (positive : 0 < total) (small : total ≤ loggerEntryMaxLen)
    (failed : RolledBack (fixUpReaders log total) after log.wOff total) :
    Retains after (pullForward log total off) (makeRoom log.size total entries) := by
  obtain ⟨pulled, room⟩ := pullForward_retains sized retained positive small
  exact pulled.frame room failed.size failed.wOff failed.frame

theorem Retains.written {entry : List UInt8} (sized : LogSize log.size)
    (retained : Retains log off entries) (well : WellSized entry)
    (done : Progress (fixUpReaders log entry.length) after entry.length entry) :
    Retains after (pullForward log entry.length off)
      (makeRoom log.size entry.length entries ++ [entry]) := by
  have positive : 0 < entry.length := lt_of_lt_of_le (by decide) well.header
  obtain ⟨pulled, room⟩ := pullForward_retains sized retained positive well.small
  exact pulled.append room well done.size done.wOff done.frame done.bytes

variable {size : Nat} {state next : LoggerState} {queues : Queues}

theorem write_intact (sized : LogSize size) (intact : Intact size state queues) {iov : List Iovec}
    {stamp : LoggerEntry} (taken : loggerStep state (.write iov stamp) = some next) :
    Intact size next (queueStep state queues (.write iov stamp)) := by
  have logSized : LogSize state.log.size := intact.size ▸ sized
  have well := writtenEntry_wellSized iov stamp
  have length := writtenEntry_length iov stamp
  simp only [loggerStep, queueStep, loggerAioWrite] at taken ⊢
  by_cases null : (writeHeader iov stamp).len = 0
  · simp only [if_pos null, if_true, Option.some.injEq] at taken ⊢
    subst taken
    exact intact
  simp only [if_neg null] at taken ⊢
  have spec := loggerAioWriteLocked_spec logSized intact.wOffIn state.log.wOff iov stamp
  simp only [← length] at spec
  generalize loggerAioWriteLocked state.log state.log.wOff (writeHeader iov stamp) iov = result
    at spec taken ⊢
  obtain ⟨after, outcome⟩ := result
  have positive : 0 < (writtenEntry iov stamp).length := lt_of_lt_of_le (by decide) well.header
  rcases spec with ⟨err, failed, rolled⟩ | ⟨success, done⟩
  · simp only at failed rolled
    subst failed
    simp only [Option.some.injEq] at taken
    subst taken
    refine ⟨rolled.size.trans intact.size, ?_, ?_, fun reader member => ?_,
      (makeRoom_suffix _ _ _).trans intact.written.1,
      fun id => (makeRoom_suffix _ _ _).trans (intact.written.2 id)⟩
    · rw [rolled.wOff, rolled.size]
      exact intact.wOffIn
    · rw [rolled.head]
      exact intact.head.rolledBack logSized positive well.small rolled
    · simp only [rolled.readers] at member
      obtain ⟨old, oldMember, rfl⟩ := mem_map.mp member
      exact (intact.readers old oldMember).rolledBack logSized positive well.small rolled
  simp only at success done
  subst success
  have nonzero : ¬ (writeHeader iov stamp).len.toNat = 0 := fun zero =>
    null (UInt16.toNat_inj.mp (zero.trans UInt16.toNat_zero.symm))
  simp only [if_neg nonzero, Option.some.injEq] at taken ⊢
  subst taken
  have appended : ∀ {entries}, entries <:+ state.written →
      makeRoom state.log.size (writtenEntry iov stamp).length entries ++ [writtenEntry iov stamp] <:+
        state.written ++ [writtenEntry iov stamp] := by
    intro entries suffix
    obtain ⟨front, same⟩ :=
      (makeRoom_suffix state.log.size (writtenEntry iov stamp).length entries).trans suffix
    exact ⟨front, by rw [← append_assoc, same]⟩
  refine ⟨done.size.trans intact.size, ?_, ?_, fun reader member => ?_, appended intact.written.1,
    fun id => appended (intact.written.2 id)⟩
  · rw [done.wOff, done.size]
    exact Nat.mod_lt _ logSized.pos
  · rw [done.head]
    exact intact.head.written logSized well done
  · simp only [done.readers] at member
    obtain ⟨old, oldMember, rfl⟩ := mem_map.mp member
    exact (intact.readers old oldMember).written logSized well done

theorem loggerRead_id {reader after : LoggerReader} {count writable : Nat} {bytes : List UInt8}
    (success : loggerRead log reader count writable = .ok (bytes, after)) : after.id = reader.id := by
  unfold loggerRead doReadLogToUser at success
  dsimp only at success
  split_ifs at success
  cases success
  rfl

/-- A read returns the first entry that the reader's offset retains, and leaves the others. -/
theorem loggerRead_retains (sized : LogSize log.size) {reader after : LoggerReader}
    (retained : Retains log reader.rOff entries)
    {count writable : Nat} {bytes : List UInt8}
    (success : loggerRead log reader count writable = .ok (bytes, after)) :
    ∃ rest, entries = bytes :: rest ∧ Retains log after.rOff rest := by
  unfold loggerRead at success
  by_cases empty : log.wOff = reader.rOff
  · simp [if_pos empty] at success
  rw [if_neg empty] at success
  by_cases short : count < getEntryLen log reader.rOff
  · simp [if_pos short] at success
  rw [if_neg short] at success
  obtain ⟨entry, rest, rfl⟩ : ∃ entry rest, entries = entry :: rest :=
    exists_cons_of_ne_nil fun last => empty (retained.at_end_iff.mpr last).symm
  obtain ⟨len, contents⟩ := retained.first
  have fits : entry.length ≤ log.size :=
    le_trans (retained.sized entry (by simp)).small (le_of_lt sized.large)
  simp only [doReadLogToUser, len] at success
  split at success
  · cases success
  split at success
  · cases success
  cases success
  refine ⟨rest, ?_, ?_⟩
  · rw [← ringRead_eq_cellsFrom log.buffer retained.offIn fits, contents]
  · simp only [loggerOffset_eq_mod sized]
    exact retained.tail

theorem update_suffix {reader : Nat → List (List UInt8)} {written : List (List UInt8)} (id : Nat)
    (new : entries <:+ written) (old : ∀ other, reader other <:+ written) (other : Nat) :
    update reader id entries other <:+ written := by
  by_cases same : other = id
  · rw [same, update_self]
    exact new
  · rw [update_of_ne same]
    exact old other

theorem read_intact (sized : LogSize size) (intact : Intact size state queues) {id count writable : Nat}
    (taken : loggerStep state (.read id count writable) = some next) :
    Intact size next (queueStep state queues (.read id count writable)) := by
  have logSized : LogSize state.log.size := intact.size ▸ sized
  simp only [loggerStep, Option.bind_eq_some_iff] at taken
  obtain ⟨reader, found, taken⟩ := taken
  have member : reader ∈ state.log.readers := mem_of_find?_eq_some found
  have named : reader.id = id := by simpa using find?_some found
  simp only [queueStep, found, Option.map_some]
  cases read : loggerRead state.log reader count writable with
  | error err =>
    rw [read] at taken
    cases taken
    exact intact
  | ok answer =>
    obtain ⟨bytes, after⟩ := answer
    rw [read] at taken
    cases taken
    obtain ⟨rest, entries, kept⟩ := loggerRead_retains logSized (intact.readers reader member) read
    rw [named] at entries
    refine ⟨intact.size, intact.wOffIn, intact.head.congr, fun other inside => ?_, intact.written.1,
      update_suffix id ((tail_suffix _).trans (intact.written.2 id)) intact.written.2⟩
    · obtain ⟨old, oldMember, rfl⟩ := mem_map.mp inside
      by_cases same : old.id = id
      · have stays : after.id = id := by
          rw [← named]
          exact loggerRead_id read
        simp only [if_pos same, stays, update_self, entries, tail_cons]
        exact kept.congr
      · simp only [if_neg same, update_of_ne same]
        exact (intact.readers old oldMember).congr

theorem ioctl_intact (intact : Intact size state queues) (id : Option Nat) (writes : Bool)
    (cmd : LoggerCmd) :
    Intact size { state with log := (loggerIoctl state.log (id.bind state.log.reader?) writes cmd).1 }
      (queueStep state queues (.ioctl id writes cmd)) := by
  cases cmd with
  | getLogBufSize => exact intact
  | getLogLen | getNextEntryLen =>
    cases id.bind state.log.reader? with
    | none => exact intact
    | some reader =>
      simp only [loggerIoctl]
      split <;> exact intact
  | flushLog =>
    cases writes with
    | false => exact intact
    | true =>
      have empty : ∀ readers head, Retains { state.log with readers := readers, head := head }
          state.log.wOff [] := fun readers head => Retains.nil intact.wOffIn
      refine ⟨intact.size, intact.wOffIn, empty _ _, fun reader member => ?_, nil_suffix,
        fun _ => nil_suffix⟩
      obtain ⟨old, -, rfl⟩ := mem_map.mp member
      exact empty _ _

/-- **A call moves the queues as it moves the ring.** -/
theorem loggerStep_intact (sized : LogSize size) (op : LoggerOp) (intact : Intact size state queues)
    (taken : loggerStep state op = some next) : Intact size next (queueStep state queues op) := by
  cases op with
  | write iov stamp => exact write_intact sized intact taken
  | read id count writable => exact read_intact sized intact taken
  | openReader id =>
    simp only [loggerStep] at taken
    split at taken
    · cases taken
    next fresh =>
      cases taken
      have others : ∀ reader ∈ state.log.readers, reader.id ≠ id := by
        simpa [LoggerLog.reader?] using fresh
      refine ⟨intact.size, intact.wOffIn, intact.head.congr, fun reader member => ?_,
        intact.written.1, update_suffix id intact.written.1 intact.written.2⟩
      · rcases mem_append.mp member with old | new
        · simp only [queueStep, update_of_ne (others reader old)]
          exact (intact.readers reader old).congr
        · rw [mem_singleton.mp new]
          simp only [queueStep, update_self]
          exact intact.head.congr
  | ioctl id writes cmd =>
    cases taken
    exact ioctl_intact intact id writes cmd
  | release id =>
    cases taken
    exact ⟨intact.size, intact.wOffIn, intact.head.congr, fun reader member =>
      (intact.readers reader (mem_of_mem_filter member)).congr, intact.written⟩

/-- **Every run keeps the ring and the queues together.** -/
theorem run_intact (sized : LogSize size) {ops : List LoggerOp} (intact : Intact size state queues)
    (run : exec loggerStep state ops = some next) : Intact size next (queuesAfter state queues ops) := by
  induction ops generalizing state queues with
  | nil =>
    cases run
    exact intact
  | cons op rest ih =>
    obtain ⟨middle, taken, run⟩ := exec_cons.mp run
    rw [queuesAfter, taken]
    exact ih (loggerStep_intact sized op intact taken) run

/-! ### The log over runs -/

/-- Decoding the ring from `off` gives exactly a suffix of the written entries. -/
def DecodesSuffix (state : LoggerState) (off : Nat) : Prop :=
  ∃ entries, decode state.log off = some entries ∧ entries <:+ state.written

/-- Decoding the ring from `off` gives whole entries, `entry` the last of them. -/
def DecodesLast (log : LoggerLog) (off : Nat) (entry : List UInt8) : Prop :=
  ∃ kept, decode log off = some (kept ++ [entry])

theorem Intact.decodesSuffix (sized : LogSize size) (intact : Intact size state queues) :
    DecodesSuffix state state.log.head ∧
      ∀ reader ∈ state.log.readers, DecodesSuffix state reader.rOff := by
  have logSized : LogSize state.log.size := intact.size ▸ sized
  exact ⟨⟨_, intact.head.decode logSized, intact.written.1⟩, fun reader member =>
    ⟨_, (intact.readers reader member).decode logSized, intact.written.2 reader.id⟩⟩

/-- **The log keeps whole entries.** `head` and every reader are at the start of a suffix of the
entries written; a read returns the first entry of the suffix; a write that faults adds nothing, and
one that succeeds puts its whole entry last. -/
theorem logger_integrity {size : Nat} (sized : LogSize size) (buffer : Nat → UInt8)
    (ops : List LoggerOp) (state : LoggerState)
    (run : exec loggerStep (LoggerState.init size buffer) ops = some state) :
    DecodesSuffix state state.log.head ∧
      (∀ reader ∈ state.log.readers, DecodesSuffix state reader.rOff) ∧
      (∀ reader ∈ state.log.readers, ∀ count writable bytes after,
        loggerRead state.log reader count writable = .ok (bytes, after) →
          ∃ rest, decode state.log reader.rOff = some (bytes :: rest) ∧
            decode state.log after.rOff = some rest) ∧
      (∀ iov stamp err, (loggerAioWrite state.log state.log.wOff iov stamp).2 = .error err →
        ∃ next, loggerStep state (.write iov stamp) = some next ∧ next.written = state.written ∧
          DecodesSuffix next next.log.head ∧
          ∀ reader ∈ next.log.readers, DecodesSuffix next reader.rOff) ∧
      (∀ iov stamp count, (loggerAioWrite state.log state.log.wOff iov stamp).2 = .ok (count + 1) →
        ∃ next, loggerStep state (.write iov stamp) = some next ∧
          next.written = state.written ++ [writtenEntry iov stamp] ∧
          DecodesLast next.log next.log.head (writtenEntry iov stamp) ∧
          ∀ reader ∈ next.log.readers,
            DecodesLast next.log reader.rOff (writtenEntry iov stamp)) := by
  have intact := run_intact sized (init_intact sized buffer) run
  have logSized : LogSize state.log.size := intact.size ▸ sized
  obtain ⟨head, readers⟩ := intact.decodesSuffix sized
  refine ⟨head, readers, fun reader member count writable bytes after success => ?_,
    fun iov stamp err failed => ?_, fun iov stamp count success => ?_⟩
  · have retained := intact.readers reader member
    obtain ⟨rest, entries, kept⟩ := loggerRead_retains logSized retained success
    rw [entries] at retained
    exact ⟨rest, retained.decode logSized, kept.decode logSized⟩
  · have taken : loggerStep state (.write iov stamp) =
        some { state with log := (loggerAioWrite state.log state.log.wOff iov stamp).1 } := by
      simp only [loggerStep]
      generalize loggerAioWrite state.log state.log.wOff iov stamp = result at failed
      obtain ⟨after, outcome⟩ := result
      subst failed
      rfl
    exact ⟨_, taken, rfl, (write_intact sized intact taken).decodesSuffix sized⟩
  · have taken : loggerStep state (.write iov stamp) =
        some ⟨(loggerAioWrite state.log state.log.wOff iov stamp).1,
          state.written ++ [writtenEntry iov stamp]⟩ := by
      simp only [loggerStep]
      generalize loggerAioWrite state.log state.log.wOff iov stamp = result at success
      obtain ⟨after, outcome⟩ := result
      subst success
      rfl
    have after := write_intact sized intact taken
    have afterSized := after.size.symm ▸ sized
    simp only [queueStep, success] at after
    exact ⟨_, taken, rfl, ⟨_, after.head.decode afterSized⟩, fun reader member =>
      ⟨_, (after.readers reader member).decode afterSized⟩⟩

/-- An open, a write of one byte and the read of its entry. -/
theorem logger_integrity_one_entry :
    ∃ state, exec loggerStep (LoggerState.init (2 ^ 13) fun _ => 0)
        [.openReader 1, .write [⟨[7], 1⟩] ⟨0, 0, 5, 6, 8, 9⟩, .read 1 4096 4096] = some state ∧
      DecodesSuffix state state.log.head ∧
      ∀ reader ∈ state.log.readers, DecodesSuffix state reader.rOff := by
  refine ⟨_, rfl, ?_⟩
  have integrity := logger_integrity ⟨⟨13, rfl⟩, by decide⟩ (fun _ => 0)
    [.openReader 1, .write [⟨[7], 1⟩] ⟨0, 0, 5, 6, 8, 9⟩, .read 1 4096 4096] _ rfl
  exact ⟨integrity.1, integrity.2.1⟩

/-- **What a reader is told is what it has to read.** The ring decodes from its offset to its queue:
the entries that it has neither read nor lost to a write. `POLLIN` says that there are some,
`LOGGER_GET_LOG_LEN` is their length, `LOGGER_GET_NEXT_ENTRY_LEN` that of the first. -/
theorem logger_queries {size : Nat} (sized : LogSize size) (buffer : Nat → UInt8) {ops : List LoggerOp}
    {state : LoggerState} (run : exec loggerStep (LoggerState.init size buffer) ops = some state)
    {reader : LoggerReader} (opened : reader ∈ state.log.readers) (writes : Bool) :
    let unread := (queuesAfter (LoggerState.init size buffer) noQueues ops).reader reader.id
    decode state.log reader.rOff = some unread ∧ unread <:+ state.written ∧
      (loggerPoll state.log (some reader) ↔ unread ≠ []) ∧
      (loggerIoctl state.log (some reader) writes .getLogLen).2 = .ok unread.flatten.length ∧
      (loggerIoctl state.log (some reader) writes .getNextEntryLen).2 =
        .ok (unread.headD []).length := by
  have intact := run_intact sized (init_intact sized buffer) run
  have kept := intact.readers reader opened
  refine ⟨kept.decode (intact.size ▸ sized), intact.written.2 reader.id, ?_⟩
  generalize (queuesAfter _ noQueues ops).reader reader.id = unread at kept ⊢
  have atEnd := kept.at_end_iff
  have inside := kept.offIn
  have room := kept.room
  have ends := kept.ends
  rw [add_mod_wrap inside room.le] at ends
  refine ⟨?_, ?_, ?_⟩
  · rw [ne_eq, ← atEnd, @eq_comm _ reader.rOff]
    simp [loggerPoll]
  · simp only [loggerIoctl]
    split <;> split at ends <;> exact congrArg Except.ok (by omega)
  · simp only [loggerIoctl]
    cases unread with
    | nil => simp [atEnd.mpr rfl]
    | cons entry rest =>
      rw [if_pos fun same => nomatch atEnd.mp same.symm]
      exact congrArg Except.ok kept.first.1

/-- Two readers of two entries, the first of which the one has read. -/
def twoReaders : List LoggerOp :=
  [.openReader 1, .write [⟨[7], 1⟩] ⟨0, 0, 5, 6, 8, 9⟩, .openReader 2,
    .write [⟨[3], 1⟩] ⟨0, 0, 5, 6, 8, 9⟩, .read 1 4096 4096]

theorem logger_queries_two_readers :
    ∃ state, exec loggerStep (LoggerState.init (2 ^ 13) fun _ => 0) twoReaders = some state ∧
      decode state.log 21 = some [writtenEntry [⟨[3], 1⟩] ⟨0, 0, 5, 6, 8, 9⟩] ∧
      decode state.log 0 = some [writtenEntry [⟨[7], 1⟩] ⟨0, 0, 5, 6, 8, 9⟩,
        writtenEntry [⟨[3], 1⟩] ⟨0, 0, 5, 6, 8, 9⟩] := by
  have queries := @logger_queries _ ⟨⟨13, rfl⟩, by decide⟩ (fun _ => 0) twoReaders _ rfl
  exact ⟨_, rfl, (@queries ⟨1, 21⟩ (mem_cons_self ..) false).1,
    (@queries ⟨2, 0⟩ (mem_cons_of_mem _ (mem_cons_self ..)) false).1⟩

end KernelImx.Logger
