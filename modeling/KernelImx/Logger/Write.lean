/-
**What one `logger_aio_write` does to the ring.**
-/

import KernelImx.Logger.Retained

namespace KernelImx.Logger

open List KernelImx.Lib Nat

/-- `do_write_log` is a wrapping copy. -/
theorem doWriteLog_eq {log : LoggerLog} (sized : LogSize log.size) (buf : List UInt8) :
    doWriteLog log buf =
      { log with
        buffer := ringWrite log.buffer log.size log.wOff buf
        wOff := (log.wOff + buf.length) % log.size } := by
  simp only [doWriteLog, loggerOffset_eq_mod sized]
  congr 1
  by_cases whole : buf.length ≤ log.size - log.wOff
  · rw [min_eq_left whole, if_neg (by simp), ringWrite, take_of_length_le le_rfl,
      take_of_length_le whole, drop_eq_nil_of_le whole, memcpy_nil]
  · rw [min_eq_right (by omega), if_pos (by omega)]
    rfl

/-! ### One segment -/

theorem copyFromUser_spec (cells : Nat → UInt8) (dst : Nat) (iov : Iovec) (start count : Nat) :
    ∃ source, source.length ≤ count ∧
      (copyFromUser cells dst iov start count).1 = memcpy cells dst source ∧
      ((copyFromUser cells dst iov start count).2 = true →
        source = (iov.base.drop start).take count) := by
  have short : ((iov.base.drop start).take count).length ≤ count := length_take_le _ _
  unfold copyFromUser
  by_cases mapped : start + count ≤ iov.readable
  · rw [if_pos mapped]
    exact ⟨_, short, rfl, fun _ => rfl⟩
  · rw [if_neg mapped]
    refine ⟨_, ?_, rfl, by simp⟩
    rw [length_append, length_replicate, length_take]
    omega

/-- `do_write_log_from_user` writes the whole segment, or fewer bytes when it faults. -/
theorem doWriteLogFromUser_spec {log : LoggerLog} (sized : LogSize log.size) (iov : Iovec)
    (count : Nat) (available : count ≤ iov.base.length) :
    ∃ source, source.length ≤ count ∧ (doWriteLogFromUser log iov count =
        ({ log with buffer := ringWrite log.buffer log.size log.wOff source }, .error .efault) ∨
      source = iov.base.take count ∧ doWriteLogFromUser log iov count =
        ({ log with
          buffer := ringWrite log.buffer log.size log.wOff source
          wOff := (log.wOff + count) % log.size }, .ok count)) := by
  have nothing : ∀ source : List UInt8, source.length ≤ log.size - log.wOff →
      memcpy log.buffer log.wOff source = ringWrite log.buffer log.size log.wOff source := by
    intro source fits
    have copies := memcpy_memcpy_eq_ringWrite log.buffer log.size log.wOff fits (.inl rfl)
    rwa [memcpy_nil, append_nil] at copies
  set len := min count (log.size - log.wOff) with lenEq
  unfold doWriteLogFromUser
  simp only [← lenEq]
  -- the first copy, which the source skips for a segment of length zero
  generalize copies : (if len ≠ 0 then copyFromUser log.buffer log.wOff iov 0 len
    else (log.buffer, true)) = firstCopy
  obtain ⟨first, firstShort, firstCells, firstWhole⟩ :
      ∃ source : List UInt8, source.length ≤ len ∧
        firstCopy.1 = memcpy log.buffer log.wOff source ∧
        (firstCopy.2 = true → source = iov.base.take len) := by
    rw [← copies]
    by_cases some : len ≠ 0
    · rw [if_pos some]
      simpa using copyFromUser_spec log.buffer log.wOff iov 0 len
    · rw [if_neg some]
      exact ⟨[], by simp, by simp, fun _ => by simp [not_not.mp some]⟩
  by_cases firstFault : firstCopy.2 = false
  · rw [if_pos firstFault]
    exact ⟨first, by omega, .inl (by rw [firstCells, nothing first (by omega)])⟩
  rw [if_neg firstFault]
  have firstAll := firstWhole (by simpa using firstFault)
  have firstLength : first.length = len := by
    rw [firstAll, length_take]
    omega
  by_cases wraps : count ≠ len
  · have full : first.length = log.size - log.wOff := by omega
    obtain ⟨second, secondShort, secondCells, secondWhole⟩ :=
      copyFromUser_spec firstCopy.1 0 iov len (count - len)
    have copied : memcpy firstCopy.1 0 second =
        ringWrite log.buffer log.size log.wOff (first ++ second) := by
      rw [firstCells, memcpy_memcpy_eq_ringWrite log.buffer log.size log.wOff (by omega) (.inr full)]
    simp only [if_pos wraps]
    by_cases secondFault : (copyFromUser firstCopy.1 0 iov len (count - len)).2 = false
    · rw [if_pos secondFault]
      exact ⟨first ++ second, by rw [length_append]; omega, .inl (by rw [secondCells, copied])⟩
    rw [if_neg secondFault]
    have secondAll := secondWhole (by simpa using secondFault)
    refine ⟨first ++ second, by rw [length_append]; omega, .inr ⟨?_, ?_⟩⟩
    · rw [firstAll, secondAll, ← take_add, show len + (count - len) = count by omega]
    · rw [secondCells, copied, loggerOffset_eq_mod sized]
  · simp only [if_neg wraps]
    rw [if_neg (by simp)]
    refine ⟨first, by omega, .inr ⟨?_, ?_⟩⟩
    · rw [firstAll, not_not.mp wraps]
    · rw [firstCells, nothing first (by omega), loggerOffset_eq_mod sized]

/-! ### The loop over the segments -/

/-- A write that began at `start` with room for `total` bytes: `done` is written, and nothing
outside. -/
structure Progress (base log : LoggerLog) (total : Nat) (done : List UInt8) : Prop where
  size : log.size = base.size
  head : log.head = base.head
  readers : log.readers = base.readers
  wOff : log.wOff = (base.wOff + done.length) % base.size
  frame : FrameFrom base.size base.wOff total base.buffer log.buffer
  bytes : ringRead log.buffer base.size base.wOff done.length = done

/-- What the log looks like when a write has failed: the offset is `orig` again. -/
structure RolledBack (base log : LoggerLog) (orig total : Nat) : Prop where
  size : log.size = base.size
  head : log.head = base.head
  readers : log.readers = base.readers
  wOff : log.wOff = orig
  frame : FrameFrom base.size base.wOff total base.buffer log.buffer

theorem Progress.write {base log : LoggerLog} {total : Nat} {done : List UInt8}
    (started : Progress base log total done) (source : List UInt8) (wOffIn : base.wOff < base.size)
    (small : total < base.size) (fits : done.length + source.length ≤ total) :
    Progress base { log with
      buffer := ringWrite log.buffer log.size log.wOff source
      wOff := (log.wOff + source.length) % log.size } total (done ++ source) := by
  have laterIn : log.wOff < log.size := by
    rw [started.wOff, started.size]
    exact mod_lt _ (by omega)
  have step : FrameFrom base.size log.wOff source.length log.buffer
      (ringWrite log.buffer log.size log.wOff source) := by
    rw [← started.size]
    exact ringWrite_frame log.buffer source laterIn (by rw [started.size]; omega)
  refine ⟨started.size, started.head, started.readers, ?_,
    started.frame.trans (FrameFrom.of_later wOffIn fits small (started.wOff ▸ step)), ?_⟩
  · rw [started.size, started.wOff, mod_add_mod_assoc, length_append]
  rw [length_append, ringRead_add, ← started.wOff,
    ringRead_congr_behind wOffIn started.wOff.symm (by omega) step, started.bytes]
  congr 1
  rw [← started.size]
  exact ringRead_ringWrite_self log.buffer source laterIn (by rw [started.size]; omega)

/-- **The loop of `logger_aio_write`** writes what is left of the `headerLen` bytes, or faults and
puts the write offset back. -/
theorem writeSegments_spec {base : LoggerLog} (sized : LogSize base.size)
    (wOffIn : base.wOff < base.size) {orig headerLen total : Nat}
    (totalEq : total = sizeofLoggerEntry + headerLen) (small : total < base.size)
    (iov : List Iovec) {log : LoggerLog} {done : List UInt8} {ret : Nat}
    (started : Progress base log total done) (written : done.length = sizeofLoggerEntry + ret)
    (within : ret ≤ headerLen) :
    (∃ err, (writeSegments orig headerLen log iov ret).2 = .error err ∧
        RolledBack base (writeSegments orig headerLen log iov ret).1 orig total) ∨
      (writeSegments orig headerLen log iov ret).2 =
          .ok (ret + ((iov.flatMap Iovec.base).take (headerLen - ret)).length) ∧
        Progress base (writeSegments orig headerLen log iov ret).1 total
          (done ++ (iov.flatMap Iovec.base).take (headerLen - ret)) := by
  induction iov generalizing log done ret with
  | nil =>
    refine .inr ⟨by simp [writeSegments], ?_⟩
    simpa [writeSegments] using started
  | cons iov rest ih =>
    have logSized : LogSize log.size := started.size ▸ sized
    obtain ⟨source, short, outcome⟩ :=
      doWriteLogFromUser_spec logSized iov (min iov.base.length (headerLen - ret)) (by omega)
    have progress := started.write source wOffIn small (by omega)
    rw [writeSegments]
    rcases outcome with fault | ⟨whole, success⟩
    · rw [fault]
      exact .inl ⟨.efault, rfl, started.size, started.head, started.readers, rfl, progress.frame⟩
    have sourceLength : source.length = min iov.base.length (headerLen - ret) := by
      rw [whole, length_take]
      omega
    have payload : (iov.base ++ rest.flatMap Iovec.base).take (headerLen - ret) =
        source ++ (rest.flatMap Iovec.base).take (headerLen - (ret + source.length)) := by
      rw [take_append, whole]
      congr 1
      · rcases le_total iov.base.length (headerLen - ret) with less | more
        · rw [min_eq_left less, take_of_length_le less, take_length]
        · rw [min_eq_right more]
      · rw [length_take]
        congr 1
        omega
    have count : (done ++ source).length = sizeofLoggerEntry + (ret + source.length) := by
      rw [length_append]
      omega
    have recursive := ih progress count (by omega)
    rw [success]
    simp only [flatMap_cons, payload, ← sourceLength] at recursive ⊢
    rw [length_append, ← append_assoc, ← add_assoc]
    exact recursive

/-! ### The whole write -/

variable (iov : List Iovec) (stamp : LoggerEntry)

/-- The entry a write is to add: its header and what is kept of its payload. -/
def writtenEntry : List UInt8 :=
  (writeHeader iov stamp).bytes ++
    (iov.flatMap Iovec.base).take (writeHeader iov stamp).len.toNat

theorem writeHeader_len :
    (writeHeader iov stamp).len.toNat = min (kiLeft iov) loggerEntryMaxPayload := by
  have bound : min (kiLeft iov) loggerEntryMaxPayload < 2 ^ 16 :=
    lt_of_le_of_lt (min_le_right _ _) (by decide)
  exact UInt16.toNat_ofNat_of_lt' bound

theorem writtenEntry_length :
    (writtenEntry iov stamp).length = sizeofLoggerEntry + (writeHeader iov stamp).len.toNat := by
  have within := writeHeader_len iov stamp
  unfold kiLeft at within
  rw [writtenEntry, length_append, LoggerEntry.bytes_length, length_take]
  omega

theorem writtenEntry_wellSized :
    WellSized (writtenEntry iov stamp) where
  header := by
    rw [writtenEntry_length]
    omega
  small := by
    have within := writeHeader_len iov stamp
    rw [writtenEntry_length, within]
    unfold loggerEntryMaxPayload loggerEntryMaxLen sizeofLoggerEntry
    omega
  length := by
    rw [writtenEntry_length, ← value16_bytes16 (writeHeader iov stamp).len]
    rfl

/-- **`logger_aio_write`** with room made: the whole entry follows, or the write offset is `orig`.
-/
theorem loggerAioWriteLocked_spec {log : LoggerLog} (sized : LogSize log.size)
    (wOffIn : log.wOff < log.size) (orig : Nat) (iov : List Iovec) (stamp : LoggerEntry) :
    let total := sizeofLoggerEntry + (writeHeader iov stamp).len.toNat
    let fixed := fixUpReaders log total
    let result := loggerAioWriteLocked log orig (writeHeader iov stamp) iov
    (∃ err, result.2 = .error err ∧ RolledBack fixed result.1 orig total) ∨
      result.2 = .ok (writeHeader iov stamp).len.toNat ∧
        Progress fixed result.1 total (writtenEntry iov stamp) := by
  intro total fixed result
  have small : total < log.size := by
    have entrySmall := (writtenEntry_wellSized iov stamp).small
    rw [writtenEntry_length] at entrySmall
    exact lt_of_le_of_lt entrySmall sized.large
  have untouched : Progress fixed fixed total [] := by
    refine ⟨rfl, rfl, rfl, ?_, fun _ _ _ => rfl, rfl⟩
    exact (mod_eq_of_lt wOffIn).symm
  have started : Progress fixed (doWriteLog fixed (writeHeader iov stamp).bytes) total
      (writeHeader iov stamp).bytes := by
    have fixedSized : LogSize fixed.size := sized
    rw [doWriteLog_eq fixedSized]
    refine untouched.write (writeHeader iov stamp).bytes wOffIn small ?_
    rw [LoggerEntry.bytes_length, length_nil]
    omega
  have kept : min (kiLeft iov) loggerEntryMaxPayload ≤ (iov.flatMap Iovec.base).length :=
    min_le_left _ _
  have count : (writeHeader iov stamp).bytes.length = sizeofLoggerEntry + 0 := rfl
  rcases @writeSegments_spec fixed sized wOffIn orig _ total rfl small iov _ _ _ started count
    (zero_le _) with failed | ⟨count, progress⟩
  · exact .inl failed
  · refine .inr ⟨count.trans ?_, progress⟩
    rw [zero_add, Nat.sub_zero, length_take, writeHeader_len, min_eq_left kept]

end KernelImx.Logger
