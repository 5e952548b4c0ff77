/-
**The Android log driver** (`drivers/staging/android/logger.c`, `logger.h`).

One log: the ring buffer with its write offset `wOff`, the start offset `head` of new readers, and
the open readers with their read offsets. Offsets are `size_t` values below `size`, so their sums
stay far below `2 ^ 32` and are plain naturals. Bytes that come from or go to user space are
explicit: an `Iovec` says how much of its segment can be read before the copy faults, a read says
how much of its buffer can be written.

The functions keep the order and the tests of the source. What runs under `log->mutex` is one
function of the log; `orig`, which `logger_aio_write` samples before it takes the mutex, is a
parameter of `loggerAioWrite`.
-/

import KernelImx.Errno
import KernelImx.Lib.Ring

namespace KernelImx.Logger

open KernelImx.Lib

/-! ### The entries -/

/-- `sizeof(struct logger_entry)`. -/
def sizeofLoggerEntry : Nat := 20

/-- `LOGGER_ENTRY_MAX_LEN`. -/
def loggerEntryMaxLen : Nat := 4 * 1024

/-- `LOGGER_ENTRY_MAX_PAYLOAD`. -/
def loggerEntryMaxPayload : Nat := loggerEntryMaxLen - sizeofLoggerEntry

/-- `struct logger_entry` without its payload; the signed fields are their bit patterns. -/
structure LoggerEntry where
  len : UInt16
  pad : UInt16
  pid : UInt32
  tid : UInt32
  sec : UInt32
  nsec : UInt32
  deriving DecidableEq, Repr

/-- A `__u16` in memory, least significant byte first. -/
def bytes16 (value : UInt16) : List UInt8 := [value.toUInt8, (value >>> 8).toUInt8]

/-- A 32-bit field in memory, least significant byte first. -/
def bytes32 (value : UInt32) : List UInt8 :=
  [value.toUInt8, (value >>> 8).toUInt8, (value >>> 16).toUInt8, (value >>> 24).toUInt8]

/-- The header as it lies in memory. -/
def LoggerEntry.bytes (header : LoggerEntry) : List UInt8 :=
  bytes16 header.len ++ bytes16 header.pad ++ bytes32 header.pid ++ bytes32 header.tid ++
    bytes32 header.sec ++ bytes32 header.nsec

@[simp] theorem LoggerEntry.bytes_length (header : LoggerEntry) :
    header.bytes.length = sizeofLoggerEntry := rfl

/-- The value of the `__u16` in two bytes. -/
def value16 (low high : UInt8) : Nat := low.toNat + 256 * high.toNat

theorem value16_bytes16 (value : UInt16) :
    value16 value.toUInt8 (value >>> 8).toUInt8 = value.toNat := by
  have bound := value.toNat_lt
  have shift : (8 : UInt16).toNat % 16 = 8 := rfl
  simp only [value16, UInt16.toNat_toUInt8, UInt16.toNat_shiftRight, shift,
    Nat.shiftRight_eq_div_pow]
  omega

/-! ### The log -/

/-- `struct logger_reader`: an open file and its read offset. -/
structure LoggerReader where
  id : Nat
  rOff : Nat
  deriving DecidableEq, Repr

/-- `struct logger_log`. -/
structure LoggerLog where
  buffer : Nat → UInt8
  readers : List LoggerReader
  wOff : Nat
  head : Nat
  size : Nat

variable (log : LoggerLog)

/-- `logger_offset(n)`. -/
def loggerOffset (n : Nat) : Nat := n &&& (log.size - 1)

/-- `get_entry_len`. -/
def getEntryLen (off : Nat) : Nat :=
  sizeofLoggerEntry +
    match log.size - off with
    | 1 => value16 (log.buffer off) (log.buffer 0)
    | _ => value16 (log.buffer off) (log.buffer (off + 1))

/-! ### Reading -/

/-- `do_read_log_to_user`; the first `writable` bytes of the user buffer can be written. -/
def doReadLogToUser (reader : LoggerReader) (writable count : Nat) :
    Except Errno (List UInt8 × LoggerReader) :=
  let len := min count (log.size - reader.rOff)
  if writable < len then .error .efault
  else if count ≠ len ∧ writable < count then .error .efault
  else
    .ok (cellsFrom log.buffer reader.rOff len ++ cellsFrom log.buffer 0 (count - len),
      { reader with rOff := loggerOffset log (reader.rOff + count) })

/-- `logger_read` of a reader whose wait is over. One that finds nothing has no effect. -/
def loggerRead (reader : LoggerReader) (count writable : Nat) :
    Except Errno (List UInt8 × LoggerReader) :=
  if log.wOff = reader.rOff then .error .eagain
  else if count < getEntryLen log reader.rOff then .error .einval
  else doReadLogToUser log reader writable (getEntryLen log reader.rOff)

/-! ### Writing -/

/-- The `do … while (count < len)` of `get_next_entry`; every round adds a header at least. -/
def getNextEntryLoop (log : LoggerLog) (len : Nat) : Nat → Nat → Nat → Nat
  | 0, off, _ => off
  | fuel + 1, off, count =>
    let nr := getEntryLen log off
    let off := loggerOffset log (off + nr)
    if count + nr < len then getNextEntryLoop log len fuel off (count + nr) else off

/-- `get_next_entry`. -/
def getNextEntry (off len : Nat) : Nat := getNextEntryLoop log len (len + 1) off 0

/-- `clock_interval`: does the line from `a` to `b` cross `c`? -/
def clockInterval (a b c : Nat) : Bool :=
  if b < a then decide (a < c ∨ c ≤ b) else decide (a < c ∧ c ≤ b)

/-- The new place of an offset that `fix_up_readers` looks at. -/
def pullForward (len off : Nat) : Nat :=
  if clockInterval log.wOff (loggerOffset log (log.wOff + len)) off then getNextEntry log off len
  else off

/-- `fix_up_readers`. -/
def fixUpReaders (len : Nat) : LoggerLog :=
  { log with
    head := pullForward log len log.head
    readers := log.readers.map fun reader => { reader with rOff := pullForward log len reader.rOff } }

/-- `do_write_log`. -/
def doWriteLog (buf : List UInt8) : LoggerLog :=
  let len := min buf.length (log.size - log.wOff)
  let buffer := memcpy log.buffer log.wOff (buf.take len)
  let buffer := if buf.length ≠ len then memcpy buffer 0 (buf.drop len) else buffer
  { log with buffer := buffer, wOff := loggerOffset log (log.wOff + buf.length) }

/-- `struct iovec` with the bytes its segment holds; only the first `readable` of them are mapped. -/
structure Iovec where
  base : List UInt8
  readable : Nat
  deriving DecidableEq, Repr

/-- `copy_from_user` of `count` bytes from `start` on, and whether it succeeds: a copy that faults
leaves the bytes it could read, then zeroes. -/
def copyFromUser (cells : Nat → UInt8) (dst : Nat) (iov : Iovec) (start count : Nat) :
    (Nat → UInt8) × Bool :=
  let source := (iov.base.drop start).take count
  if start + count ≤ iov.readable then (memcpy cells dst source, true)
  else
    (memcpy cells dst (source.take (iov.readable - start) ++
      List.replicate (source.length - (iov.readable - start)) 0), false)

/-- `do_write_log_from_user`. -/
def doWriteLogFromUser (iov : Iovec) (count : Nat) : LoggerLog × Except Errno Nat :=
  let len := min count (log.size - log.wOff)
  let first := if len ≠ 0 then copyFromUser log.buffer log.wOff iov 0 len else (log.buffer, true)
  if first.2 = false then ({ log with buffer := first.1 }, .error .efault)
  else
    let second := if count ≠ len then copyFromUser first.1 0 iov len (count - len) else (first.1, true)
    if second.2 = false then ({ log with buffer := second.1 }, .error .efault)
    else
      ({ log with buffer := second.1, wOff := loggerOffset log (log.wOff + count) }, .ok count)

/-- The loop of `logger_aio_write` over its segments: a fault puts the write offset back. -/
def writeSegments (orig headerLen : Nat) : LoggerLog → List Iovec → Nat → LoggerLog × Except Errno Nat
  | log, [], ret => (log, .ok ret)
  | log, iov :: rest, ret =>
    match doWriteLogFromUser log iov (min iov.base.length (headerLen - ret)) with
    | (log, .error err) => ({ log with wOff := orig }, .error err)
    | (log, .ok nr) => writeSegments orig headerLen log rest (ret + nr)

/-- `iocb->ki_left`: the bytes of all segments. -/
def kiLeft (iov : List Iovec) : Nat := (iov.flatMap Iovec.base).length

/-- The header of a write: `len` of the payload, the caller's ids, the time, and two bytes of the
stack. -/
def writeHeader (iov : List Iovec) (stamp : LoggerEntry) : LoggerEntry :=
  { stamp with len := UInt16.ofNat (min (kiLeft iov) loggerEntryMaxPayload) }

/-- `logger_aio_write` after `mutex_lock`, with the write offset it read before. -/
def loggerAioWriteLocked (orig : Nat) (header : LoggerEntry) (iov : List Iovec) :
    LoggerLog × Except Errno Nat :=
  let log := fixUpReaders log (sizeofLoggerEntry + header.len.toNat)
  let log := doWriteLog log header.bytes
  writeSegments orig header.len.toNat log iov 0

/-- `logger_aio_write`: a null write returns before it takes the mutex. -/
def loggerAioWrite (orig : Nat) (iov : List Iovec) (stamp : LoggerEntry) :
    LoggerLog × Except Errno Nat :=
  let header := writeHeader iov stamp
  if header.len = 0 then (log, .ok 0) else loggerAioWriteLocked log orig header iov

/-! ### Opening, closing, flushing -/

/-- `logger_open` of a file that can be read; a file that is only written has no reader. -/
def loggerOpen (id : Nat) : LoggerLog :=
  { log with readers := log.readers ++ [{ id := id, rOff := log.head }] }

/-- `logger_release`. -/
def loggerRelease (id : Nat) : LoggerLog :=
  { log with readers := log.readers.filter fun reader => reader.id ≠ id }

/-- `POLLIN` of `logger_poll` -/
def loggerPoll (reader : Option LoggerReader) : Bool :=
  reader.any fun reader => log.wOff ≠ reader.rOff

/-- The commands of `logger_ioctl`. -/
inductive LoggerCmd
  | getLogBufSize
  | getLogLen
  | getNextEntryLen
  | flushLog
  deriving DecidableEq, Repr

/-- `logger_ioctl`; `reader` is the reader of a file with `FMODE_READ`, `writes` its
`FMODE_WRITE`. -/
def loggerIoctl (reader : Option LoggerReader) (writes : Bool) :
    LoggerCmd → LoggerLog × Except Errno Nat
  | .getLogBufSize => (log, .ok log.size)
  | .getLogLen =>
    match reader with
    | none => (log, .error .ebadf)
    | some reader =>
      if reader.rOff ≤ log.wOff then (log, .ok (log.wOff - reader.rOff))
      else (log, .ok (log.size - reader.rOff + log.wOff))
  | .getNextEntryLen =>
    match reader with
    | none => (log, .error .ebadf)
    | some reader =>
      if log.wOff ≠ reader.rOff then (log, .ok (getEntryLen log reader.rOff)) else (log, .ok 0)
  | .flushLog =>
    if writes then
      ({ log with
          readers := log.readers.map fun reader => { reader with rOff := log.wOff }
          head := log.wOff }, .ok 0)
    else (log, .error .ebadf)

end KernelImx.Logger
