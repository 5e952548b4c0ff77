/-
**Run lengths as a bit stream (`drivers/block/drbd/drbd_vli.h`).**

The bitmap of a replicated device is sent as the lengths of its runs of equal bits. A run length is
written as a code word of 2 to 64 bits, least significant bit first, and the code words follow each
other in a byte buffer without regard to byte boundaries.

A pointer into the buffer is an index. `bitstreamGetBits` is `none` where C leaves the result
undefined: a shift by more than 63 bits, a copy past the end of `val`, a read past the buffer.
-/

import KernelImx.Errno

namespace KernelImx.Drbd

/-! ### The code -/

/-- A level of the code, `LEVEL(t, b, v)`: code words of `total` bits start with the `width` bits of
`value`. -/
structure Level where
  total : Nat
  width : Nat
  value : BitVec 64
deriving DecidableEq, Repr

/-- `VLI_L_1_1`. -/
def vliLevels : List Level :=
  [⟨2, 1, 0x00⟩, ⟨3, 2, 0x01⟩, ⟨5, 3, 0x03⟩, ⟨7, 4, 0x07⟩, ⟨10, 5, 0x0f⟩, ⟨14, 6, 0x1f⟩,
    ⟨21, 8, 0x3f⟩, ⟨29, 8, 0x7f⟩, ⟨42, 8, 0xbf⟩, ⟨64, 8, 0xff⟩]

def Level.size (level : Level) : BitVec 64 :=
  1#64 <<< (level.total - level.width)

/-- The levels of `vli_decode_bits` from one on: the value and the bits consumed. -/
def decodeLevels : List Level → BitVec 64 → BitVec 64 → Option (BitVec 64 × Nat)
  | [], _, _ => none
  | level :: levels, adj, word =>
    if word &&& ((1#64 <<< level.width) - 1) = level.value then
      some (((word &&& (BitVec.allOnes 64 >>> (64 - level.total))) >>> level.width) + adj,
        level.total)
    else
      decodeLevels levels (adj + level.size) word

/-- **`vli_decode_bits`**; `none` is its `BUG()`. -/
def vliDecodeBits (word : BitVec 64) : Option (BitVec 64 × Nat) :=
  decodeLevels vliLevels 1 word

/-- The levels of `__vli_encode_bits` from one on: the code word and its length. -/
def encodeLevels : List Level → BitVec 64 → BitVec 64 → BitVec 64 →
    Except Errno (BitVec 64 × Nat)
  | [], _, _, _ => .error .eoverflow
  | level :: levels, top, adj, value =>
    if value ≤ top + level.size then
      .ok (((value - adj) <<< level.width) ||| level.value, level.total)
    else
      encodeLevels levels (top + level.size) (top + level.size + 1) value

/-- **`__vli_encode_bits`.** -/
def vliEncodeWord (value : BitVec 64) : Except Errno (BitVec 64 × Nat) :=
  if value = 0 then
    .error .einval
  else
    encodeLevels vliLevels 0 1 value

/-! ### The stream -/

/-- `struct bitstream_cursor`. -/
structure Cursor where
  b : Nat
  bit : Nat
deriving DecidableEq, Repr

/-- `bitstream_cursor_advance`. -/
def Cursor.advance (cur : Cursor) (bits : Nat) : Cursor :=
  ⟨cur.b + (bits + cur.bit) / 8, (bits + cur.bit) % 8⟩

/-- `struct bitstream`; `buf_len` is the length of the buffer. -/
structure Bitstream where
  cur : Cursor
  buf : List (BitVec 8)
  padBits : Nat
deriving DecidableEq, Repr

variable (bs : Bitstream)

/-- `bitstream_rewind`. -/
def bitstreamRewind : Bitstream :=
  { bs with cur := ⟨0, 0⟩, buf := List.replicate bs.buf.length 0 }

/-- `*b |= byte`. -/
def orByte (buf : List (BitVec 8)) (b : Nat) (byte : BitVec 8) : List (BitVec 8) :=
  buf.modify b (· ||| byte)

def putLoop (val : BitVec 64) (bits : Nat) : Nat → Nat → Nat → List (BitVec 8) → List (BitVec 8)
  | 0, _, _, buf => buf
  | fuel + 1, tmp, b, buf =>
    if tmp < bits then
      putLoop val bits fuel (tmp + 8) (b + 1) (orByte buf b ((val >>> tmp).setWidth 8))
    else
      buf

/-- The `bits` lowest bits of a word: `val &= ~0ULL >> (64 - bits)`. -/
def lowBits (val : BitVec 64) (bits : Nat) : BitVec 64 :=
  val &&& (BitVec.allOnes 64 >>> (64 - bits))

/-- **`bitstream_put_bits`.** -/
def bitstreamPutBits (val : BitVec 64) (bits : Nat) : Except Errno Nat × Bitstream :=
  if bits = 0 then
    (.ok 0, bs)
  else if bs.cur.b + (bs.cur.bit + bits - 1) / 8 ≥ bs.buf.length then
    (.error .enobufs, bs)
  else
    let val := if bits < 64 then lowBits val bits else val
    let buf := orByte bs.buf bs.cur.b (((val &&& 0xff) <<< bs.cur.bit).setWidth 8)
    let buf := putLoop val bits bits (8 - bs.cur.bit) (bs.cur.b + 1) buf
    (.ok bits, { bs with cur := bs.cur.advance bits, buf := buf })

/-- `le64_to_cpu` of the bytes copied into a zeroed word. -/
def le64 : List (BitVec 8) → BitVec 64
  | [] => 0
  | byte :: bytes => byte.setWidth 64 ||| (le64 bytes <<< 8)

/-- What `bitstream_get_bits` returns, writes to `*out` and leaves of the stream. -/
structure Fetched where
  bits : Nat
  out : BitVec 64
  bs : Bitstream
deriving DecidableEq, Repr

/-- The part of `bitstream_get_bits` that reads the buffer. -/
def fetchBits (bits : Nat) : Option Fetched :=
  let n := (bs.cur.bit + bits + 7) / 8
  if 64 < bits ∨ 9 < n ∨ bs.buf.length < bs.cur.b + n then
    none
  else
    let high := le64 ((bs.buf.drop (bs.cur.b + 1)).take (n - 1)) <<< (8 - bs.cur.bit)
    let low := ((bs.buf.getD bs.cur.b 0) >>> bs.cur.bit).setWidth 64
    some ⟨bits, lowBits (high ||| low) bits, { bs with cur := bs.cur.advance bits }⟩

/-- **`bitstream_get_bits`.** The sum before the shift is an `unsigned int`: a request for no bits
on a byte boundary without padding looks like one past the end. -/
def bitstreamGetBits (bits : Nat) : Option (Except Errno Fetched) :=
  if 64 < bits then
    some (.error .einval)
  else
    let reach := (bs.cur.bit + bs.padBits + bits + (2 ^ 32 - 1)) % 2 ^ 32 / 8
    let left : Int := 8 * (bs.buf.length - bs.cur.b : Int) - bs.cur.bit - bs.padBits
    let bits : Int := if bs.cur.b + reach ≥ bs.buf.length then left else bits
    if bits = 0 then
      some (.ok ⟨0, 0, bs⟩)
    else if bits < 0 then
      none
    else
      (fetchBits bs bits.toNat).map .ok

/-- **`vli_encode_bits`.** -/
def vliEncodeBits (value : BitVec 64) : Except Errno Nat × Bitstream :=
  match vliEncodeWord value with
  | .error errno => (.error errno, bs)
  | .ok (code, bits) => bitstreamPutBits bs code bits

/-! ### Whole sequences -/

/-- Write run lengths one after the other: those that were taken, and the stream. -/
def writeRuns : Bitstream → List (BitVec 64) → List (BitVec 64) × Bitstream
  | bs, [] => ([], bs)
  | bs, run :: runs =>
    match vliEncodeBits bs run with
    | (.ok _, bs) => ((run :: (writeRuns bs runs).1), (writeRuns bs runs).2)
    | (.error _, bs) => writeRuns bs runs

/-- The stream a receiver gets: the bytes up to the cursor, with the padding of the last one. -/
def Bitstream.sent (cur : Cursor) : Bitstream where
  cur := cur
  buf := bs.buf.take (bs.cur.b + if bs.cur.bit = 0 then 0 else 1)
  padBits := (8 - bs.cur.bit) % 8

/-- Read run lengths, fetching 64 bits for each and going on behind its code word. -/
def readRuns : Nat → Bitstream → Option (List (BitVec 64))
  | 0, _ => none
  | fuel + 1, bs =>
    match bitstreamGetBits bs 64 with
    | some (.ok fetched) =>
      if fetched.bits = 0 then
        some []
      else
        match vliDecodeBits fetched.out with
        | some (run, bits) =>
          if fetched.bits < bits then
            none
          else
            (readRuns fuel { bs with cur := bs.cur.advance bits }).map (run :: ·)
        | none => none
    | _ => none

/-- `look_ahead >>= bits`. C leaves a shift by all 64 bits undefined; `wide` is what the machine
makes of it. -/
def shiftDown (wide : BitVec 64 → BitVec 64) (lookAhead : BitVec 64) (bits : Nat) : BitVec 64 :=
  if bits < 64 then lookAhead >>> bits else wide lookAhead

/-- The loop of `recv_bm_rle_bits`: `held` is its `have`, and `none` is `FAILED`. -/
def recvLoop (wide : BitVec 64 → BitVec 64) :
    Nat → Bitstream → BitVec 64 → Nat → Option (List (BitVec 64))
  | 0, _, _, _ => none
  | fuel + 1, bs, lookAhead, held =>
    if held = 0 then
      some []
    else
      match vliDecodeBits lookAhead with
      | some (run, bits) =>
        if held < bits then
          none
        else
          match bitstreamGetBits bs (64 - (held - bits)) with
          | some (.ok fetched) =>
            (recvLoop wide fuel fetched.bs
              (shiftDown wide lookAhead bits ||| (fetched.out <<< (held - bits)))
              (held - bits + fetched.bits)).map (run :: ·)
          | _ => none
      | none => none

/-- **`recv_bm_rle_bits`**, as far as the run lengths it finds. -/
def recvRuns (wide : BitVec 64 → BitVec 64) (fuel : Nat) (bs : Bitstream) :
    Option (List (BitVec 64)) :=
  match bitstreamGetBits bs 64 with
  | some (.ok fetched) => recvLoop wide fuel fetched.bs fetched.out fetched.bits
  | _ => none

end KernelImx.Drbd
