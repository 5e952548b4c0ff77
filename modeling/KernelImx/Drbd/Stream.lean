/-
**Run lengths survive the bit stream.**

The buffer is looked at as a sequence of bits (`bitAt`), so that byte boundaries disappear.
`writeRuns_spells` says that writing spells what was taken, `Ahead.decode` that the look-ahead
decodes to what is spelled next; both readers follow (`readRuns_spec`, `recvRuns_spec`).
-/

import KernelImx.Drbd.Code

namespace KernelImx.Drbd

open List BitVec Nat

/-! ### Buffers as bits -/

def bitAt (buf : List (BitVec 8)) (i : Nat) : Bool :=
  (buf.getD (i / 8) 0).getLsbD (i % 8)

def Cursor.pos (cur : Cursor) : Nat :=
  8 * cur.b + cur.bit

@[simp] theorem Cursor.pos_advance (cur : Cursor) (bits : Nat) :
    (cur.advance bits).pos = cur.pos + bits := by
  unfold Cursor.pos Cursor.advance
  dsimp only
  omega

theorem Cursor.bit_advance (cur : Cursor) (bits : Nat) : (cur.advance bits).bit < 8 :=
  mod_lt _ (by decide)

@[simp] theorem length_orByte (buf : List (BitVec 8)) (b : Nat) (byte : BitVec 8) :
    (orByte buf b byte).length = buf.length :=
  length_modify ..

variable {buf : List (BitVec 8)}

theorem bitAt_orByte {b : Nat} (inside : b < buf.length) (byte : BitVec 8) (i : Nat) :
    bitAt (orByte buf b byte) i
      = (bitAt buf i || (decide (i / 8 = b) && byte.getLsbD (i % 8))) := by
  unfold bitAt orByte
  by_cases here : i / 8 = b
  · simp [getD_eq_getElem?_getD, here, inside]
  · simp [getD_eq_getElem?_getD, here, Ne.symm here]

/-! ### Writing -/

variable {fuel bits tmp b : Nat} {val : BitVec 64} {bs : Bitstream}

@[simp] theorem length_putLoop : (putLoop val bits fuel tmp b buf).length = buf.length := by
  induction fuel generalizing tmp b buf with
  | zero => rfl
  | succ fuel ih =>
    rw [putLoop]
    split
    · rw [ih, length_orByte]
    · rfl

theorem bitAt_putLoop (short : ∀ k, bits ≤ k → val.getLsbD k = false) (i : Nat)
    (enough : bits ≤ tmp + fuel) (room : 8 * b + bits ≤ 8 * buf.length + tmp) :
    bitAt (putLoop val bits fuel tmp b buf) i
      = (bitAt buf i || (decide (8 * b ≤ i) && val.getLsbD (tmp + (i - 8 * b)))) := by
  induction fuel generalizing tmp b buf with
  | zero =>
    rw [putLoop, short _ (by omega), Bool.and_false, Bool.or_false]
  | succ fuel ih =>
    rw [putLoop]
    split
    case isFalse done =>
      rw [short _ (by omega), Bool.and_false, Bool.or_false]
    case isTrue more =>
      rw [ih (by omega) (by rw [length_orByte]; omega), bitAt_orByte (by omega), Bool.or_assoc]
      congr 1
      have inByte : i % 8 < 8 := mod_lt _ (by decide)
      rcases Nat.lt_trichotomy (i / 8) b with before | rfl | behind
      · simp [show ¬ i / 8 = b by omega, show ¬ 8 * (b + 1) ≤ i by omega,
          show ¬ 8 * b ≤ i by omega]
      · simp [show ¬ 8 * (i / 8 + 1) ≤ i by omega, show 8 * (i / 8) ≤ i by omega, inByte,
          show i - 8 * (i / 8) = i % 8 by omega]
      · simp [show ¬ i / 8 = b by omega, show 8 * (b + 1) ≤ i by omega,
          show 8 * b ≤ i by omega,
          show tmp + 8 + (i - 8 * (b + 1)) = tmp + (i - 8 * b) by omega]

/-- The bits a write adds at a position. -/
def written (val : BitVec 64) (bits pos i : Nat) : Bool :=
  decide (pos ≤ i) && (decide (i < pos + bits) && val.getLsbD (i - pos))

/-- A write adds its bits at the cursor and changes no other bit, or is refused and changes nothing.
-/
theorem bitstreamPutBits_spec (normal : bs.cur.bit < 8) (pos : 0 < bits) (le : bits ≤ 64) :
    (8 * bs.buf.length < bs.cur.pos + bits ∧
      bitstreamPutBits bs val bits = (.error .enobufs, bs)) ∨
    ∃ buf, bs.cur.pos + bits ≤ 8 * bs.buf.length ∧ buf.length = bs.buf.length ∧
      bitstreamPutBits bs val bits
        = (.ok bits, { bs with cur := bs.cur.advance bits, buf := buf }) ∧
      ∀ i, bitAt buf i = (bitAt bs.buf i || written val bits bs.cur.pos i) := by
  unfold Cursor.pos
  rw [bitstreamPutBits, if_neg (by omega)]
  by_cases full : bs.cur.b + (bs.cur.bit + bits - 1) / 8 ≥ bs.buf.length
  · left
    exact ⟨by omega, if_pos full⟩
  right
  refine ⟨_, by omega, ?_, if_neg full, ?_⟩
  · rw [length_putLoop, length_orByte]
  intro i
  -- the value that is written has no bits but the ones asked for
  have stripped : ∀ k, (if bits < 64 then lowBits val bits else val).getLsbD k
      = (decide (k < bits) && val.getLsbD k) := by
    intro k
    split
    · exact getLsbD_lowBits le k
    · by_cases below : k < bits
      · rw [decide_eq_true below, Bool.true_and]
      · rw [decide_eq_false below, Bool.false_and, getLsbD_of_ge _ _ (by omega)]
  generalize (if bits < 64 then lowBits val bits else val) = low at stripped ⊢
  have short : ∀ k, bits ≤ k → low.getLsbD k = false := by
    intro k above
    rw [stripped, decide_eq_false (by omega), Bool.false_and]
  rw [bitAt_putLoop short i (by omega) (by rw [length_orByte]; omega), bitAt_orByte (by omega),
    Bool.or_assoc]
  congr 1
  unfold written
  have mask : ∀ k, (low &&& 0xff).getLsbD k = (decide (k < 8) && low.getLsbD k) := by
    intro k
    have ones : (0xff : BitVec 64) = lowBits (allOnes 64) 8 := by decide
    rw [getLsbD_and, ones, getLsbD_lowBits (by decide), getLsbD_allOnes]
    by_cases below : k < 8
    · simp [below, show k < 64 by omega]
    · simp [below]
  have inByte : i % 8 < 8 := mod_lt _ (by decide)
  simp only [getLsbD_setWidth, getLsbD_shiftLeft, mask, stripped]
  rcases Nat.lt_trichotomy (i / 8) bs.cur.b with before | same | behind
  · simp [show ¬ i / 8 = bs.cur.b by omega, show ¬ 8 * (bs.cur.b + 1) ≤ i by omega,
      show ¬ 8 * bs.cur.b + bs.cur.bit ≤ i by omega]
  · by_cases inside : i % 8 < bs.cur.bit
    · simp [same, inside, show ¬ 8 * (bs.cur.b + 1) ≤ i by omega,
        show ¬ 8 * bs.cur.b + bs.cur.bit ≤ i by omega]
    have index : i % 8 - bs.cur.bit = i - (8 * bs.cur.b + bs.cur.bit) := by omega
    have bound : i - (8 * bs.cur.b + bs.cur.bit) < bits ↔
        i < 8 * bs.cur.b + bs.cur.bit + bits := by omega
    simp [same, inside, index, bound, inByte, show i % 8 < 64 by omega,
      show i - (8 * bs.cur.b + bs.cur.bit) < 8 by omega,
      show ¬ 8 * (bs.cur.b + 1) ≤ i by omega, show 8 * bs.cur.b + bs.cur.bit ≤ i by omega]
  · have index : 8 - bs.cur.bit + (i - 8 * (bs.cur.b + 1))
        = i - (8 * bs.cur.b + bs.cur.bit) := by omega
    have bound : i - (8 * bs.cur.b + bs.cur.bit) < bits ↔
        i < 8 * bs.cur.b + bs.cur.bit + bits := by omega
    simp [show ¬ i / 8 = bs.cur.b by omega, index, bound,
      show 8 * (bs.cur.b + 1) ≤ i by omega, show 8 * bs.cur.b + bs.cur.bit ≤ i by omega]

/-! ### Reading -/

variable {len i : Nat}

theorem bitAt_take : bitAt (buf.take len) i = (decide (i / 8 < len) && bitAt buf i) := by
  unfold bitAt
  by_cases inside : i / 8 < len
  · simp [getD_eq_getElem?_getD, inside]
  · simp [getD_eq_getElem?_getD, inside]

theorem bitAt_drop {skip : Nat} : bitAt (buf.drop skip) i = bitAt buf (8 * skip + i) := by
  unfold bitAt
  rw [getD_eq_getElem?_getD, getElem?_drop, getD_eq_getElem?_getD,
    show (8 * skip + i) / 8 = skip + i / 8 by omega, show (8 * skip + i) % 8 = i % 8 by omega]

theorem getLsbD_le64 (k : Nat) : ∀ bytes : List (BitVec 8),
    (le64 bytes).getLsbD k = (decide (k < 64) && bitAt bytes k) := by
  intro bytes
  induction bytes generalizing k with
  | nil => simp [le64, bitAt]
  | cons byte bytes ih =>
    rw [le64, getLsbD_or, getLsbD_setWidth, getLsbD_shiftLeft, ih]
    unfold bitAt
    by_cases first : k < 8
    · simp [first, show k / 8 = 0 by omega, mod_eq_of_lt first]
    have later : k / 8 = (k - 8) / 8 + 1 := by omega
    have inside : k < 64 → k - 8 < 64 := by omega
    by_cases bound : k < 64
    · simp [first, later, bound, inside bound, getLsbD_of_ge byte k (by omega),
        show (k - 8) % 8 = k % 8 by omega]
    · simp [bound]

theorem fetchBits_spec (normal : bs.cur.bit < 8) (pos : 0 < bits) (le : bits ≤ 64)
    (room : bs.cur.pos + bits ≤ 8 * bs.buf.length) :
    ∃ out, fetchBits bs bits = some ⟨bits, out, { bs with cur := bs.cur.advance bits }⟩ ∧
      ∀ k, out.getLsbD k = (decide (k < bits) && bitAt bs.buf (bs.cur.pos + k)) := by
  unfold Cursor.pos at room ⊢
  refine ⟨_, if_neg (by omega), fun k => ?_⟩
  rw [getLsbD_lowBits le]
  by_cases below : k < bits
  · rw [decide_eq_true below, Bool.true_and, Bool.true_and, getLsbD_or,
      getLsbD_shiftLeft, getLsbD_le64, bitAt_take, bitAt_drop, getLsbD_setWidth,
      getLsbD_ushiftRight]
    by_cases first : bs.cur.bit + k < 8
    · -- the bit is one of the first byte
      unfold bitAt
      simp [show k < 8 - bs.cur.bit by omega, show k < 64 by omega,
        show (8 * bs.cur.b + bs.cur.bit + k) / 8 = bs.cur.b by omega,
        show (8 * bs.cur.b + bs.cur.bit + k) % 8 = bs.cur.bit + k by omega]
    have index : 8 * (bs.cur.b + 1) + (k - (8 - bs.cur.bit))
        = 8 * bs.cur.b + bs.cur.bit + k := by omega
    rw [getLsbD_of_ge (bs.buf.getD bs.cur.b 0) (bs.cur.bit + k) (by omega), index]
    simp [show ¬ k < 8 - bs.cur.bit by omega, show k < 64 by omega,
      show k - (8 - bs.cur.bit) < 64 by omega,
      show (k - (8 - bs.cur.bit)) / 8 < (bs.cur.bit + bits + 7) / 8 - 1 by omega]
  · rw [decide_eq_false below, Bool.false_and, Bool.false_and]

def Bitstream.left (bs : Bitstream) : Nat :=
  8 * bs.buf.length - bs.padBits - bs.cur.pos

/-- A stream as the receiver sets it up: the padding is within the last byte, and the cursor before
it. -/
structure Readable (bs : Bitstream) : Prop where
  normal : bs.cur.bit < 8
  pad_lt : bs.padBits < 8
  inside : bs.cur.pos + bs.padBits ≤ 8 * bs.buf.length

theorem Readable.advance (readable : Readable bs) (le : bits ≤ bs.left) :
    Readable { bs with cur := bs.cur.advance bits } where
  normal := bs.cur.bit_advance bits
  pad_lt := readable.pad_lt
  inside := by
    have inside := readable.inside
    unfold Bitstream.left at le
    rw [Cursor.pos_advance]
    dsimp only
    omega

variable {cur : Cursor}

theorem advance_zero (normal : cur.bit < 8) : cur.advance 0 = cur := by
  unfold Cursor.advance
  rw [zero_add, div_eq_of_lt normal, mod_eq_of_lt normal, add_zero]

/-- **What `bitstream_get_bits` does**: it returns the bits asked for, or all that are left. -/
theorem bitstreamGetBits_spec {want : Nat} (readable : Readable bs) (pos : 0 < want) (le : want ≤ 64) :
    ∃ out, bitstreamGetBits bs want = some (.ok ⟨min want bs.left, out,
        { bs with cur := bs.cur.advance (min want bs.left) }⟩) ∧
      ∀ k, out.getLsbD k
        = (decide (k < min want bs.left) && bitAt bs.buf (bs.cur.pos + k)) := by
  obtain ⟨normal, padLt, inside⟩ := readable
  have left : (8 * (bs.buf.length - bs.cur.b : Int) - bs.cur.bit - bs.padBits) = bs.left := by
    unfold Bitstream.left Cursor.pos at *
    omega
  -- the sum stays far below the width of an unsigned int
  have reach : (bs.cur.bit + bs.padBits + want + (2 ^ 32 - 1)) % 2 ^ 32 / 8
      = (bs.cur.bit + bs.padBits + want - 1) / 8 := by omega
  have short : bs.cur.b + (bs.cur.bit + bs.padBits + want - 1) / 8 ≥ bs.buf.length ↔
      bs.left < want := by
    omega
  have got : (if bs.cur.b + (bs.cur.bit + bs.padBits + want - 1) / 8 ≥ bs.buf.length then
      (bs.left : Int) else want) = (min want bs.left : Nat) := by
    split
    case isTrue few => rw [min_eq_right (le_of_lt (short.mp few))]
    case isFalse many => rw [min_eq_left (not_lt.mp fun less => many (short.mpr less))]
  unfold bitstreamGetBits
  simp only [if_neg (not_lt.mpr le), reach, left, got]
  have small : min want bs.left ≤ want := min_le_left _ _
  have most : min want bs.left ≤ bs.left := min_le_right _ _
  generalize min want bs.left = bits at small most ⊢
  by_cases none : bits = 0
  · subst none
    refine ⟨0, ?_, by simp⟩
    rw [advance_zero normal]
    rfl
  obtain ⟨out, fetched, spec⟩ := @fetchBits_spec bits bs normal (by omega) (by omega)
    (by unfold Bitstream.left at most; omega)
  refine ⟨out, ?_, spec⟩
  rw [if_neg (by omega), if_neg (by omega), Int.toNat_natCast, fetched]
  rfl

/-! ### Streams that spell run lengths -/

/-- The bits from a position to `stop` are the code words of the run lengths. -/
def Spells (bits : Nat → Bool) (stop : Nat) : Nat → List (BitVec 64) → Prop
  | pos, [] => pos = stop
  | pos, run :: runs => ∃ code len, vliEncodeWord run = .ok (code, len) ∧
      (∀ k < len, bits (pos + k) = code.getLsbD k) ∧ Spells bits stop (pos + len) runs

variable {word run : BitVec 64} {runs : List (BitVec 64)} {bits : Nat → Bool} {pos stop : Nat}

theorem Spells.le (spelled : Spells bits stop pos runs) : pos ≤ stop := by
  induction runs generalizing pos with
  | nil => exact le_of_eq spelled
  | cons run runs ih =>
    obtain ⟨code, len, -, -, rest⟩ := spelled
    exact le_trans (le_add_right _ _) (ih rest)

theorem Spells.congr {bits' : Nat → Bool} (spelled : Spells bits stop pos runs)
    (same : ∀ i < stop, bits' i = bits i) : Spells bits' stop pos runs := by
  induction runs generalizing pos with
  | nil => exact spelled
  | cons run runs ih =>
    obtain ⟨code, len, encoded, word, rest⟩ := spelled
    refine ⟨code, len, encoded, fun k below => ?_, ih rest⟩
    have := rest.le
    rw [same _ (by omega), word k below]

/-! ### What is written -/

/-- A stream to write to: the cursor is in the buffer, and no bit is set from there on. -/
structure Clear (bs : Bitstream) : Prop where
  normal : bs.cur.bit < 8
  inside : bs.cur.pos ≤ 8 * bs.buf.length
  clear : ∀ i, bs.cur.pos ≤ i → bitAt bs.buf i = false

/-- **One run length**: it is refused and nothing changes, or its code word stands at the cursor. -/
theorem vliEncodeBits_spec (clear : Clear bs) (run : BitVec 64) :
    (∃ errno, vliEncodeBits bs run = (.error errno, bs)) ∨
    ∃ code len bs', vliEncodeWord run = .ok (code, len) ∧
      vliEncodeBits bs run = (.ok len, bs') ∧ Clear bs' ∧ bs'.cur.pos = bs.cur.pos + len ∧
      (∀ i < bs.cur.pos, bitAt bs'.buf i = bitAt bs.buf i) ∧
      ∀ k < len, bitAt bs'.buf (bs.cur.pos + k) = code.getLsbD k := by
  unfold vliEncodeBits
  cases encoded : vliEncodeWord run with
  | error errno => exact .inl ⟨errno, rfl⟩
  | ok word =>
    obtain ⟨code, len⟩ := word
    obtain ⟨⟨two, most⟩, -⟩ := vliEncodeWord_spec encoded
    rcases @bitstreamPutBits_spec len code bs clear.normal (by omega) most with
      ⟨-, refused⟩ | ⟨buf, room, length, put, bits⟩
    · exact .inl ⟨_, refused⟩
    right
    refine ⟨code, len, _, rfl, put, ⟨bs.cur.bit_advance len, ?_, ?_⟩, bs.cur.pos_advance len,
      ?_, ?_⟩
    · rw [Cursor.pos_advance]
      exact length ▸ room
    · intro i above
      rw [Cursor.pos_advance] at above
      rw [bits, clear.clear i (by omega), written, decide_eq_false (p := i < _) (by omega)]
      simp
    · intro i below
      rw [bits, written, decide_eq_false (p := _ ≤ i) (by omega), Bool.false_and, Bool.or_false]
    · intro k below
      rw [bits, clear.clear _ (le_add_right _ _), written]
      simp [below]

/-- **Writing spells what was taken**, and leaves alone what was there before. -/
theorem writeRuns_spells (clear : Clear bs) (runs : List (BitVec 64)) :
    Clear (writeRuns bs runs).2 ∧
    Spells (bitAt (writeRuns bs runs).2.buf) (writeRuns bs runs).2.cur.pos bs.cur.pos
      (writeRuns bs runs).1 ∧
    ∀ i < bs.cur.pos, bitAt (writeRuns bs runs).2.buf i = bitAt bs.buf i := by
  induction runs generalizing bs with
  | nil => exact ⟨clear, rfl, fun _ _ => rfl⟩
  | cons run runs ih =>
    rcases vliEncodeBits_spec clear run with
      ⟨errno, refused⟩ | ⟨code, len, bs', encoded, put, clear', pos, before, word⟩
    · simp only [writeRuns, refused]
      exact ih clear
    simp only [writeRuns, put]
    obtain ⟨clearEnd, spelled, kept⟩ := ih clear'
    rw [pos] at spelled kept
    refine ⟨clearEnd, ⟨code, len, encoded, fun k below => ?_, spelled⟩, fun i below => ?_⟩
    · rw [kept _ (by omega), word k below]
    · rw [kept i (by omega), before i below]

theorem sent_spec (clear : Clear bs) (normal : cur.bit < 8) (le : cur.pos ≤ bs.cur.pos) :
    Readable (bs.sent cur) ∧ (bs.sent cur).cur.pos + (bs.sent cur).left = bs.cur.pos ∧
      ∀ i < bs.cur.pos, bitAt (bs.sent cur).buf i = bitAt bs.buf i := by
  obtain ⟨writerNormal, inside, -⟩ := clear
  have length : 8 * (bs.sent cur).buf.length - (bs.sent cur).padBits = bs.cur.pos ∧
      (bs.sent cur).padBits ≤ 8 * (bs.sent cur).buf.length := by
    unfold Bitstream.sent Cursor.pos at *
    rw [length_take]
    split <;> dsimp only <;> omega
  have cursor : (bs.sent cur).cur = cur := rfl
  refine ⟨⟨normal, mod_lt _ (by decide), ?_⟩, ?_, fun i below => ?_⟩
  · rw [cursor]
    omega
  · rw [Bitstream.left, cursor]
    omega
  · refine bitAt_take.trans ?_
    unfold Cursor.pos at below
    rw [decide_eq_true (by split <;> omega), Bool.true_and]

/-! ### What is read -/

/-- A word of look-ahead: the next `held` bits from `pos`, as many of the 64 as there are. -/
structure Ahead (bits : Nat → Bool) (stop pos : Nat) (word : BitVec 64) (held : Nat) : Prop where
  held_eq : held = min 64 (stop - pos)
  bit_eq : ∀ k, word.getLsbD k = (decide (k < held) && bits (pos + k))

variable {held : Nat}

/-- **The look-ahead decodes to the run length spelled next.** -/
theorem Ahead.decode (ahead : Ahead bits stop pos word held)
    (spelled : Spells bits stop pos (run :: runs)) :
    ∃ len, vliDecodeBits word = some (run, len) ∧ 2 ≤ len ∧ len ≤ held ∧
      (∃ code, vliEncodeWord run = .ok (code, len)) ∧ Spells bits stop (pos + len) runs := by
  obtain ⟨code, len, encoded, codeBits, rest⟩ := spelled
  obtain ⟨⟨two, most⟩, decodes⟩ := vliEncodeWord_spec encoded
  have le : len ≤ held := by
    have := rest.le
    rw [ahead.held_eq]
    omega
  refine ⟨len, decodes word fun k below => ?_, two, le, ⟨code, encoded⟩, rest⟩
  rw [ahead.bit_eq, decide_eq_true (by omega), Bool.true_and, codeBits k below]

theorem ahead_of_fetch (readable : Readable bs) (stopEq : bs.cur.pos + bs.left = stop) :
    ∃ word, bitstreamGetBits bs 64 = some (.ok ⟨min 64 bs.left, word,
        { bs with cur := bs.cur.advance (min 64 bs.left) }⟩) ∧
      Ahead (bitAt bs.buf) stop bs.cur.pos word (min 64 bs.left) := by
  obtain ⟨word, fetched, bits⟩ := @bitstreamGetBits_spec bs 64 readable (by decide) (by decide)
  refine ⟨word, fetched, ?_, bits⟩
  rw [← stopEq, Nat.add_sub_cancel_left]

theorem pos_add_left_advance {count : Nat} (le : count ≤ bs.left) :
    (bs.cur.advance count).pos + Bitstream.left { bs with cur := bs.cur.advance count } =
      bs.cur.pos + bs.left := by
  unfold Bitstream.left at le ⊢
  rw [Cursor.pos_advance]
  dsimp only
  omega

theorem readRuns_spec (enough : runs.length < fuel) (readable : Readable bs)
    (spelled : Spells (bitAt bs.buf) (bs.cur.pos + bs.left) bs.cur.pos runs) :
    readRuns fuel bs = some runs := by
  induction runs generalizing fuel bs with
  | nil =>
    obtain _ | fuel := fuel
    · cases enough
    obtain ⟨word, fetched, -⟩ := ahead_of_fetch readable rfl
    have empty : bs.left = 0 := by
      have same : bs.cur.pos = bs.cur.pos + bs.left := spelled
      omega
    simp [readRuns, fetched, empty]
  | cons run runs ih =>
    obtain _ | fuel := fuel
    · cases enough
    obtain ⟨word, fetched, ahead⟩ := ahead_of_fetch readable rfl
    obtain ⟨len, decoded, two, le, -, rest⟩ := ahead.decode spelled
    have inside : len ≤ bs.left := le_trans le (min_le_right _ _)
    have next : readRuns fuel { bs with cur := bs.cur.advance len } = some runs := by
      refine ih (by simp at enough; omega) (readable.advance inside) ?_
      rw [pos_add_left_advance inside, Cursor.pos_advance]
      exact rest
    simp only [readRuns, fetched, decoded]
    rw [if_neg (by omega), if_neg (by omega), next]
    rfl

/-! ### The receiver's look-ahead -/

variable {wide : BitVec 64 → BitVec 64}

theorem getLsbD_shiftDown (defined : len < 64 ∨ (len ≤ 64 ∧ wide word = 0)) (k : Nat) :
    (shiftDown wide word len).getLsbD k = word.getLsbD (len + k) := by
  unfold shiftDown
  split
  · exact getLsbD_ushiftRight ..
  case isFalse all =>
    obtain ⟨most, zero⟩ := defined.resolve_left all
    rw [zero, getLsbD_of_ge word (len + k) (by omega)]
    simp

theorem Ahead.refill {got : Nat} {fetched : BitVec 64} (ahead : Ahead bits stop pos word held)
    (le : len ≤ held) (defined : len < 64 ∨ (len ≤ 64 ∧ wide word = 0))
    (gotEq : got = min (64 - (held - len)) (stop - (pos + held)))
    (fetchedBits : ∀ k, fetched.getLsbD k = (decide (k < got) && bits (pos + held + k))) :
    Ahead bits stop (pos + len) (shiftDown wide word len ||| (fetched <<< (held - len)))
      (held - len + got) := by
  obtain ⟨heldEq, wordBits⟩ := ahead
  refine ⟨by omega, fun k => ?_⟩
  rw [getLsbD_or, getLsbD_shiftDown defined, wordBits, getLsbD_shiftLeft,
    fetchedBits]
  by_cases old : k < held - len
  · simp [old, show len + k < held by omega, show k < held - len + got by omega, add_assoc]
  by_cases new : k < held - len + got
  · simp [old, new, show ¬ len + k < held by omega, show k < 64 by omega,
      show k - (held - len) < got by omega,
      show pos + held + (k - (held - len)) = pos + len + k by omega]
  · simp [new, show ¬ len + k < held by omega, show ¬ k - (held - len) < got by omega]

/-- The receiver's shift is harmless: no code word has 64 bits, or a shift by 64 leaves nothing. -/
def Shiftable (wide : BitVec 64 → BitVec 64) (runs : List (BitVec 64)) : Prop :=
  (∀ word, wide word = 0) ∨ ∀ run ∈ runs, run.toNat ≤ 0x400202130

theorem Shiftable.defined (shiftable : Shiftable wide (run :: runs)) {code : BitVec 64}
    (encoded : vliEncodeWord run = .ok (code, len)) :
    len < 64 ∨ (len ≤ 64 ∧ wide word = 0) := by
  rcases shiftable with zero | small
  · exact .inr ⟨(vliEncodeWord_spec encoded).1.2, zero word⟩
  · exact .inl (vliEncodeWord_short (small run mem_cons_self) encoded)

theorem recvLoop_spec (enough : runs.length < fuel) (readable : Readable bs)
    (shiftable : Shiftable wide runs)
    (cursor : bs.cur.pos = pos + held)
    (ahead : Ahead (bitAt bs.buf) (bs.cur.pos + bs.left) pos word held)
    (spelled : Spells (bitAt bs.buf) (bs.cur.pos + bs.left) pos runs) :
    recvLoop wide fuel bs word held = some runs := by
  induction runs generalizing fuel pos held bs word with
  | nil =>
    obtain _ | fuel := fuel
    · cases enough
    have empty : held = 0 := by
      have same : pos = bs.cur.pos + bs.left := spelled
      omega
    rw [recvLoop, if_pos empty]
  | cons run runs ih =>
    obtain _ | fuel := fuel
    · cases enough
    obtain ⟨len, decoded, two, le, ⟨code, encoded⟩, rest⟩ := ahead.decode spelled
    have heldLe : held ≤ 64 := ahead.held_eq ▸ min_le_left _ _
    obtain ⟨out, fetched, outBits⟩ := @bitstreamGetBits_spec bs (64 - (held - len)) readable
      (by omega) (sub_le _ _)
    let more := min (64 - (held - len)) bs.left
    have gotLe : more ≤ bs.left := min_le_right _ _
    have got : more = min (64 - (held - len)) (bs.cur.pos + bs.left - (pos + held)) := by
      omega
    have ahead' := ahead.refill le (shiftable.defined encoded) got
      (fun k => by rw [outBits k, cursor])
    have stop := pos_add_left_advance gotLe
    have next := @ih fuel { bs with cur := bs.cur.advance more }
      (shiftDown wide word len ||| (out <<< (held - len))) (pos + len) (held - len + more)
      (by simp at enough; omega)
      (readable.advance gotLe)
      (shiftable.imp id fun small later mem => small later (mem_cons_of_mem _ mem))
      (by rw [Cursor.pos_advance, cursor]; omega)
      (by rw [stop]; exact ahead') (by rw [stop]; exact rest)
    rw [recvLoop, if_neg (by omega)]
    simp only [decoded, fetched]
    rw [if_neg (by omega), next]
    rfl

/-- **The receiver returns what is spelled**, where its shift is harmless. -/
theorem recvRuns_spec (enough : runs.length < fuel) (readable : Readable bs)
    (shiftable : Shiftable wide runs)
    (spelled : Spells (bitAt bs.buf) (bs.cur.pos + bs.left) bs.cur.pos runs) :
    recvRuns wide fuel bs = some runs := by
  obtain ⟨word, fetched, ahead⟩ := ahead_of_fetch readable rfl
  have stop := @pos_add_left_advance bs _ (min_le_right 64 _)
  simp only [recvRuns, fetched]
  refine recvLoop_spec enough (readable.advance (min_le_right _ _)) shiftable
    (Cursor.pos_advance ..) ?_ ?_
  · rw [stop]
    exact ahead
  · rw [stop]
    exact spelled

/-! ### The round trip -/

theorem sent_spells (clear : Clear bs) (runs : List (BitVec 64)) :
    let sent := (writeRuns bs runs).2.sent bs.cur
    Readable sent ∧ Spells (bitAt sent.buf) (sent.cur.pos + sent.left) sent.cur.pos
      (writeRuns bs runs).1 := by
  obtain ⟨clearEnd, spelled, -⟩ := writeRuns_spells clear runs
  obtain ⟨readable, stop, same⟩ := sent_spec clearEnd clear.normal spelled.le
  refine ⟨readable, ?_⟩
  rw [stop]
  exact spelled.congr same

/-- **The run length code round trip.** The code words are free of prefixes and every word decodes;
what a stream took is read back from it, from any position; a write that is refused for lack of room
changes nothing. -/
theorem runs_round_trip (clear : Clear bs) :
    (∀ run : BitVec 64, 0 < run.toNat → run.toNat ≤ vliMax →
      ∃ code len, vliEncodeWord run = .ok (code, len) ∧ vliDecodeBits code = some (run, len)) ∧
    (∀ run other code code' : BitVec 64, ∀ len len', vliEncodeWord run = .ok (code, len) →
      vliEncodeWord other = .ok (code', len') → len ≤ len' → StartsWith code' code len →
      run = other) ∧
    (∀ word, ∃ run len, vliDecodeBits word = some (run, len)) ∧
    (∀ runs fuel, (writeRuns bs runs).1.length < fuel →
      readRuns fuel ((writeRuns bs runs).2.sent bs.cur) = some (writeRuns bs runs).1 ∧
      ∀ wide, Shiftable wide (writeRuns bs runs).1 →
        recvRuns wide fuel ((writeRuns bs runs).2.sent bs.cur) = some (writeRuns bs runs).1) ∧
    ∀ run, (vliEncodeBits bs run).1 = .error .enobufs → (vliEncodeBits bs run).2 = bs := by
  refine ⟨?_, ?_, vliDecodeBits_total, ?_, ?_⟩
  · intro run pos le
    obtain ⟨code, len, encoded⟩ := vliEncodeWord_ok pos le
    exact ⟨code, len, encoded, (vliEncodeWord_spec encoded).2 code fun _ _ => rfl⟩
  · intro run other code code' len len' encoded encoded' _ starts
    have first := (vliEncodeWord_spec encoded).2 code' starts
    rw [(vliEncodeWord_spec encoded').2 code' fun _ _ => rfl] at first
    cases first
    rfl
  · intro runs fuel enough
    obtain ⟨readable, spelled⟩ := sent_spells clear runs
    exact ⟨readRuns_spec enough readable spelled,
      fun wide shiftable => recvRuns_spec enough readable shiftable spelled⟩
  intro run refused
  rcases vliEncodeBits_spec clear run with ⟨errno, same⟩ | ⟨_, _, _, _, put, _⟩
  · rw [same]
  · rw [put] at refused
    cases refused

def started : Bitstream :=
  ⟨⟨0, 3⟩, [5, 0, 0, 0, 0, 0, 0], 0⟩

theorem clear_started : Clear started where
  normal := by decide
  inside := by decide
  clear := by
    have inBuffer : ∀ i < 56, started.cur.pos ≤ i → bitAt started.buf i = false := by decide
    intro i above
    rcases lt_or_ge i 56 with inside | outside
    · exact inBuffer i inside above
    · unfold bitAt started
      rw [getD_eq_getElem?_getD, List.getElem?_eq_none (by simp; omega)]
      simp

/-- Five run lengths of which four find room, read back from the fourth bit on. -/
theorem runs_round_trip_started :
    (writeRuns started [3, 0x2000, 1, 0x100000, 9]).1 = [3, 0x2000, 1, 9] ∧
    readRuns 5 ((writeRuns started [3, 0x2000, 1, 0x100000, 9]).2.sent started.cur)
      = some [3, 0x2000, 1, 9] := by
  have taken : (writeRuns started [3, 0x2000, 1, 0x100000, 9]).1 = [3, 0x2000, 1, 9] := by
    decide +kernel
  refine ⟨taken, ?_⟩
  have read := ((runs_round_trip clear_started).2.2.2.1 [3, 0x2000, 1, 0x100000, 9] 5
    (by rw [taken]; decide)).1
  exact read

end KernelImx.Drbd
