/-
**The entries an offset of the log retains.**

`Retains log off entries`: the bytes from `off` to the write offset are the given entries, one
after the other, and they do not fill the ring. It is what every offset the driver keeps (`head` and
the readers' offsets) satisfies, for a suffix of the entries whose write succeeded:
-/

import KernelImx.Logger.Log

namespace KernelImx.Logger

open List KernelImx.Lib Nat

/-! ### Offsets of a log whose size is a power of two -/

/-- What `DEFINE_LOGGER_DEVICE` asks of the size of a log. -/
structure LogSize (size : Nat) : Prop where
  pow : ∃ exponent, size = 2 ^ exponent
  large : loggerEntryMaxLen < size

variable {size : Nat}

theorem LogSize.pos (sized : LogSize size) : 0 < size :=
  lt_of_le_of_lt (zero_le _) sized.large

theorem LogSize.twice (sized : LogSize size) : 2 * loggerEntryMaxLen ≤ size := by
  obtain ⟨exponent, rfl⟩ := sized.pow
  have bound : 2 ^ 12 < 2 ^ exponent := sized.large
  have above : 12 < exponent := (Nat.pow_lt_pow_iff_right (by norm_num)).mp bound
  calc 2 * loggerEntryMaxLen = 2 ^ 13 := rfl
    _ ≤ 2 ^ exponent := Nat.pow_le_pow_right (by norm_num) above

variable {log : LoggerLog}

theorem loggerOffset_eq_mod (sized : LogSize log.size) (n : Nat) :
    loggerOffset log n = n % log.size := by
  obtain ⟨exponent, same⟩ := sized.pow
  rw [loggerOffset, same, and_two_pow_sub_one_eq_mod]

variable {off : Nat}

theorem getEntryLen_eq (offIn : off < log.size) :
    getEntryLen log off =
      sizeofLoggerEntry + value16 (log.buffer off) (log.buffer ((off + 1) % log.size)) := by
  by_cases last : log.size - off = 1
  · have wraps : (off + 1) % log.size = 0 := by
      rw [show off + 1 = log.size by omega, mod_self]
    simp only [getEntryLen, last, wraps]
  · rw [getEntryLen, mod_eq_of_lt (show off + 1 < log.size by omega)]
    split
    next one => exact absurd one last
    · rfl

theorem getEntryLen_pos (log : LoggerLog) (off : Nat) : 0 < getEntryLen log off := by
  unfold getEntryLen sizeofLoggerEntry
  omega

/-! ### Retained entries -/

/-- An entry whose length field says its length. -/
structure WellSized (entry : List UInt8) : Prop where
  header : sizeofLoggerEntry ≤ entry.length
  small : entry.length ≤ loggerEntryMaxLen
  length : entry.length = sizeofLoggerEntry + value16 (entry.getD 0 0) (entry.getD 1 0)

/-- The bytes from `off` to the write offset are `entries`. -/
structure Retains (log : LoggerLog) (off : Nat) (entries : List (List UInt8)) : Prop where
  offIn : off < log.size
  sized : ∀ entry ∈ entries, WellSized entry
  bytes : ringRead log.buffer log.size off entries.flatten.length = entries.flatten
  ends : (off + entries.flatten.length) % log.size = log.wOff
  room : entries.flatten.length < log.size

theorem Retains.nil (offIn : log.wOff < log.size) : Retains log log.wOff [] where
  offIn := offIn
  sized := by simp
  bytes := rfl
  ends := mod_eq_of_lt offIn
  room := by simpa using lt_of_le_of_lt (zero_le _) offIn

variable {entry : List UInt8}

theorem Retains.first {rest : List (List UInt8)} (kept : Retains log off (entry :: rest)) :
    getEntryLen log off = entry.length ∧
      ringRead log.buffer log.size off entry.length = entry := by
  have sized := kept.sized entry (by simp)
  have whole := kept.bytes
  rw [flatten_cons, length_append, ringRead_add] at whole
  obtain ⟨bytes, -⟩ := append_inj whole (by simp)
  refine ⟨?_, bytes⟩
  have two : 2 ≤ entry.length := le_trans (by decide) sized.header
  have byteAt : ∀ index, index < entry.length →
      log.buffer ((off + index) % log.size) = entry.getD index 0 := by
    intro index inside
    rw [getD_eq_getElem _ _ inside]
    conv_rhs => rw [← getElem_of_eq bytes (by simpa using inside)]
    simp [ringRead]
  have zeroth := byteAt 0 (by omega)
  rw [add_zero, mod_eq_of_lt kept.offIn] at zeroth
  rw [getEntryLen_eq kept.offIn, zeroth, byteAt 1 (by omega), ← sized.length]

theorem Retains.tail {rest : List (List UInt8)} (kept : Retains log off (entry :: rest)) :
    Retains log ((off + entry.length) % log.size) rest := by
  have whole := kept.bytes
  have ends := kept.ends
  have room := kept.room
  rw [flatten_cons, length_append] at whole ends room
  rw [ringRead_add] at whole
  obtain ⟨-, bytes⟩ := append_inj whole (by simp)
  refine ⟨mod_lt _ (by omega), fun entry inside => kept.sized entry (by simp [inside]), bytes,
    ?_, by omega⟩
  rw [mod_add_mod_assoc, ends]

variable {entries : List (List UInt8)}

theorem Retains.at_end_iff (kept : Retains log off entries) : off = log.wOff ↔ entries = [] := by
  constructor
  · intro atEnd
    by_contra some
    obtain ⟨entry, rest, rfl⟩ := exists_cons_of_ne_nil some
    have long : 0 < (entry :: rest).flatten.length := by
      have := (kept.sized entry (by simp)).header
      rw [flatten_cons, length_append]
      exact lt_of_lt_of_le (by decide) (le_trans this (le_add_right _ _))
    have ends := kept.ends
    rw [add_mod_wrap kept.offIn (le_of_lt kept.room), ← atEnd] at ends
    have room := kept.room
    split at ends <;> omega
  · rintro rfl
    simpa [mod_eq_of_lt kept.offIn] using kept.ends

/-! ### Decoding the ring -/

/-- Cut the bytes from `off` to the write offset into entries; `none` when one would run past it. -/
def decodeLoop (log : LoggerLog) : Nat → Nat → Option (List (List UInt8))
  | 0, off => if off = log.wOff then some [] else none
  | fuel + 1, off =>
    if off = log.wOff then some []
    else
      let len := getEntryLen log off
      if ringDist log.size off log.wOff < len then none
      else
        (decodeLoop log fuel (loggerOffset log (off + len))).map
          (ringRead log.buffer log.size off len :: ·)

/-- The entries from `off` to the write offset. -/
def decode (log : LoggerLog) (off : Nat) : Option (List (List UInt8)) := decodeLoop log log.size off

theorem Retains.decodeLoop (size : LogSize log.size) {fuel : Nat} (kept : Retains log off entries)
    (enough : entries.length ≤ fuel) :
    decodeLoop log fuel off = some entries := by
  induction entries generalizing fuel off with
  | nil =>
    have atEnd := kept.at_end_iff.mpr rfl
    cases fuel <;> simp [Logger.decodeLoop, atEnd]
  | cons entry rest ih =>
    obtain ⟨fuel, rfl⟩ : ∃ smaller, fuel = smaller + 1 := ⟨fuel - 1, by simp at enough; omega⟩
    obtain ⟨len, bytes⟩ := kept.first
    have before : ¬ off = log.wOff := fun atEnd => by
      simpa using kept.at_end_iff.mp atEnd
    have reach : ringDist log.size off log.wOff = (entry :: rest).flatten.length := by
      rw [← kept.ends]
      exact ringDist_add kept.offIn kept.room
    have inside : ¬ ringDist log.size off log.wOff < entry.length := by
      rw [reach, flatten_cons, length_append]
      omega
    simp only [Logger.decodeLoop, if_neg before, len, if_neg inside, bytes,
      loggerOffset_eq_mod size]
    rw [ih kept.tail (by simpa using enough)]
    rfl

theorem Retains.length_le (kept : Retains log off entries) : entries.length ≤ log.size := by
  have bound : ∀ list : List (List UInt8), (∀ entry ∈ list, WellSized entry) →
      list.length ≤ list.flatten.length := by
    intro list sized
    induction list with
    | nil => simp
    | cons entry rest ih =>
      have one := (sized entry (by simp)).header
      have others := ih fun entry inside => sized entry (by simp [inside])
      rw [flatten_cons, length_append, length_cons]
      unfold sizeofLoggerEntry at one
      omega
  exact le_trans (bound entries kept.sized) (le_of_lt kept.room)

/-- **Decoding from an offset that retains entries gives them back.** -/
theorem Retains.decode (size : LogSize log.size) (kept : Retains log off entries) :
    decode log off = some entries :=
  kept.decodeLoop size kept.length_le

/-! ### `fix_up_readers` makes room in front of every offset -/

variable {len : Nat}

/-- What is left of entries when `get_next_entry` has skipped `len` bytes of them, `passed` of them
before. -/
def skipEntries (len : Nat) : Nat → List (List UInt8) → List (List UInt8)
  | _, [] => []
  | passed, entry :: rest =>
    if passed + entry.length < len then skipEntries len (passed + entry.length) rest else rest

theorem skipEntries_suffix (len count : Nat) (entries : List (List UInt8)) :
    skipEntries len count entries <:+ entries := by
  induction entries generalizing count with
  | nil => exact suffix_refl _
  | cons entry rest ih =>
    rw [skipEntries]
    split
    · exact (ih _).trans (suffix_cons _ _)
    · exact suffix_cons _ _

theorem getNextEntryLoop_retains (size : LogSize log.size) (fuel off count : Nat)
    (kept : Retains log off entries) (missing : count < len)
    (enough : len ≤ count + entries.flatten.length) (fueled : len ≤ count + fuel) :
    Retains log (getNextEntryLoop log len fuel off count) (skipEntries len count entries) ∧
      (skipEntries len count entries).flatten.length + len ≤ count + entries.flatten.length := by
  induction fuel generalizing off count entries with
  | zero => omega
  | succ fuel ih =>
    cases entries with
    | nil =>
      rw [flatten_nil, length_nil] at enough
      omega
    | cons entry rest =>
      obtain ⟨entryLen, -⟩ := kept.first
      have positive : 0 < entry.length := entryLen ▸ getEntryLen_pos log off
      have after := kept.tail
      rw [flatten_cons, length_append] at enough ⊢
      rw [getNextEntryLoop, entryLen, loggerOffset_eq_mod size, skipEntries]
      by_cases more : count + entry.length < len
      · rw [if_pos more, if_pos more]
        obtain ⟨retained, skipped⟩ := ih _ _ after more (by omega) (by omega)
        exact ⟨retained, by omega⟩
      · rw [if_neg more, if_neg more]
        exact ⟨after, by omega⟩

/-- What `fix_up_readers` leaves of the entries of an offset before a write of `len` bytes. -/
def makeRoom (size len : Nat) (entries : List (List UInt8)) : List (List UInt8) :=
  if size ≤ entries.flatten.length + len then skipEntries len 0 entries else entries

theorem makeRoom_suffix (size len : Nat) (entries : List (List UInt8)) :
    makeRoom size len entries <:+ entries := by
  unfold makeRoom
  split
  · exact skipEntries_suffix len 0 entries
  · exact suffix_refl _

/-- `clock_interval` finds an offset on the way of the write just when there is no room in front of
it. -/
theorem clockInterval_iff {wOff total : Nat} (offIn : off < size) (ends : (off + total) % size = wOff)
    (room : total < size) (short : len < size) :
    clockInterval wOff ((wOff + len) % size) off = true ↔ size ≤ total + len := by
  have wOffIn : wOff < size := ends ▸ mod_lt _ (by omega)
  rw [add_mod_wrap offIn (by omega : total ≤ size)] at ends
  rw [add_mod_wrap wOffIn (by omega : len ≤ size)]
  unfold clockInterval
  split at ends <;> split <;> split <;> simp only [decide_eq_true_eq] <;> omega

/-- **`fix_up_readers` on one offset**: it drops entries from the front where the write has no room, and
leaves room for it. -/
theorem pullForward_retains (size : LogSize log.size) (kept : Retains log off entries)
    (positive : 0 < len) (small : len ≤ loggerEntryMaxLen) :
    Retains log (pullForward log len off) (makeRoom log.size len entries) ∧
      (makeRoom log.size len entries).flatten.length + len < log.size := by
  have twice := size.twice
  have room := kept.room
  unfold pullForward makeRoom
  rw [loggerOffset_eq_mod size]
  have crosses := clockInterval_iff kept.offIn kept.ends room (by omega : len < log.size)
  by_cases full : log.size ≤ entries.flatten.length + len
  · rw [if_pos (crosses.mpr full), if_pos full]
    -- the ring is at least twice an entry, so the retained bytes are enough for the loop
    obtain ⟨retained, skipped⟩ :=
      getNextEntryLoop_retains size (len + 1) off 0 kept positive (by omega) (by omega)
    exact ⟨retained, by omega⟩
  · rw [if_neg (mt crosses.mp full), if_neg full]
    exact ⟨kept, not_le.mp full⟩

/-! ### Writes seen from the retained entries -/

theorem Retains.frame {after : LoggerLog} (kept : Retains log off entries)
    (room : entries.flatten.length + len < log.size) (sameSize : after.size = log.size)
    (sameEnd : after.wOff = log.wOff)
    (frame : FrameFrom log.size log.wOff len log.buffer after.buffer) :
    Retains after off entries where
  offIn := sameSize ▸ kept.offIn
  sized := kept.sized
  bytes := by
    rw [sameSize, ringRead_congr_behind kept.offIn kept.ends (by omega) frame]
    exact kept.bytes
  ends := by
    rw [sameSize, sameEnd]
    exact kept.ends
  room := sameSize ▸ kept.room

theorem Retains.append {after : LoggerLog} (kept : Retains log off entries)
    (room : entries.flatten.length + entry.length < log.size) (sized : WellSized entry)
    (sameSize : after.size = log.size) (ends : after.wOff = (log.wOff + entry.length) % log.size)
    (frame : FrameFrom log.size log.wOff entry.length log.buffer after.buffer)
    (bytes : ringRead after.buffer log.size log.wOff entry.length = entry) :
    Retains after off (entries ++ [entry]) where
  offIn := sameSize ▸ kept.offIn
  sized := by
    intro other inside
    rcases mem_append.mp inside with old | new
    · exact kept.sized other old
    · rw [mem_singleton.mp new]
      exact sized
  bytes := by
    have total : (entries ++ [entry]).flatten.length = entries.flatten.length + entry.length := by
      simp
    rw [total, sameSize, ringRead_add, kept.ends,
      ringRead_congr_behind kept.offIn kept.ends (by omega) frame, kept.bytes, bytes]
    simp
  ends := by
    have total : (entries ++ [entry]).flatten.length = entries.flatten.length + entry.length := by
      simp
    rw [total, sameSize, ends, ← mod_add_mod_assoc, kept.ends]
  room := by
    have total : (entries ++ [entry]).flatten.length = entries.flatten.length + entry.length := by
      simp
    rw [total, sameSize]
    exact room

end KernelImx.Logger
