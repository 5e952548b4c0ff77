/-
**The ranges of `fcntl` locks** (`fs/locks.c`).

A caller describes a range by `l_whence`, `l_start` and `l_len`. `flock_to_posix_lock` computes it in
words of 32 bits (`off_t`), `flock64_to_posix_lock` in words of 64 bits (`loff_t`); both take the
position and the size of the file from 64 bits.

Main result: `flock_ranges_agree_iff`.
-/

import KernelImx.Locks.Own

namespace KernelImx.Locks

/-- `struct flock` and `struct flock64`. -/
structure Flock where
  lType : Int
  lWhence : Int
  lStart : Int
  lLen : Int

/-- The value of a signed integer of so many bits. -/
def signed (bits : Nat) (value : Int) : Int :=
  (value + 2 ^ (bits - 1)) % 2 ^ bits - 2 ^ (bits - 1)

/-- `F_RDLCK`, `F_WRLCK` and `F_UNLCK`. -/
def assignType : Int → Except Errno LockType
  | 0 => .ok .rdlck
  | 1 => .ok .wrlck
  | 2 => .ok .unlck
  | _ => .error .einval

/-- The offset that `SEEK_SET`, `SEEK_CUR` and `SEEK_END` count from. -/
def whenceBase (fPos iSize : Int) : Int → Except Errno Int
  | 0 => .ok 0
  | 1 => .ok fPos
  | 2 => .ok iSize
  | _ => .error .einval

def checkRange (start stop : Int) : Except Errno (Int × Int) :=
  if stop < start then .error .eoverflow else .ok (start, stop)

/-- `fl_start` and `fl_end`, with offsets of so many bits. -/
def rangeFrom (bits : Nat) (l : Flock) (base : Int) : Except Errno (Int × Int) :=
  let start := signed bits (signed bits base + l.lStart)
  if start < 0 then .error .einval
  else if 0 < l.lLen then checkRange start (signed bits (start + l.lLen - 1))
  else if l.lLen < 0 then
    if signed bits (start + l.lLen) < 0 then .error .einval
    else checkRange (signed bits (start + l.lLen)) (signed bits (start - 1))
  else checkRange start offsetMax

/-- The translation: the start, the end and the type of the lock. -/
def toPosixLock (bits : Nat) (fPos iSize : Int) (l : Flock) :
    Except Errno (Int × Int × LockType) := do
  let base ← whenceBase fPos iSize l.lWhence
  let (start, stop) ← rangeFrom bits l base
  return (start, stop, ← assignType l.lType)

def flockToPosixLock := toPosixLock 32

def flock64ToPosixLock := toPosixLock 64

/-! ### The request -/

/-- The range that is asked for, from an offset. -/
def Flock.requested (l : Flock) (base : Int) : Int × Int :=
  if 0 < l.lLen then (base + l.lStart, base + l.lStart + l.lLen - 1)
  else if l.lLen < 0 then (base + l.lStart + l.lLen, base + l.lStart - 1)
  else (base + l.lStart, offsetMax)

/-- The offset that `l_len` leads to. -/
def Flock.farEnd (l : Flock) (base : Int) : Int :=
  base + l.lStart + if 0 < l.lLen then l.lLen - 1 else l.lLen

/-- The request fits the offsets of so many bits when it is moved. -/
def Flock.FitsAt (l : Flock) (base shift : Int) (bits : Nat) : Prop :=
  0 ≤ base + l.lStart + shift ∧ base + l.lStart + shift < 2 ^ (bits - 1) ∧
    0 ≤ l.farEnd base + shift ∧ l.farEnd base + shift < 2 ^ (bits - 1)

/-- **What is accepted** is the request, moved by a multiple of the words. -/
theorem rangeFrom_ok_iff {bits : Nat} (width : bits = 32 ∨ bits = 64) {l : Flock}
    (len : -2 ^ 31 ≤ l.lLen ∧ l.lLen < 2 ^ 31) (base start stop : Int) :
    rangeFrom bits l base = .ok (start, stop) ↔ ∃ k : Int, l.FitsAt base (k * 2 ^ bits) bits ∧
      start = (l.requested base).1 + k * 2 ^ bits ∧
      stop = if l.lLen = 0 then offsetMax else (l.requested base).2 + k * 2 ^ bits := by
  obtain ⟨k, moved, low, high⟩ : ∃ k : Int,
      signed bits (signed bits base + l.lStart) = base + l.lStart + k * 2 ^ bits ∧
        -2 ^ (bits - 1) ≤ signed bits (signed bits base + l.lStart) ∧
        signed bits (signed bits base + l.lStart) < 2 ^ (bits - 1) := by
    refine ⟨(signed bits (signed bits base + l.lStart) - (base + l.lStart)) / 2 ^ bits, ?_⟩
    rcases width with rfl | rfl <;> unfold signed <;> omega
  unfold rangeFrom checkRange Flock.FitsAt Flock.requested Flock.farEnd offsetMax
  rcases width with rfl | rfl
  all_goals
    dsimp only
    split_ifs <;> simp only [signed, Except.ok.injEq, Prod.mk.injEq, false_iff, not_exists] at *
    all_goals first | omega | skip
    all_goals
      constructor
      · rintro ⟨rfl, rfl⟩
        exact ⟨k, by omega, by omega, by omega⟩
      · rintro ⟨k', fits, rfl, rfl⟩
        omega

variable {bits : Nat} {fPos iSize start stop : Int} {l : Flock} {type : LockType}

theorem toPosixLock_ok_iff : toPosixLock bits fPos iSize l = .ok (start, stop, type) ↔
    ∃ base, whenceBase fPos iSize l.lWhence = .ok base ∧ rangeFrom bits l base = .ok (start, stop) ∧
      assignType l.lType = .ok type := by
  unfold toPosixLock
  cases whenceBase fPos iSize l.lWhence with
  | error => simp [bind, Except.bind]
  | ok base =>
    cases ranged : rangeFrom bits l base <;> cases assignType l.lType <;>
      simp [bind, Except.bind, pure, Except.pure, ranged, Prod.ext_iff, and_assoc]

/-- Only ranges of the file that were asked for are accepted. -/
def Faithful (bits : Nat) (fPos iSize : Int) (l : Flock) : Prop :=
  ∀ start stop type, toPosixLock bits fPos iSize l = .ok (start, stop, type) → InFile start stop ∧
    ∃ base, whenceBase fPos iSize l.lWhence = .ok base ∧ (start, stop) = l.requested base

/-- No multiple of the words but zero moves the request to offsets that fit. -/
def Unmoved (bits : Nat) (fPos iSize : Int) (l : Flock) : Prop :=
  ∀ base type, whenceBase fPos iSize l.lWhence = .ok base → assignType l.lType = .ok type →
    ∀ k : Int, l.FitsAt base (k * 2 ^ bits) bits → k = 0

theorem faithful_iff (width : bits = 32 ∨ bits = 64) (len : -2 ^ 31 ≤ l.lLen ∧ l.lLen < 2 ^ 31) :
    Faithful bits fPos iSize l ↔ Unmoved bits fPos iSize l := by
  constructor
  · intro faithful base type known typed k fits
    obtain ⟨-, other, known', same⟩ := faithful _ _ type (toPosixLock_ok_iff.mpr
      ⟨base, known, (rangeFrom_ok_iff width len base _ _).mpr ⟨k, fits, rfl, rfl⟩, typed⟩)
    cases known.symm.trans known'
    have same := congrArg Prod.fst same
    rcases width with rfl | rfl <;> dsimp only at same <;> omega
  intro unmoved start stop type accepted
  obtain ⟨base, known, ranged, typed⟩ := toPosixLock_ok_iff.mp accepted
  obtain ⟨k, fits, rfl, rfl⟩ := (rangeFrom_ok_iff width len base start stop).mp ranged
  obtain rfl := unmoved base type known typed k fits
  refine ⟨?_, base, known, ?_⟩
  · unfold Flock.FitsAt Flock.farEnd at fits
    unfold Flock.requested
    rcases width with rfl | rfl <;> split_ifs at * <;> constructor <;> dsimp only [offsetMax] <;> omega
  · unfold Flock.requested
    split_ifs <;> first | omega | simp

/-- **The two translations agree**, on ranges that were asked for, exactly when no multiple of `2 ^
32` or `2 ^ 64` but zero moves the request to offsets that fit. -/
theorem flock_ranges_agree_iff (len : -2 ^ 31 ≤ l.lLen ∧ l.lLen < 2 ^ 31) :
    ((∀ range, flockToPosixLock fPos iSize l = .ok range → flock64ToPosixLock fPos iSize l = .ok range) ∧
        Faithful 32 fPos iSize l ∧ Faithful 64 fPos iSize l) ↔
      Unmoved 32 fPos iSize l ∧ Unmoved 64 fPos iSize l := by
  rw [faithful_iff (.inl rfl) len, faithful_iff (.inr rfl) len]
  refine ⟨And.right, fun unmoved => ⟨?_, unmoved⟩⟩
  rintro ⟨start, stop, type⟩ accepted
  obtain ⟨base, known, ranged, typed⟩ := toPosixLock_ok_iff.mp accepted
  obtain ⟨k, fits, rfl, rfl⟩ := (rangeFrom_ok_iff (.inl rfl) len base start stop).mp ranged
  obtain rfl := unmoved.1 base type known typed k fits
  refine toPosixLock_ok_iff.mpr ⟨base, known, ?_, typed⟩
  refine (rangeFrom_ok_iff (.inr rfl) len base _ _).mpr ⟨0, ?_, by simp, by simp⟩
  unfold Flock.FitsAt at *
  omega

/-- Two bytes from offset 5 on. -/
theorem flock_ranges_agree_iff_five :
    (∀ range, flockToPosixLock 0 0 ⟨0, 0, 5, 2⟩ = .ok range →
        flock64ToPosixLock 0 0 ⟨0, 0, 5, 2⟩ = .ok range) ∧
      Faithful 32 0 0 ⟨0, 0, 5, 2⟩ ∧ Faithful 64 0 0 ⟨0, 0, 5, 2⟩ := by
  refine (flock_ranges_agree_iff (by decide)).mpr ⟨?_, ?_⟩
  all_goals
    rintro _ _ ⟨⟩ - k ⟨low, high, -⟩
    dsimp only at low high
    omega

/-- **One byte at the end of a file of `2 ^ 32` bytes** is taken for the first byte. -/
theorem flock_ranges_differ : flockToPosixLock 0 (2 ^ 32) ⟨1, 2, 0, 1⟩ = .ok (0, 0, .wrlck) ∧
    flock64ToPosixLock 0 (2 ^ 32) ⟨1, 2, 0, 1⟩ = .ok (2 ^ 32, 2 ^ 32, .wrlck) := by
  decide

end KernelImx.Locks
