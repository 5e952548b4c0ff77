/-
**User wake locks** (kernel/power/userwakelock.c).

User space takes and releases wake locks by name. A write to `wake_lock` or `wake_unlock` is a name
and, for a lock, a timeout in nanoseconds; the locks are in a tree ordered by name, and the first
write of a name makes one. A `long` has 32 bits and `HZ` is 100.

The debug messages and the listings are left out.
-/

import KernelImx.Power.WakeLock
import KernelImx.Lib.SearchTree

namespace KernelImx.Power

open KernelImx.Lib List

/-- An `unsigned char`. -/
abbrev Byte := Fin 256

/-! ### Numbers -/

def isspace (c : Byte) : Bool := (9 ≤ c && c ≤ 13) || c == 32 || c == 160

def isdigit (c : Byte) : Bool := 48 ≤ c && c ≤ 57

def isxdigit (c : Byte) : Bool := isdigit c || (65 ≤ c && c ≤ 70) || (97 ≤ c && c ≤ 102)

/-- `TOLOWER` -/
def toLower (c : Byte) : Byte := c ||| 0x20

def simpleGuessBase (cp : List Byte) : Nat :=
  if cp.headD 0 = 48 then
    if toLower (cp.getD 1 0) = 120 ∧ isxdigit (cp.getD 2 0) then 16 else 8
  else 10

/-- The loop of `simple_strtoull`. -/
def strtoullLoop (base : Nat) : List Byte → BitVec 64 → BitVec 64 × List Byte
  | [], result => (result, [])
  | c :: cp, result =>
    let value := if isdigit c then c.val - 48 else (toLower c).val - 97 + 10
    if isxdigit c ∧ value < base then
      strtoullLoop base cp (result * BitVec.ofNat 64 base + BitVec.ofNat 64 value)
    else (result, c :: cp)

/-- `simple_strtoull` with base 0: the number and the text after it. -/
def simpleStrtoull (cp : List Byte) : BitVec 64 × List Byte :=
  let base := simpleGuessBase cp
  strtoullLoop base (if base = 16 then cp.drop 2 else cp) 0

/-! ### A write -/

/-- `NSEC_PER_SEC / HZ` -/
def nsecPerJiffy : Nat := 10000000

/-- From nanoseconds to jiffies, stored in a `long`. -/
def jiffiesOf (timeout : BitVec 64) : BitVec 32 :=
  let timeout := (timeout + BitVec.ofNat 64 (nsecPerJiffy - 1)).toNat / nsecPerJiffy
  BitVec.ofNat 32 (if timeout = 0 then 1 else timeout)

def nameOf (buf : List Byte) : List Byte := buf.takeWhile (!isspace ·)

def argOf (buf : List Byte) : List Byte := (buf.drop (nameOf buf).length).dropWhile isspace

/-- The timeout of a write, 0 without one; `none` for a bad argument. -/
def readTimeout (buf : List Byte) (timed : Bool) : Option (BitVec 32) :=
  if nameOf buf = [] then none
  else if timed ∧ argOf buf ≠ [] then
    let (timeout, arg) := simpleStrtoull (argOf buf)
    if arg.dropWhile isspace = [] then some (jiffiesOf timeout) else none
  else if argOf buf = [] then some 0
  else none

def strncmp : List Byte → List Byte → Nat → Int
  | _, _, 0 => 0
  | cs, ct, count + 1 =>
    if cs.headD 0 ≠ ct.headD 0 then if cs.headD 0 < ct.headD 0 then -1 else 1
    else if cs.headD 0 = 0 then 0
    else strncmp cs.tail ct.tail count

structure UserWakeLock where
  name : List Byte
  wakeLock : Nat
  deriving DecidableEq

/-- `diff` of the text `buf` and a lock. -/
def nameDiff (buf name : List Byte) : Int :=
  let diff := strncmp buf name (nameOf buf).length
  if diff = 0 ∧ name.getD (nameOf buf).length 0 ≠ 0 then -1 else diff

def goesLeft (buf : List Byte) (l : UserWakeLock) : Option Bool :=
  if nameDiff buf l.name < 0 then some true
  else if nameDiff buf l.name > 0 then some false
  else none

/-- `lookup_wake_lock_name`: the lock, the timeout and whether the lock is new. `memory` is what
`kzalloc` returns. -/
def lookupWakeLockName (buf : List Byte) (allocate timed : Bool) (memory : Option Nat)
    (balance : Rebalance UserWakeLock) (tree : BinaryTree UserWakeLock) :
    Except Errno (UserWakeLock × BitVec 32 × Bool) × BinaryTree UserWakeLock :=
  match readTimeout buf timed with
  | none => (.error .einval, tree)
  | some timeout =>
    match searchNode (goesLeft buf) tree with
    | some l => (.ok (l, timeout, false), tree)
    | none =>
      if allocate then
        match memory with
        | none => (.error .enomem, tree)
        | some wakeLock =>
          let l : UserWakeLock := ⟨nameOf buf, wakeLock⟩
          (.ok (l, timeout, true), balance.run ((linkLeaf (goesLeft buf) l tree).getD tree))
      else (.error .einval, tree)

/-- A name as `struct wake_lock` has it. -/
def nameString (name : List Byte) : String := .ofList (name.map fun c => Char.ofNat c.val)

/-- The calls of a write to `wake_lock`, after a lookup. -/
def lockCalls : UserWakeLock × BitVec 32 × Bool → List WakeCall
  | (l, timeout, isNew) =>
    (if isNew then [.init l.wakeLock .suspend (nameString l.name)] else []) ++
      [if timeout ≠ 0 then .lockTimeout l.wakeLock timeout else .lock l.wakeLock]

/-- A write of some bytes to `wake_lock`, or to `wake_unlock`. -/
structure UserWrite where
  unlock : Bool
  data : List Byte
  memory : Option Nat
  balance : Rebalance UserWakeLock

/-- The text ends before the first zero. -/
def UserWrite.buf (write : UserWrite) : List Byte := write.data.takeWhile (· ≠ 0)

def UserWrite.lookup (write : UserWrite) (tree : BinaryTree UserWakeLock) :
    Except Errno (UserWakeLock × BitVec 32 × Bool) × BinaryTree UserWakeLock :=
  lookupWakeLockName write.buf (!write.unlock) (!write.unlock) write.memory write.balance tree

/-- `wake_lock_store` and `wake_unlock_store`: the calls to kernel/power/wakelock.c. -/
def UserWrite.store (write : UserWrite) (tree : BinaryTree UserWakeLock) :
    Except Errno (List WakeCall) :=
  (write.lookup tree).1.map fun found =>
    if write.unlock then [.unlock found.1.wakeLock] else lockCalls found

/-! ### Timeouts -/

/-- `ceil(n / (NSEC_PER_SEC / HZ))` -/
def ceilJiffies (n : BitVec 64) : Nat := (n.toNat + 9999999) / nsecPerJiffy

/-- When a timeout survives the conversion to jiffies. -/
theorem jiffiesOf_enough_iff (n : BitVec 64) :
    (0 < (jiffiesOf n).toInt ∧ (min (ceilJiffies n) longMax.toNat : Nat) ≤ (jiffiesOf n).toInt) ↔
      ceilJiffies n ≤ longMax.toNat ∨ ceilJiffies n % 2 ^ 32 = longMax.toNat := by
  have bound := n.isLt
  have stored : (jiffiesOf n).toNat = (if (n.toNat + 9999999) % 2 ^ 64 / 10000000 = 0 then 1
      else (n.toNat + 9999999) % 2 ^ 64 / 10000000) % 2 ^ 32 := by
    rw [jiffiesOf, BitVec.toNat_ofNat, BitVec.toNat_add]
    rfl
  have long : longMax.toNat = 2147483647 := rfl
  rw [BitVec.toInt_eq_toNat_cond, ceilJiffies, nsecPerJiffy, long]
  by_cases fits : n.toNat + 9999999 < 2 ^ 64
  · rw [Nat.mod_eq_of_lt fits] at stored
    split_ifs at stored <;> split <;> omega
  · -- the sum wraps, and one jiffy is stored
    rw [if_pos (by omega)] at stored
    rw [stored, if_pos (by decide)]
    omega

theorem readTimeout_of_lookup {buf : List Byte} {allocate timed : Bool} {memory : Option Nat}
    {balance : Rebalance UserWakeLock} {tree : BinaryTree UserWakeLock}
    {found : UserWakeLock × BitVec 32 × Bool}
    (looked : (lookupWakeLockName buf allocate timed memory balance tree).1 = .ok found) :
    readTimeout buf timed = some found.2.1 := by
  unfold lookupWakeLockName at looked
  split at looked
  · cases looked
  · rename_i reads
    rw [reads]
    repeat' split at looked
    all_goals cases looked
    all_goals rfl

/-- **The timeout of a user wake lock** of `n` nanoseconds is positive and long enough exactly when
the jiffies fit a `long`, or leave its largest value when they are cut to 32 bits. -/
theorem wake_lock_timeout_iff {write : UserWrite} {tree : BinaryTree UserWakeLock}
    {calls : List WakeCall} {n : BitVec 64} {rest : List Byte} (locks : write.unlock = false)
    (timed : argOf write.buf ≠ []) (reads : simpleStrtoull (argOf write.buf) = (n, rest))
    (taken : write.store tree = .ok calls) :
    (∃ lock timeout, calls.getLast? = some (.lockTimeout lock timeout) ∧ 0 < timeout.toInt ∧
        (min (ceilJiffies n) longMax.toNat : Nat) ≤ timeout.toInt) ↔
      ceilJiffies n ≤ longMax.toNat ∨ ceilJiffies n % 2 ^ 32 = longMax.toNat := by
  obtain ⟨⟨l, timeout, isNew⟩, looked, rfl⟩ : ∃ found, (write.lookup tree).1 = .ok found ∧
      lockCalls found = calls := by
    unfold UserWrite.store at taken
    rw [locks] at taken
    cases looked : (write.lookup tree).1 with
    | error =>
      rw [looked] at taken
      cases taken
    | ok found =>
      rw [looked] at taken
      exact ⟨found, rfl, Except.ok.inj taken⟩
  have converted : timeout = jiffiesOf n := by
    have known := readTimeout_of_lookup looked
    unfold readTimeout at known
    split at known
    · cases known
    · rw [locks, if_pos ⟨rfl, timed⟩, reads] at known
      dsimp only at known
      split at known <;> cases known
      rfl
  have last : (lockCalls (l, timeout, isNew)).getLast? =
      some (if timeout ≠ 0 then .lockTimeout l.wakeLock timeout else .lock l.wakeLock) := by
    rw [lockCalls, getLast?_append, getLast?_singleton, Option.some_or]
  rw [last, ← jiffiesOf_enough_iff, ← converted]
  constructor
  · rintro ⟨lock, other, same, long⟩
    split at same <;> cases same
    exact long
  · intro long
    have nonzero : timeout ≠ 0 := by
      rintro rfl
      exact absurd long.1 (by decide)
    exact ⟨l.wakeLock, timeout, by rw [if_pos nonzero], long⟩

/-- The write `a 7` takes a new lock for one jiffy. -/
theorem wake_lock_timeout_iff_seven :
    ∃ lock timeout, [.init 5 .suspend "a", .lockTimeout 5 1].getLast? =
        some (WakeCall.lockTimeout lock timeout) ∧ 0 < timeout.toInt ∧
      (min (ceilJiffies 7) longMax.toNat : Nat) ≤ timeout.toInt :=
  (@wake_lock_timeout_iff ⟨false, [97, 32, 55], some 5, .id⟩ .nil _ 7 [] rfl (by decide) (by decide)
    (by decide)).mpr (.inl (by decide))

/-- The write `a 42949672960000000` takes a new lock without a timeout. -/
theorem wake_lock_timeout_lost :
    (simpleStrtoull [52, 50, 57, 52, 57, 54, 55, 50, 57, 54, 48, 48, 48, 48, 48, 48, 48]).1 =
        42949672960000000 ∧
      (UserWrite.mk false [97, 32, 52, 50, 57, 52, 57, 54, 55, 50, 57, 54, 48, 48, 48, 48, 48, 48, 48]
        (some 5) .id).store .nil = .ok [.init 5 .suspend "a", .lock 5] := by
  decide

end KernelImx.Power
