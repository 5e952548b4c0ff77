/-
**The replay window of an IPsec state** (`net/xfrm/xfrm_state.c`).

`replay.seq` is the highest sequence number accepted, and bit `d` of `replay.bitmap` says that
`replay.seq - d` was accepted. The window has `props.replay_window` numbers, of which the bitmap holds
at most 32.

* **`advance_recorded`**: an advance records its own number and keeps the others, wherever the window
  has moved to since the check.
-/

import Mathlib.Data.BitVec
import KernelImx.Errno

namespace KernelImx.Xfrm

open BitVec

/-! ### The state -/

inductive KmState
  | void
  | acq
  | valid
  | error
  | expired
  | dead
  deriving DecidableEq, Repr

/-- The limits of `lft` that `xfrm_state_check_expire` reads. -/
structure LifetimeCfg where
  softByteLimit : BitVec 64
  hardByteLimit : BitVec 64
  softPacketLimit : BitVec 64
  hardPacketLimit : BitVec 64
  deriving DecidableEq, Repr

structure XfrmStats where
  replayWindow : BitVec 32
  replay : BitVec 32
  integrityFailed : BitVec 32
  deriving DecidableEq, Repr

/-- What the input path reads and writes of `struct xfrm_state`. -/
structure XfrmState where
  kmState : KmState
  dying : Bool
  /-- `encap->encap_type`, when there is an `encap`. -/
  encap : Option (BitVec 16)
  replayWindow : BitVec 8
  /-- `replay.seq` -/
  seq : BitVec 32
  /-- `replay.bitmap` -/
  bitmap : BitVec 32
  lft : LifetimeCfg
  /-- `curlft.bytes` -/
  bytes : BitVec 64
  /-- `curlft.packets` -/
  packets : BitVec 64
  /-- `curlft.use_time` -/
  useTime : BitVec 64
  stats : XfrmStats
  deriving DecidableEq, Repr

/-- `sizeof(x->replay.bitmap) * 8` -/
def bitmapBits : Nat := 32

/-- The numbers that the check looks up in the bitmap. -/
def XfrmState.span (x : XfrmState) : Nat := min x.replayWindow.toNat bitmapBits

/-! ### The functions -/

/-- `a << diff`, where `wide` is what the machine gives for 32 or more, which C leaves open. -/
def shl (wide : BitVec 32 → BitVec 32 → BitVec 32) (a diff : BitVec 32) : BitVec 32 :=
  if diff.toNat < 32 then a <<< diff.toNat else wide a diff

def xfrmReplayCheck (x : XfrmState) (seq : BitVec 32) : Except Errno Unit × XfrmState :=
  if seq = 0 then (.error .einval, x)
  else if x.seq < seq then (.ok (), x)
  else if x.span ≤ (x.seq - seq).toNat then
    (.error .einval, { x with stats.replayWindow := x.stats.replayWindow + 1 })
  else if x.bitmap &&& ((1 : BitVec 32) <<< (x.seq - seq).toNat) ≠ 0 then
    (.error .einval, { x with stats.replay := x.stats.replay + 1 })
  else (.ok (), x)

/-- `xfrm_replay_advance`; the bound of the shift is the window, not the size of the bitmap. -/
def xfrmReplayAdvance (wide : BitVec 32 → BitVec 32 → BitVec 32) (x : XfrmState) (seq : BitVec 32) :
    XfrmState :=
  if x.seq < seq then
    { x with
      bitmap :=
        if (seq - x.seq).toNat < x.replayWindow.toNat then shl wide x.bitmap (seq - x.seq) ||| 1
        else 1
      seq := seq }
  else { x with bitmap := x.bitmap ||| shl wide 1 (x.seq - seq) }

def XfrmState.firstUse (now : BitVec 64) (x : XfrmState) : XfrmState :=
  if x.useTime = 0 then { x with useTime := now } else x

def xfrmStateCheckExpire (now : BitVec 64) (x : XfrmState) : Except Errno Unit × XfrmState :=
  let x := x.firstUse now
  if x.kmState ≠ .valid then (.error .einval, x)
  else if x.lft.hardByteLimit ≤ x.bytes ∨ x.lft.hardPacketLimit ≤ x.packets then
    (.error .einval, { x with kmState := .expired })
  else if x.dying = false ∧ (x.lft.softByteLimit ≤ x.bytes ∨ x.lft.softPacketLimit ≤ x.packets) then
    (.ok (), { x with dying := true })
  else (.ok (), x)

/-! ### What the window keeps -/

/-- The parts that decide about a sequence number. -/
structure SameWindow (x y : XfrmState) : Prop where
  replayWindow : y.replayWindow = x.replayWindow
  seq : y.seq = x.seq
  bitmap : y.bitmap = x.bitmap

theorem SameWindow.trans {x y z : XfrmState} (first : SameWindow x y) (second : SameWindow y z) :
    SameWindow x z :=
  ⟨second.replayWindow.trans first.replayWindow, second.seq.trans first.seq,
    second.bitmap.trans first.bitmap⟩

theorem xfrmReplayCheck_same (x : XfrmState) (seq : BitVec 32) :
    SameWindow x (xfrmReplayCheck x seq).2 := by
  unfold xfrmReplayCheck
  repeat' split
  all_goals exact ⟨rfl, rfl, rfl⟩

theorem xfrmStateCheckExpire_same (now : BitVec 64) (x : XfrmState) :
    SameWindow x (xfrmStateCheckExpire now x).2 := by
  have used : SameWindow x (x.firstUse now) := by
    unfold XfrmState.firstUse
    split <;> exact ⟨rfl, rfl, rfl⟩
  refine used.trans ?_
  dsimp only [xfrmStateCheckExpire]
  repeat' split
  all_goals exact ⟨rfl, rfl, rfl⟩

/-- **What is kept about an accepted number**: it is not above the window, and its bit is set if it is
in the window. -/
structure Recorded (x : XfrmState) (n : BitVec 32) : Prop where
  low : n ≤ x.seq
  marked : (x.seq - n).toNat < x.span → x.bitmap.getLsbD (x.seq - n).toNat = true

theorem Recorded.same {x y : XfrmState} {n : BitVec 32} (same : SameWindow x y)
    (recorded : Recorded x n) : Recorded y n := by
  have span : y.span = x.span := by rw [XfrmState.span, same.replayWindow]; rfl
  refine ⟨?_, ?_⟩
  · rw [same.seq]
    exact recorded.low
  · rw [same.seq, same.bitmap, span]
    exact recorded.marked

theorem and_bit_ne_zero {bitmap : BitVec 32} {d : Nat} :
    bitmap &&& ((1 : BitVec 32) <<< d) ≠ 0 ↔ bitmap.getLsbD d = true := by
  rw [show (1 : BitVec 32) <<< d = twoPow 32 d from (twoPow_eq 32 d).symm, and_twoPow]
  constructor
  · exact fun other => by_contra fun clear => other (if_neg clear)
  · intro set zero
    rw [if_pos set] at zero
    simpa [lt_of_getLsbD set] using congrArg (·.getLsbD d) zero

/-- **An accepted number does not pass the check again.** -/
theorem recorded_refused {x : XfrmState} {n : BitVec 32} (recorded : Recorded x n) :
    (xfrmReplayCheck x n).1 = .error .einval := by
  unfold xfrmReplayCheck
  split
  · rfl
  rw [if_neg (BitVec.not_lt.mpr recorded.low)]
  split
  · rfl
  · rw [if_pos (and_bit_ne_zero.mpr (recorded.marked (by omega)))]

/-! ### The advance -/

section Advance

variable (wide : BitVec 32 → BitVec 32 → BitVec 32) {x : XfrmState} {n seq : BitVec 32}

theorem xfrmReplayAdvance_window (x : XfrmState) (seq : BitVec 32) :
    (xfrmReplayAdvance wide x seq).replayWindow = x.replayWindow := by
  unfold xfrmReplayAdvance
  split <;> rfl

theorem shl_bit {a diff : BitVec 32} {d : Nat} (small : diff.toNat + d < 32)
    (set : a.getLsbD d = true) : (shl wide a diff).getLsbD (diff.toNat + d) = true := by
  rw [shl, if_pos (by omega), getLsbD_shiftLeft]
  simp [small, set]

theorem recorded_moves (up : x.seq < seq) (recorded : Recorded x n) :
    Recorded (xfrmReplayAdvance wide x seq) n := by
  have low := recorded.low
  rw [xfrmReplayAdvance, if_pos up]
  refine ⟨BitVec.le_trans low (BitVec.le_of_lt up), fun inside => ?_⟩
  have inside' : (seq - n).toNat < min x.replayWindow.toNat 32 := inside
  have apart : (seq - n).toNat = (seq - x.seq).toNat + (x.seq - n).toNat := by bv_omega
  rw [if_pos (by omega), apart, getLsbD_or,
    shl_bit wide (by omega) (recorded.marked (by show _ < min _ 32; omega)), Bool.true_or]

theorem recorded_top (up : x.seq < seq) : Recorded (xfrmReplayAdvance wide x seq) seq := by
  rw [xfrmReplayAdvance, if_pos up]
  refine ⟨BitVec.le_refl seq, fun _ => ?_⟩
  split <;> simp

theorem recorded_stays (down : ¬x.seq < seq) (recorded : Recorded x n) :
    Recorded (xfrmReplayAdvance wide x seq) n := by
  rw [xfrmReplayAdvance, if_neg down]
  refine ⟨recorded.low, fun inside => ?_⟩
  rw [getLsbD_or, recorded.marked inside, Bool.true_or]

theorem recorded_below (down : ¬x.seq < seq) : Recorded (xfrmReplayAdvance wide x seq) seq := by
  rw [xfrmReplayAdvance, if_neg down]
  refine ⟨BitVec.not_lt.mp down, fun inside => ?_⟩
  have inside' : (x.seq - seq).toNat < min x.replayWindow.toNat 32 := inside
  have bit := @shl_bit wide 1 (x.seq - seq) 0 (by omega) rfl
  rw [add_zero] at bit
  rw [getLsbD_or, bit, Bool.or_true]

/-- **An advance records its number and keeps every record.** -/
theorem advance_recorded (recorded : n = seq ∨ Recorded x n) :
    Recorded (xfrmReplayAdvance wide x seq) n := by
  by_cases up : x.seq < seq
  · rcases recorded with rfl | recorded
    · exact recorded_top wide up
    · exact recorded_moves wide up recorded
  · rcases recorded with rfl | recorded
    · exact recorded_below wide up
    · exact recorded_stays wide up recorded

end Advance

end KernelImx.Xfrm
