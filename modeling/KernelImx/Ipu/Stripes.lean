/-
**A frame in two stripes** (drivers/mxc/ipu3/ipu_calc_stripes_sizes.c).

A frame that is too wide for the resizer goes through it in a left and a right stripe. Widths are
words of 32 bits; ratios and the arguments of `truncate` are 32.32 fixed-point numbers.

* **`independent_stripes_iff`**: independent stripes are found for no frame. The maximal width is
  not shifted to fixed point, so the search starts with stripes of width 0, and divides by that;
* **`equal_stripes_fit`**: equal stripes have the same sizes, and fit where they need no overlap.
-/

import Mathlib.Data.BitVec

namespace KernelImx.Ipu

inductive PixelFormat where
  | yvu422p | yuv422p | yuv420p2 | yuv420p | yvu420p | nv12 | yuyv | uyvy | other

inductive Fault where
  | divisionByZero
  | fuel
  deriving DecidableEq

abbrev Calc := Except Fault

/-- `(u64)x` -/
def wide (x : BitVec 32) : BitVec 64 := x.setWidth 64

/-- `((u64)x) << 32` -/
def fixed (x : BitVec 32) : BitVec 64 := wide x <<< 32

/-- `_do_div` -/
def doDiv (a : BitVec 64) (b : BitVec 32) : Calc (BitVec 64) :=
  if b = 0 then .error .divisionByZero else .ok (a / wide b)

/-- `truncate`, to a multiple of `b` -/
def truncate (up : Bool) (a : BitVec 64) (b : BitVec 32) : Calc (BitVec 32) := do
  let div ← doDiv a b
  let d := (wide b * (div >>> 32)).setWidth 32
  pure (if up ∧ a > fixed d then d + b else d)

/-- `f_calc` -/
def fCalc (pfs : PixelFormat) (bpp : Nat) : BitVec 32 :=
  match pfs with
  | .yvu422p | .yuv422p | .yuv420p2 | .yuv420p | .yvu420p => 16
  | .nv12 => 8
  | _ =>
    match bpp with
    | 0 => 2
    | 3 => 4
    | 5 | 1 => 8
    | 4 => 16
    | 2 => 32
    | _ => 0

/-- `m_calc` -/
def mCalc : PixelFormat → BitVec 32
  | .yuv420p2 | .yuv420p | .yvu422p | .yuv422p | .yvu420p | .nv12 => 8
  | .yuyv | .uyvy => 2
  | .other => 1

/-- `struct stripe_param`, without `idr` -/
structure StripeParam where
  inputWidth : BitVec 32
  outputWidth : BitVec 32
  inputColumn : BitVec 32
  outputColumn : BitVec 32
  irr : BitVec 32

/-- The arguments of the calculator. -/
structure Frame where
  inputFrameWidth : BitVec 32
  outputFrameWidth : BitVec 32
  maximalStripeWidth : BitVec 32
  cirr : BitVec 64
  inputPixelformat : PixelFormat
  outputPixelformat : PixelFormat

variable (frame : Frame)

def Frame.inputF : BitVec 32 := fCalc frame.inputPixelformat 0

def Frame.outputM : BitVec 32 := mCalc frame.outputPixelformat

def inputM : BitVec 32 := 16

def outputF : BitVec 32 := 16

def irrSteps : BitVec 32 := 1 <<< 13

/-- The importance ratio of the two terms of the cost -/
def cr : BitVec 64 := 4 <<< 32

/-- The greatest relative difference of the ratios -/
def dirr : BitVec 64 := 1 <<< 30

/-- The parameters are invalid, given the optimal resizing ratio. -/
def Frame.Invalid (rrOpt : BitVec 64) : Prop :=
  frame.outputM = 0 ∨ frame.inputF = 0 ∨ frame.inputFrameWidth < 2 * frame.inputF ∨
    fixed frame.outputFrameWidth < 2 * (fixed outputF + wide frame.inputF * rrOpt) ∨
    frame.maximalStripeWidth < outputF ∨ frame.outputFrameWidth ≤ frame.maximalStripeWidth ∨
    2 * frame.maximalStripeWidth < frame.outputFrameWidth

instance (frame : Frame) (rrOpt : BitVec 64) : Decidable (frame.Invalid rrOpt) :=
  inferInstanceAs (Decidable (_ ∨ _))

/-- The branch for equal stripes; `width` is the output width. -/
def equalStripes (width : BitVec 32) (irrOpt rrOpt : BitVec 64) :
    Calc (StripeParam × StripeParam) :=
  let inputWidth := frame.inputFrameWidth
  let inputF := frame.inputF
  if irrOpt > frame.cirr ∧ inputWidth % (inputM <<< 1) = 0 ∧ inputWidth % (inputF <<< 1) = 0 ∧
      width % (frame.outputM <<< 1) = 0 ∧ width % (outputF <<< 1) = 0 then do
    let div ← doDiv (fixed irrSteps * wide ((inputWidth >>> 1) - 1)) ((width >>> 1) - 1)
    let irr ← truncate false div 1
    pure (⟨inputWidth >>> 1, width >>> 1, 0, 0, irr⟩,
      ⟨inputWidth >>> 1, width >>> 1, inputWidth >>> 1, width >>> 1, irr⟩)
  else do
    let onw ← truncate false ((wide width - 1) <<< 32 >>> 1) outputF
    let inw ← truncate false (wide onw * irrOpt) inputF
    let onw ← truncate true (wide inw * rrOpt) outputF
    let irr ← truncate false (← doDiv (fixed (irrSteps * inw)) onw) 1
    let outputWidth := width - onw
    let div ← doDiv ((wide (outputWidth - 1) * wide irr) <<< 32) irrSteps
    let stripe ← truncate true (fixed 1 + div) inputM
    let div ← doDiv (fixed ((outputWidth - 1) * irr)) irrSteps
    let difwr := fixed (inputWidth - 1 - inw) - div
    let column ← truncate false (← doDiv (difwr + fixed inputF) 2) inputF
    pure (⟨stripe, outputWidth, column, 0, irr⟩, ⟨stripe, outputWidth, column + inw, onw, irr⟩)

/-- What the search for independent stripes goes on with. -/
structure Search where
  inw : BitVec 32
  onw : BitVec 32
  inwBest : BitVec 32
  costMin : BitVec 64

def Search.round (width : BitVec 32) (rrOpt : BitVec 64) (s : Search) :
    Calc Search := do
  let irr ← truncate false (← doDiv (fixed (irrSteps * s.inw)) s.onw) 1
  let dinw := fixed s.inw - (← doDiv (fixed (s.onw * irr)) irrSteps)
  let div ← doDiv (fixed ((width - 1 - s.onw) * irr)) irrSteps
  let difwl := fixed (frame.inputFrameWidth - 1 - s.inw) - div
  let cost := difwl + (cr * dinw) >>> 32
  let inw := s.inw - frame.inputF
  let onw ← truncate true (wide inw * rrOpt) outputF
  pure (if cost < s.costMin then ⟨inw, onw, s.inw, cost⟩ else { s with inw, onw })

def Search.loop (frame : Frame) (width : BitVec 32) (rrOpt : BitVec 64) :
    Nat → Search → Calc (BitVec 32)
  | 0, _ => .error .fuel
  | fuel + 1, s => do
    let s ← s.round frame width rrOpt
    if s.onw ≥ width - frame.maximalStripeWidth then Search.loop frame width rrOpt fuel s
    else pure s.inwBest

def independentStripes (fuel : Nat) (frame : Frame) (width : BitVec 32) (irrOpt rrOpt : BitVec 64) :
    Calc (StripeParam × StripeParam) := do
  let inputWidth := frame.inputFrameWidth
  let inputF := frame.inputF
  let onw ← truncate false (wide frame.maximalStripeWidth) outputF
  let onw := if width - onw = 1 then onw - outputF else onw
  let inw ← truncate false (wide onw * irrOpt) inputF
  let onw ← truncate true (wide inw * rrOpt) outputF
  let inw ← Search.loop frame width rrOpt fuel ⟨inw, onw, 0, fixed inputWidth + cr⟩
  let onw ← truncate true (wide inw * rrOpt) outputF
  let leftIrr ← truncate false (← doDiv (fixed (irrSteps * inw)) onw) 1
  let outputWidth := width - onw
  let leftWidth ← truncate true (fixed (inw + 1)) inputM
  let rightWidth ← truncate true (fixed (inputWidth - inw)) inputM
  let div ← doDiv (fixed (irrSteps * (inputWidth - 1 - inw))) (outputWidth - 1)
  let rightIrr ← truncate false div 1
  let temp ← truncate false (wide leftIrr * (fixed 1 + dirr)) 1
  let rightIrr := if temp < rightIrr then temp else rightIrr
  let div ← doDiv (fixed ((outputWidth - 1) * rightIrr)) irrSteps
  let difwr := wide (inputWidth - 1 - inw) - div
  let column ← truncate false (← doDiv (difwr + fixed inputF) 2) inputF
  pure (⟨leftWidth, onw, column, 0, leftIrr⟩,
    ⟨rightWidth, outputWidth, column + inw, onw, rightIrr⟩)

/-- `ipu_calc_stripes_sizes`: the status, and the stripes unless it is 1 -/
def ipuCalcStripesSizes (fuel : Nat) (frame : Frame) (equal : Bool) :
    Calc (Nat × Option (StripeParam × StripeParam)) :=
  let inputWidth := frame.inputFrameWidth
  let outputWidth := frame.outputFrameWidth
  if inputWidth < 4 ∨ outputWidth < 4 then pure (1, none)
  else do
    let irrOpt ← doDiv (fixed (inputWidth - 1)) (outputWidth - 1)
    let rrOpt ← doDiv (fixed (outputWidth - 1)) (inputWidth - 1)
    if frame.Invalid rrOpt then pure (1, none)
    else
      let temp ← truncate false (fixed outputWidth) frame.outputM
      let status := if outputF % frame.outputM ≠ 0 then 2 else 0
      let status := if temp < outputWidth then status + 4 else status
      let width := if temp < outputWidth then temp else outputWidth
      let stripes ← if equal then equalStripes frame width irrOpt rrOpt
        else independentStripes fuel frame width irrOpt rrOpt
      pure (status, some stripes)

/-! ### Independent stripes -/

/-- The stripes are narrow enough and cover the output width, and the input stripes lie in the input
frame. -/
structure Fit (frame : Frame) (left right : StripeParam) : Prop where
  narrow : left.outputWidth ≤ frame.maximalStripeWidth ∧ right.outputWidth ≤ frame.maximalStripeWidth
  starts : left.outputColumn = 0
  noGap : right.outputColumn ≤ left.outputWidth
  ends : right.outputColumn.toNat + right.outputWidth.toNat =
    frame.outputFrameWidth.toNat / frame.outputM.toNat * frame.outputM.toNat
  inside : ∀ stripe ∈ [left, right],
    stripe.inputColumn.toNat + stripe.inputWidth.toNat ≤ frame.inputFrameWidth.toNat

/-- The calculator ends without a fault, with stripes that fit unless it refuses the frame. -/
def Calculates : Prop :=
  ∃ fuel status stripes, ipuCalcStripesSizes fuel frame false = .ok (status, stripes) ∧
    (status ≠ 1 → ∃ left right, stripes = some (left, right) ∧ Fit frame left right)

/-- The validation refuses the frame, with status 1. -/
def Frame.Refused : Prop :=
  frame.inputFrameWidth < 4 ∨ frame.outputFrameWidth < 4 ∨
    frame.Invalid (fixed (frame.outputFrameWidth - 1) / wide (frame.inputFrameWidth - 1))

def Frame.irrOpt : BitVec 64 := fixed (frame.inputFrameWidth - 1) / wide (frame.outputFrameWidth - 1)

def Frame.rrOpt : BitVec 64 := fixed (frame.outputFrameWidth - 1) / wide (frame.inputFrameWidth - 1)

/-- The output width, a multiple of `outputM`. -/
def Frame.reduced : BitVec 32 := frame.outputM * (frame.outputFrameWidth / frame.outputM)

variable {frame : Frame} {fuel : Nat} {width : BitVec 32} {irrOpt rrOpt : BitVec 64}

theorem doDiv_ok {a : BitVec 64} {b : BitVec 32} (nonzero : b ≠ 0) : doDiv a b = .ok (a / wide b) :=
  if_neg nonzero

theorem truncate_small {up : Bool} {a : BitVec 64} {b : BitVec 32} (nonzero : b ≠ 0)
    (small : a.toNat < 2 ^ 32) (down : up = true → a = 0) : truncate up a b = .ok 0#32 := by
  have quotient : (a / wide b) >>> 32 = 0#64 := by
    refine BitVec.eq_of_toNat_eq ?_
    rw [BitVec.toNat_ushiftRight, BitVec.toNat_udiv, Nat.shiftRight_eq_div_pow]
    exact Nat.div_eq_of_lt (lt_of_le_of_lt (Nat.div_le_self _ _) small)
  have notUp : ¬ (up = true ∧ a > fixed 0) := by
    rintro ⟨isUp, more⟩
    rw [down isUp] at more
    exact absurd more (by decide)
  rw [truncate, doDiv_ok nonzero]
  show Except.ok _ = _
  rw [quotient, BitVec.mul_zero]
  exact congrArg Except.ok (if_neg notUp)

/-- **The search divides by zero in its first round.** -/
theorem independentStripes_fault (nonzero : frame.inputF ≠ 0) (several : width ≠ 1) :
    ∃ fault, independentStripes fuel frame width irrOpt rrOpt = .error fault := by
  have start : truncate false (wide frame.maximalStripeWidth) outputF = .ok 0#32 := by
    refine truncate_small (by decide) ?_ nofun
    rw [wide, BitVec.toNat_setWidth_of_le (by decide)]
    exact frame.maximalStripeWidth.isLt
  have zero : ∀ {up : Bool} {ratio : BitVec 64} {b : BitVec 32}, b ≠ 0 →
      truncate up (wide 0#32 * ratio) b = .ok 0#32 := fun nonzero =>
    truncate_small nonzero (by simp [wide]) fun _ => BitVec.zero_mul
  rw [independentStripes, start]
  dsimp only [bind, Except.bind]
  rw [BitVec.sub_zero, if_neg several, zero nonzero]
  dsimp only
  rw [zero (by decide)]
  cases fuel with
  | zero | succ fuel => exact ⟨_, rfl⟩

theorem outputM_cases (frame : Frame) :
    frame.outputM.toNat = 8 ∨ frame.outputM.toNat = 2 ∨ frame.outputM.toNat = 1 := by
  unfold Frame.outputM
  cases frame.outputPixelformat <;> decide

theorem truncate_fixed (x : BitVec 32) {m : BitVec 32} (nonzero : m ≠ 0) :
    truncate false (fixed x) m = .ok (m * (x / m)) := by
  have quotient : (fixed x / wide m) >>> 32 = wide (x / m) := by
    refine BitVec.eq_of_toNat_eq ?_
    have small : x.toNat * 2 ^ 32 < 2 ^ 64 := by omega
    simp only [fixed, wide, BitVec.toNat_ushiftRight, BitVec.toNat_udiv, BitVec.toNat_shiftLeft,
      BitVec.toNat_setWidth_of_le (by decide : 32 ≤ 64), Nat.shiftRight_eq_div_pow, Nat.shiftLeft_eq,
      Nat.mod_eq_of_lt small]
    rw [Nat.div_div_eq_div_mul, Nat.mul_div_mul_right _ _ (by decide)]
  rw [truncate, doDiv_ok nonzero]
  show Except.ok _ = _
  rw [quotient, if_neg fun up => Bool.false_ne_true up.1, wide, wide, BitVec.setWidth_mul _ _ (by decide)]
  simp

theorem toNat_reduced (frame : Frame) : frame.reduced.toNat =
      frame.outputFrameWidth.toNat / frame.outputM.toNat * frame.outputM.toNat ∧
    frame.reduced.toNat ≤ frame.outputFrameWidth.toNat := by
  have le := Nat.div_mul_le_self frame.outputFrameWidth.toNat frame.outputM.toNat
  rw [Frame.reduced, BitVec.toNat_mul, BitVec.toNat_udiv, Nat.mul_comm, Nat.mod_eq_of_lt (by omega)]
  exact ⟨rfl, le⟩

theorem accepted_eq (fuel : Nat) (accepted : ¬ frame.Refused) (equal : Bool) :
    ∃ status, status ≠ 1 ∧ ipuCalcStripesSizes fuel frame equal =
      (if equal then equalStripes frame frame.reduced frame.irrOpt frame.rrOpt
        else independentStripes fuel frame frame.reduced frame.irrOpt frame.rrOpt) >>=
          fun stripes => pure (status, some stripes) := by
  simp only [Frame.Refused, not_or] at accepted
  obtain ⟨input, output, valid⟩ := accepted
  have reduced : truncate false (fixed frame.outputFrameWidth) frame.outputM = .ok frame.reduced := by
    refine truncate_fixed _ ?_
    have := outputM_cases frame
    bv_omega
  have width : (if frame.reduced < frame.outputFrameWidth then frame.reduced
      else frame.outputFrameWidth) = frame.reduced := by
    have := (toNat_reduced frame).2
    split <;> bv_omega
  have status : (if frame.reduced < frame.outputFrameWidth then
      (if outputF % frame.outputM ≠ 0 then 2 else 0) + 4
      else if outputF % frame.outputM ≠ 0 then 2 else 0) ≠ 1 := by
    split <;> split <;> decide
  refine ⟨_, status, ?_⟩
  rw [ipuCalcStripesSizes, if_neg (not_or.mpr ⟨input, output⟩), doDiv_ok (by bv_omega),
    doDiv_ok (by bv_omega)]
  show (if _ then _ else truncate false (fixed frame.outputFrameWidth) frame.outputM >>= _) = _
  rw [if_neg valid, reduced]
  dsimp only [bind, Except.bind]
  rw [width]
  cases equal <;> rfl

theorem refused_eq (fuel : Nat) (refused : frame.Refused) (equal : Bool) :
    ipuCalcStripesSizes fuel frame equal = .ok (1, none) := by
  rw [ipuCalcStripesSizes]
  split
  next => rfl
  next wideEnough =>
    obtain ⟨input, output⟩ := not_or.mp wideEnough
    rw [doDiv_ok (by bv_omega), doDiv_ok (by bv_omega)]
    exact if_pos ((refused.resolve_left input).resolve_left output)

/-- **Independent stripes are found only where none are needed.** -/
theorem independent_stripes_iff (frame : Frame) : Calculates frame ↔ frame.Refused := by
  constructor
  · rintro ⟨fuel, status, stripes, runs, -⟩
    by_contra accepted
    obtain ⟨_, -, is⟩ := accepted_eq fuel accepted false
    simp only [Frame.Refused, Frame.Invalid, not_or] at accepted
    have large : frame.reduced ≠ 1 := by
      have := (toNat_reduced frame).1
      rcases outputM_cases frame with m | m | m <;> rw [m] at this <;> bv_omega
    obtain ⟨fault, faults⟩ := @independentStripes_fault frame fuel frame.reduced frame.irrOpt
      frame.rrOpt accepted.2.2.2.1 large
    rw [is, if_neg Bool.false_ne_true, faults] at runs
    cases runs
  · exact fun refused => ⟨0, 1, none, refused_eq 0 refused false, fun no => absurd rfl no⟩

theorem no_independent_stripes :
    ¬ Frame.Refused ⟨640, 1280, 1024, 0, .other, .other⟩ ∧
      ipuCalcStripesSizes 1 ⟨640, 1280, 1024, 0, .other, .other⟩ false = .error .divisionByZero := by
  refine ⟨?_, rfl⟩
  unfold Frame.Refused
  decide

/-! ### Equal stripes -/

/-- Two halves: no overlap is asked for, and the widths are even multiples. -/
def Frame.Halves (frame : Frame) : Prop :=
  frame.irrOpt > frame.cirr ∧
    frame.inputFrameWidth % (inputM <<< 1) = 0 ∧ frame.inputFrameWidth % (frame.inputF <<< 1) = 0 ∧
    frame.reduced % (frame.outputM <<< 1) = 0 ∧ frame.reduced % (outputF <<< 1) = 0

def SameSize (left right : StripeParam) : Prop :=
  left.inputWidth = right.inputWidth ∧ left.outputWidth = right.outputWidth ∧ left.irr = right.irr

/-- The left stripe begins with the output and the right one ends with it. -/
def Spans (width : BitVec 32) (left right : StripeParam) : Prop :=
  left.outputColumn = 0 ∧ right.outputColumn + right.outputWidth = width

/-- The calculator ends without a fault, with equal stripes that fit unless it refuses the frame. -/
def CalculatesEqual (frame : Frame) : Prop :=
  ∃ status stripes, ipuCalcStripesSizes 0 frame true = .ok (status, stripes) ∧
    (status ≠ 1 → ∃ left right, stripes = some (left, right) ∧ Fit frame left right ∧
      SameSize left right)

theorem bind_ok {α β : Type} {x : Calc α} {f : α → Calc β} {r : β} :
    (x >>= f) = .ok r ↔ ∃ a, x = .ok a ∧ f a = .ok r := by
  cases x with
  | error => exact ⟨nofun, fun ⟨_, no, _⟩ => nomatch no⟩
  | ok a => exact ⟨fun is => ⟨a, rfl, is⟩, fun ⟨_, rfl, is⟩ => is⟩

theorem equalStripes_same {stripes : StripeParam × StripeParam}
    (runs : equalStripes frame width irrOpt rrOpt = .ok stripes) :
    SameSize stripes.1 stripes.2 ∧ Spans width stripes.1 stripes.2 := by
  unfold equalStripes at runs
  simp only at runs
  split at runs
  case isTrue halves =>
    simp only [bind_ok] at runs
    obtain ⟨_, _, _, _, same⟩ := runs
    cases same
    have even : width.toNat % 32 = 0 := congrArg BitVec.toNat halves.2.2.2.2
    refine ⟨⟨rfl, rfl, rfl⟩, rfl, ?_⟩
    show (width >>> 1) + (width >>> 1) = width
    bv_omega
  case isFalse =>
    simp only [bind_ok] at runs
    obtain ⟨_, _, _, _, onw, _, _, _, _, _, _, _, _, _, _, _, _, _, _, _, same⟩ := runs
    cases same
    refine ⟨⟨rfl, rfl, rfl⟩, rfl, ?_⟩
    show onw + (width - onw) = width
    bv_omega

theorem equalStripes_halves (accepted : ¬ frame.Refused) (halves : frame.Halves) :
    ∃ stripes, equalStripes frame frame.reduced frame.irrOpt rrOpt = .ok stripes ∧
      Fit frame stripes.1 stripes.2 := by
  obtain ⟨width, le⟩ := toNat_reduced frame
  simp only [Frame.Refused, Frame.Invalid, not_or] at accepted
  obtain ⟨-, -, -, -, -, -, -, larger, half⟩ := accepted
  unfold Frame.Halves at halves
  have even : frame.reduced.toNat % 32 = 0 := congrArg BitVec.toNat halves.2.2.2.2
  have narrow : frame.reduced >>> 1 ≤ frame.maximalStripeWidth := by bv_omega
  rw [equalStripes, if_pos halves, doDiv_ok (by bv_omega)]
  refine ⟨_, rfl, ⟨narrow, narrow⟩, rfl, BitVec.le_refl _, ?_, ?_⟩
  · show (frame.reduced >>> 1).toNat + (frame.reduced >>> 1).toNat = _
    bv_omega
  · refine List.forall_mem_cons.mpr ⟨?_, List.forall_mem_singleton.mpr ?_⟩
    · show 0 + (frame.inputFrameWidth >>> 1).toNat ≤ _
      bv_omega
    · show (frame.inputFrameWidth >>> 1).toNat + (frame.inputFrameWidth >>> 1).toNat ≤ _
      bv_omega

/-- **Equal stripes** are of one size and span the output; without an overlap they fit. -/
theorem equal_stripes_fit (frame : Frame) :
    (∀ status left right, ipuCalcStripesSizes 0 frame true = .ok (status, some (left, right)) →
      SameSize left right ∧ Spans frame.reduced left right) ∧
    (frame.Halves ∨ frame.Refused → CalculatesEqual frame) := by
  by_cases refused : frame.Refused
  · rw [CalculatesEqual, refused_eq 0 refused true]
    exact ⟨fun _ _ _ => nofun, fun _ => ⟨1, none, rfl, fun no => absurd rfl no⟩⟩
  obtain ⟨status, differs, is⟩ := accepted_eq 0 refused true
  rw [if_pos rfl] at is
  rw [CalculatesEqual, is]
  constructor
  · intro status left right runs
    obtain ⟨stripes, found, same⟩ := bind_ok.mp runs
    cases same
    exact equalStripes_same found
  · intro condition
    obtain ⟨stripes, found, fit⟩ := equalStripes_halves refused (condition.resolve_right refused)
    rw [found]
    exact ⟨status, _, rfl, fun _ => ⟨_, _, rfl, fit, (equalStripes_same found).1⟩⟩

theorem equal_stripes_fit_1280 : CalculatesEqual ⟨1280, 1280, 640, 0, .other, .other⟩ :=
  (equal_stripes_fit _).2 (.inl (by unfold Frame.Halves; decide))

/-- The right stripe starts at a multiple of 16, so the stripes of a frame of 1282 are too wide. -/
theorem equal_stripe_too_wide : ¬ CalculatesEqual ⟨1282, 1282, 641, 0, .other, .other⟩ := by
  rintro ⟨status, stripes, runs, fits⟩
  have done : ipuCalcStripesSizes 0 ⟨1282, 1282, 641, 0, .other, .other⟩ true =
      .ok (0, some (⟨656, 642, 0, 0, 8192⟩, ⟨656, 642, 640, 640, 8192⟩)) := rfl
  cases done.symm.trans runs
  obtain ⟨left, right, same, fit, -⟩ := fits nofun
  cases same
  exact absurd fit.narrow.1 (by decide)

end KernelImx.Ipu
