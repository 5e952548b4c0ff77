/-
**Where an update lies** (`adjust_coordinates`, `epdc_process_update`).

The panel is scanned in one direction, so the updates of a rotated screen are turned: their region,
and the output of the PxP, which works on blocks of 8 by 8 pixels.

Main result: `epdc_geometry`.

Of `epdc_process_update` the coordinates of the output are kept.
-/

import KernelImx.Epdc.Merging

namespace KernelImx.Epdc

/-- `var.rotate`. -/
inductive Rotation where
  | ur
  | cw
  | ud
  | ccw
  deriving DecidableEq, Repr

/-! ### Regions -/

section Adjust

variable (rotation : Rotation) (xres yres : UInt32) (updateRegion : MxcfbRect)

/-- `adjust_coordinates` with an `adj_update_region`. -/
def adjustCoordinates : MxcfbRect :=
  let ⟨left, top, width, height⟩ := updateRegion
  match rotation with
  | .ur => ⟨left, top, width, height⟩
  | .cw => ⟨yres - (top + height), left, height, width⟩
  | .ud => ⟨xres - (left + width), yres - (top + height), width, height⟩
  | .ccw => ⟨top, xres - (left + width), height, width⟩

/-- `adjust_coordinates` without one: the fields are set one after the other. -/
def adjustInPlace : MxcfbRect :=
  match rotation with
  | .ur => updateRegion
  | .cw =>
    let temp := updateRegion.top
    let region := { updateRegion with top := updateRegion.left }
    let region := { region with left := yres - (temp + region.height) }
    let temp := region.width
    let region := { region with width := region.height }
    { region with height := temp }
  | .ud =>
    let region := { updateRegion with top := yres - (updateRegion.top + updateRegion.height) }
    { region with left := xres - (region.left + region.width) }
  | .ccw =>
    let temp := updateRegion.left
    let region := { updateRegion with left := updateRegion.top }
    let region := { region with top := xres - (temp + region.width) }
    let temp := region.width
    let region := { region with width := region.height }
    { region with height := temp }

/-- A pixel, by its column and its line, is in the rectangle. -/
def MxcfbRect.Holds (rect : MxcfbRect) (x y : Nat) : Prop :=
  rect.left.toNat ≤ x ∧ x < rect.right ∧ rect.top.toNat ≤ y ∧ y < rect.bottom

def MxcfbRect.Inside (rect : MxcfbRect) (size : Nat × Nat) : Prop :=
  rect.right ≤ size.1 ∧ rect.bottom ≤ size.2

def Rotation.size : Nat × Nat :=
  match rotation with
  | .ur | .ud => (xres.toNat, yres.toNat)
  | .cw | .ccw => (yres.toNat, xres.toNat)

/-- Where a pixel of the screen is on the rotated one. -/
def Rotation.turn (x y : Nat) : Nat × Nat :=
  match rotation with
  | .ur => (x, y)
  | .cw => (yres.toNat - 1 - y, x)
  | .ud => (xres.toNat - 1 - x, yres.toNat - 1 - y)
  | .ccw => (y, xres.toNat - 1 - x)

variable {xres yres updateRegion}

theorem toNat_sub_add {size first length : UInt32} (inside : first.toNat + length.toNat ≤ size.toNat) :
    (size - (first + length)).toNat = size.toNat - (first.toNat + length.toNat) := by
  have := size.toNat_lt
  rw [UInt32.toNat_sub, UInt32.toNat_add]
  omega

/-- The turned region is the image of the region. -/
theorem adjustCoordinates_image (inside : updateRegion.Inside (xres.toNat, yres.toNat)) :
    (adjustCoordinates rotation xres yres updateRegion).Inside (rotation.size xres yres) ∧
      ∀ x y, (adjustCoordinates rotation xres yres updateRegion).Holds x y ↔
        ∃ x' y', updateRegion.Holds x' y' ∧ rotation.turn xres yres x' y' = (x, y) := by
  obtain ⟨left, top, width, height⟩ := updateRegion
  obtain ⟨right, bottom⟩ := inside
  have column := toNat_sub_add right
  have line := toNat_sub_add bottom
  simp only [MxcfbRect.right, MxcfbRect.bottom] at right bottom
  refine ⟨?_, fun x y => ⟨fun held => ?_, ?_⟩⟩
  · cases rotation <;>
      simp only [MxcfbRect.Inside, MxcfbRect.right, MxcfbRect.bottom, adjustCoordinates, Rotation.size,
        column, line] <;> omega
  · -- the pixel is turned back
    cases rotation
    case' ur => refine ⟨x, y, ?_⟩
    case' cw => refine ⟨y, yres.toNat - 1 - x, ?_⟩
    case' ud => refine ⟨xres.toNat - 1 - x, yres.toNat - 1 - y, ?_⟩
    case' ccw => refine ⟨xres.toNat - 1 - y, x, ?_⟩
    all_goals
      simp only [MxcfbRect.Holds, MxcfbRect.right, MxcfbRect.bottom, adjustCoordinates,
        Rotation.turn, Prod.mk.injEq, column, line, and_true, true_and] at held ⊢
      omega
  · rintro ⟨x', y', held, turned⟩
    cases rotation <;>
      simp only [MxcfbRect.Holds, MxcfbRect.right, MxcfbRect.bottom, adjustCoordinates,
        Rotation.turn, Prod.mk.injEq, column, line] at held turned ⊢ <;> omega

end Adjust

/-! ### The output of the PxP -/

/-- `ALIGN(value, 8)`. -/
def align8 (value : UInt32) : UInt32 := (value + 7) &&& ~~~7

theorem toNat_align8 (value : UInt32) : (align8 value).toNat = (value.toNat + 7) % 2 ^ 32 / 8 * 8 := by
  have sum : (value + 7).toBitVec.toNat = (value.toNat + 7) % 2 ^ 32 := UInt32.toNat_add _ _
  show ((value + 7).toBitVec &&& BitVec.allOnes 32 <<< 3).toNat = _
  rw [← BitVec.shiftLeft_ushiftRight, BitVec.toNat_shiftLeft, BitVec.toNat_ushiftRight, sum,
    Nat.shiftLeft_eq, Nat.shiftRight_eq_div_pow]
  omega

theorem align8_mod (value : UInt32) : (align8 value).toNat % 8 = 0 := by
  rw [toNat_align8, Nat.mul_mod_left]

theorem align8_sub (value : UInt32) : (align8 value - value).toNat < 8 := by
  have := value.toNat_lt
  rw [UInt32.toNat_sub, toNat_align8]
  omega

/-- The output of the PxP: the first pixel of the update, the length of the lines, and the update.
-/
structure PxpOutput where
  xcoord : UInt32
  ycoord : UInt32
  widthPxpBlocks : UInt32
  outputShift : UInt32
  epdcOffs : UInt32

section Process

variable (rotation : Rotation) (bytesPerPixel : UInt32)

/-- The bytes from a 32-bit boundary to the first pixel. -/
def inputGap (left : UInt32) : UInt32 := (left &&& 3) * bytesPerPixel % 4

/-- The region that the PxP reads: a copy of the update where it cannot read the update itself. -/
def copiedRegion (auto : Bool) (src : MxcfbRect) : MxcfbRect :=
  let gap := inputGap bytesPerPixel src.left
  let lineOverflow := (rotation = .ur ∨ rotation = .ud) ∧
    align8 src.width < align8 (src.width + gap / bytesPerPixel)
  if ((src.width &&& 7 ≠ 0 ∨ src.height &&& 7 ≠ 0 ∨ gap ≠ 0) ∧ auto) ∨ lineOverflow then
    ⟨0, 0, src.width, src.height⟩
  else src

/-- `pxp_upd_region`, before it is moved to a block. -/
def pxpUpdRegion (src : MxcfbRect) : MxcfbRect :=
  let left := if inputGap bytesPerPixel src.left ≠ 0 then
    inputGap bytesPerPixel src.left / bytesPerPixel else 0
  ⟨left, 0, align8 (src.width + left), align8 src.height⟩

/-- `epdc_process_update`. -/
def epdcOutput (auto : Bool) (region : MxcfbRect) : PxpOutput :=
  let src := copiedRegion rotation bytesPerPixel auto region
  let pxp := pxpUpdRegion bytesPerPixel src
  let (xcoord, ycoord, width) := match rotation with
    | .ur => (pxp.left, pxp.top, pxp.width)
    | .cw => (pxp.height - src.height, pxp.left, pxp.height)
    | .ud => (pxp.width - src.width - pxp.left, pxp.height - src.height - pxp.top, pxp.width)
    | .ccw => (pxp.top, pxp.width - src.width - pxp.left, pxp.height)
  let shift := align8 xcoord - xcoord
  ⟨xcoord, ycoord, width, shift, align8 (ycoord * width + shift)⟩

end Process

/-- The offset that is aligned twice is the one of the first pixel. -/
theorem align8_add {x y width : UInt32} (small : x.toNat < 8) (blocks : width.toNat % 8 = 0) :
    align8 (y * width + (align8 x - x)) = align8 x - x + y * width + x ∧
      8 ∣ (align8 (y * width + (align8 x - x))).toNat := by
  have product : (y * width).toNat % 8 = 0 := by
    rw [UInt32.toNat_mul, Nat.mod_mod_of_dvd _ (by decide), Nat.mul_mod, blocks,
      Nat.mul_zero, Nat.zero_mod]
  refine ⟨UInt32.toNat_inj.mp ?_, ?_⟩
  · simp only [toNat_align8, UInt32.toNat_add, UInt32.toNat_sub]
    omega
  · exact Nat.dvd_of_mod_eq_zero (align8_mod _)

section Geometry

variable (rotation : Rotation) (bytesPerPixel : UInt32) (auto : Bool) (src : MxcfbRect)

theorem epdcOutput_block :
    (epdcOutput rotation bytesPerPixel auto src).xcoord.toNat < 8 ∧
      (epdcOutput rotation bytesPerPixel auto src).widthPxpBlocks.toNat % 8 = 0 := by
  cases rotation
  case ur =>
    refine ⟨?_, align8_mod _⟩
    dsimp only [epdcOutput, pxpUpdRegion]
    generalize copiedRegion .ur bytesPerPixel auto src = copied
    have gap : (inputGap bytesPerPixel copied.left).toNat < 4 := Nat.mod_lt _ (by decide)
    have := Nat.div_le_self (inputGap bytesPerPixel copied.left).toNat bytesPerPixel.toNat
    split
    · rw [UInt32.toNat_div]
      omega
    · decide
  case cw => exact ⟨align8_sub _, align8_mod _⟩
  case ud =>
    dsimp only [epdcOutput]
    rw [show ∀ a b c : UInt32, a - b - c = a - (b + c) by grind]
    exact ⟨align8_sub _, align8_mod _⟩
  case ccw => exact ⟨show (0 : UInt32).toNat < 8 by decide, align8_mod _⟩

/-- **Where an update lies.** A region is turned to its image on the rotated screen, in place or
not; the EPDC reads, from a multiple of 8 on, where the PxP wrote the turned source. -/
theorem epdc_geometry {xres yres : UInt32} {region : MxcfbRect}
    (inside : region.Inside (xres.toNat, yres.toNat)) :
    let adjusted := adjustCoordinates rotation xres yres region
    let copied := copiedRegion rotation bytesPerPixel auto src
    let pxp := pxpUpdRegion bytesPerPixel copied
    let placed := { copied with left := pxp.left, top := pxp.top }
    let turned := adjustCoordinates rotation pxp.width pxp.height placed
    let output := epdcOutput rotation bytesPerPixel auto src
    (adjustInPlace rotation xres yres region = adjusted ∧
      adjusted.Inside (rotation.size xres yres) ∧
      ∀ x y, adjusted.Holds x y ↔
        ∃ x' y', region.Holds x' y' ∧ rotation.turn xres yres x' y' = (x, y)) ∧
    (output.epdcOffs = output.outputShift + output.ycoord * output.widthPxpBlocks + output.xcoord ∧
      8 ∣ output.epdcOffs.toNat) ∧
    output.xcoord = turned.left ∧ output.ycoord = turned.top := by
  obtain ⟨small, blocks⟩ := epdcOutput_block rotation bytesPerPixel auto src
  refine ⟨⟨?_, adjustCoordinates_image rotation inside⟩, align8_add small blocks, ?_⟩
  · cases rotation <;> rfl
  · cases rotation <;> simp only [epdcOutput, pxpUpdRegion, adjustCoordinates] <;> grind

theorem epdc_geometry_cw :
    (adjustCoordinates .cw 600 800 ⟨590, 0, 10, 800⟩).Inside (Rotation.size .cw 600 800) ∧
      8 ∣ (epdcOutput .cw 2 true ⟨3, 0, 9, 5⟩).epdcOffs.toNat := by
  have := @epdc_geometry .cw 2 true ⟨3, 0, 9, 5⟩ 600 800 ⟨590, 0, 10, 800⟩ ⟨by decide, by decide⟩
  exact ⟨this.1.2.1, this.2.1.2⟩

end Geometry

end KernelImx.Epdc
