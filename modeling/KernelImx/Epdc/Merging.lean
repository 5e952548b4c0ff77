/-
**Updates that meet** (`epdc_submit_merge`, `mxc_epdc_irq_handler`).

A merge is to be all or nothing: either the target covers both regions and owns all markers, or it is
what it was. An update that collided in the working buffer is dropped only for newer ones.
-/

import KernelImx.Epdc.Conserve

namespace KernelImx.Epdc

/-! ### Merging -/

namespace MxcfbRect

/-- The first column to the right of the rectangle, not taken modulo `2 ^ 32`. -/
def right (rect : MxcfbRect) : Nat := rect.left.toNat + rect.width.toNat

def bottom (rect : MxcfbRect) : Nat := rect.top.toNat + rect.height.toNat

def Fits (rect : MxcfbRect) : Prop := rect.right < 2 ^ 32 ∧ rect.bottom < 2 ^ 32

/-- The test of `epdc_submit_merge`, in 32 bits: one rectangle lies past an end of the other. -/
def Apart (arect brect : MxcfbRect) : Prop :=
  arect.left > brect.left + brect.width ∨ brect.left > arect.left + arect.width ∨
    arect.top > brect.top + brect.height ∨ brect.top > arect.top + arect.height

/-- `combine` is the bounding rectangle of the two. -/
structure Bounds (arect brect combine : MxcfbRect) : Prop where
  left : combine.left.toNat = min arect.left.toNat brect.left.toNat
  top : combine.top.toNat = min arect.top.toNat brect.top.toNat
  right : combine.right = max arect.right brect.right
  bottom : combine.bottom = max arect.bottom brect.bottom

end MxcfbRect

section

variable (updDescList updateToMerge : UpdateDesc)

/-- **A merge is all or nothing.** -/
def MergeWhole : Prop :=
  match epdcSubmitMerge updDescList updateToMerge with
  | (.ok, merged) =>
    updDescList.updData.updateRegion.Bounds updateToMerge.updData.updateRegion
        merged.updData.updateRegion ∧
      merged.updMarkerList = updDescList.updMarkerList ++ updateToMerge.updMarkerList
  | (_, kept) => kept = updDescList

/-- A refused merge finds the modes as it would set them, and what is merged does not wrap around.
-/
def MergesWhole (a b : UpdateData) : Prop :=
  (a.flags ≠ b.flags ∧ a.updateRegion ≠ b.updateRegion) ∨
    (a.updateRegion.Apart b.updateRegion →
        (a.updateMode = b.updateMode ∨ a.updateMode = updateModeFull) ∧
          (a.waveformMode = b.waveformMode ∨ a.waveformMode = waveformModeAuto)) ∧
      (¬ a.updateRegion.Apart b.updateRegion → a.updateRegion.Fits ∧ b.updateRegion.Fits)

theorem combine_end {astart asize bstart bsize : UInt32} (touches : ¬ astart > bstart + bsize)
    (touched : ¬ bstart > astart + asize) :
    (if astart < bstart then astart else bstart).toNat +
        (if astart + asize > bstart + bsize then
          astart + asize - if astart < bstart then astart else bstart
        else bstart + bsize - if astart < bstart then astart else bstart).toNat =
        max (astart.toNat + asize.toNat) (bstart.toNat + bsize.toNat) ↔
      astart.toNat + asize.toNat < 2 ^ 32 ∧ bstart.toNat + bsize.toNat < 2 ^ 32 := by
  simp only [gt_iff_lt, UInt32.lt_iff_toNat_lt, UInt32.toNat_add] at *
  split <;> split <;> simp only [UInt32.toNat_sub, UInt32.toNat_add] <;> omega

theorem combine_start (astart bstart : UInt32) :
    (if astart < bstart then astart else bstart).toNat = min astart.toNat bstart.toNat := by
  simp only [UInt32.lt_iff_toNat_lt]
  split <;> omega

/-- **When a merge is all or nothing.** -/
theorem epdcSubmitMerge_whole_iff : MergeWhole updDescList updateToMerge ↔
    MergesWhole updDescList.updData updateToMerge.updData := by
  obtain ⟨⟨region, waveformMode, updateMode, updateMarker, flags, alt⟩, markers, order⟩ :=
    updDescList
  unfold MergeWhole MergesWhole epdcSubmitMerge
  by_cases blocked : flags ≠ updateToMerge.updData.flags ∧
      region ≠ updateToMerge.updData.updateRegion
  · rw [if_pos blocked]
    exact iff_of_true rfl (.inl blocked)
  rw [if_neg blocked, or_iff_right blocked]
  by_cases apart : region.Apart updateToMerge.updData.updateRegion
  · rw [if_pos (show _ ∨ _ ∨ _ ∨ _ from apart)]
    simp only [apart, true_imp_iff, not_true_eq_false, false_imp_iff, and_true]
    -- the modes are what may have changed
    split <;> dsimp only <;> split <;> simp_all [eq_comm, and_comm]
  rw [if_neg (show ¬ (_ ∨ _ ∨ _ ∨ _) from apart)]
  simp only [apart, false_imp_iff, not_false_eq_true, true_imp_iff, true_and]
  obtain ⟨leftOf, rightOf, above, below⟩ := by simpa only [MxcfbRect.Apart, not_or] using apart
  have horizontal := combine_end leftOf rightOf
  have vertical := combine_end above below
  constructor
  · rintro ⟨⟨-, -, right, bottom⟩, -⟩
    obtain ⟨aright, bright⟩ := horizontal.mp right
    obtain ⟨abottom, bbottom⟩ := vertical.mp bottom
    exact ⟨⟨aright, abottom⟩, bright, bbottom⟩
  · rintro ⟨⟨aright, abottom⟩, bright, bbottom⟩
    exact ⟨⟨combine_start .., combine_start .., horizontal.mpr ⟨aright, bright⟩,
      vertical.mpr ⟨abottom, bbottom⟩⟩, trivial⟩

end

def lineUpdate (top updateMode : UInt32) : UpdateDesc :=
  ⟨⟨⟨0, top, 800, 10⟩, 1, updateMode, 0, 0, ⟨0, 0, 0, ⟨0, 0, 0, 0⟩⟩⟩, [], 0⟩

theorem refused_merge_changes_mode :
    ¬ MergeWhole (lineUpdate 0 updateModePartial) (lineUpdate 30 updateModeFull) := by
  have refused : epdcSubmitMerge (lineUpdate 0 updateModePartial) (lineUpdate 30 updateModeFull) =
      (.fail, lineUpdate 0 updateModeFull) := by decide
  rw [MergeWhole, refused]
  decide

/-! ### Collisions -/

section Collision

variable (status : IrqStatus) (wbLutDone : Bool) (fb : FbData)

/-- The update still collides with a LUT once those that completed have been cleared. -/
def Collides (lut : Nat) : Prop :=
  lut < 32 ∧ (status.collidingLuts &&& ~~~ fb.lutsCompleteWb) &&& lutBit lut ≠ 0

/-- **No visible work is dropped**: every LUT left in the mask of an update that is freed carries a
newer one. -/
def DropsNothing : Prop :=
  ∀ update, fb.curUpdate = some update → status.collision = true →
    (wbComplete status wbLutDone fb).updBufFreeList =
        fb.updBufFreeList ++ [addCollision status fb update] →
      ∀ lut, Collides status fb lut → update.order < fb.lutUpdateOrder lut

/-- The handler frees a collided update when a LUT it collides with is not older. -/
theorem wbComplete_frees_iff {update : UpdateBuf} (current : fb.curUpdate = some update)
    (collision : status.collision = true) :
    (wbComplete status wbLutDone fb).updBufFreeList =
        fb.updBufFreeList ++ [addCollision status fb update] ↔
      ∃ lut, Collides status fb lut ∧ update.order ≤ fb.lutUpdateOrder lut := by
  have newer : ignoreCollision (signalWb fb) (addCollision status fb update) = true ↔
      ∃ lut, Collides status fb lut ∧ update.order ≤ fb.lutUpdateOrder lut := by
    have same : (signalWb fb).lutUpdateOrder = fb.lutUpdateOrder := by unfold signalWb; split <;> rfl
    simp [ignoreCollision, addCollision, collision, Collides, UpdateBuf.order, and_assoc, same]
  have same : (signalWb fb).updBufFreeList = fb.updBufFreeList := by unfold signalWb; split <;> rfl
  rw [← newer, wbComplete, current]
  dsimp only
  rw [releaseUpdate, collision, Bool.true_and]
  cases ignoreCollision (signalWb fb) (addCollision status fb update)
  · simp [same]
  · cases wbLutDone <;> simp [signalMarkers, same]

/-- **A collided update is dropped without loss exactly when the LUTs it collides with are all newer
or all older.** -/
theorem drops_nothing_iff : DropsNothing status wbLutDone fb ↔
    ∀ update, fb.curUpdate = some update → status.collision = true →
      (∀ lut, Collides status fb lut → update.order < fb.lutUpdateOrder lut) ∨
        ∀ lut, Collides status fb lut → fb.lutUpdateOrder lut < update.order := by
  refine forall_congr' fun update => forall₂_congr fun current collision => ?_
  rw [wbComplete_frees_iff status wbLutDone fb current collision]
  constructor
  · intro all
    by_cases freed : ∃ lut, Collides status fb lut ∧ update.order ≤ fb.lutUpdateOrder lut
    · exact .inl (all freed)
    · refine .inr fun lut collides => ?_
      by_contra notOlder
      exact freed ⟨lut, collides, UInt32.not_lt.mp notOlder⟩
  · rintro (newer | older) ⟨lut, collides, notOlder⟩
    · exact newer
    · exact absurd (older lut collides) (UInt32.not_lt.mpr notOlder)

end Collision

/-- The current update, of order 2, collides with one of order 3 on LUT 1 and one of order 1 on
LUT 2. -/
def betweenTwo : FbData :=
  { (freshDriver .queueAndMerge).fb with
    curUpdate := some ⟨0, some ⟨wholeScreen, [], 2⟩, 0, 0⟩
    lutUpdateOrder := fun lut => if lut = 1 then 3 else 1 }

theorem older_collision_dropped :
    ¬ DropsNothing ⟨false, true, 0, true, false, true, 6, allLutsFree⟩ false betweenTwo := by
  intro nothing
  have newer := nothing _ rfl rfl (by decide +kernel) 2 ⟨by decide, by decide +kernel⟩
  exact absurd newer (by decide +kernel)

end KernelImx.Epdc
