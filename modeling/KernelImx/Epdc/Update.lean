/-
**Updates of the electrophoretic display** (`drivers/video/mxc/mxc_epdc_fb.c`).

An update is described by `struct update_desc_list`; to be shown it needs one of the
`EPDC_MAX_NUM_UPDATES` buffers (`struct update_data_list`) for the output of the PxP. The buffers hang
on three lists or are the current update.

`u32` is `UInt32`. A buffer and a marker are named by `id`, their address.
-/

import KernelImx.Errno

namespace KernelImx.Epdc

/-! ### Descriptors and buffers -/

structure MxcfbRect where
  left : UInt32
  top : UInt32
  width : UInt32
  height : UInt32
  deriving DecidableEq, Repr

structure AltBufferData where
  physAddr : UInt32
  width : UInt32
  height : UInt32
  altUpdateRegion : MxcfbRect
  deriving DecidableEq, Repr

/-- `struct mxcfb_update_data`, without the temperature. -/
structure UpdateData where
  updateRegion : MxcfbRect
  waveformMode : UInt32
  updateMode : UInt32
  updateMarker : UInt32
  flags : UInt32
  altBufferData : AltBufferData
  deriving DecidableEq, Repr

def updateModePartial : UInt32 := 0
def updateModeFull : UInt32 := 1
def waveformModeAuto : UInt32 := 257
def epdcFlagUseAltBuffer : UInt32 := 0x100

def epdcNumLuts : Nat := 16
def epdcMaxNumUpdates : Nat := 20
def invalidLut : Int := -1

/-- `struct update_marker_data` -/
structure MarkerData where
  id : Nat
  updateMarker : UInt32
  lutNum : Int
  waiting : Bool
  deriving DecidableEq, Repr

/-- `struct update_desc_list`; `updMarkerList` holds the addresses of its markers. -/
structure UpdateDesc where
  updData : UpdateData
  updMarkerList : List Nat
  updateOrder : UInt32
  deriving DecidableEq, Repr

/-- `struct update_data_list`: a buffer, and the update it is used for. -/
structure UpdateBuf where
  id : Nat
  updateDesc : Option UpdateDesc
  lutNum : Int
  collisionMask : UInt32
  deriving DecidableEq, Repr

inductive UpdateScheme
  | snapshot
  | queue
  | queueAndMerge
  deriving DecidableEq, Repr

/-- `struct mxc_epdc_fb_data`. A completion is the number of its pending `complete` calls. -/
structure FbData where
  updScheme : UpdateScheme
  hwReady : Bool
  inInit : Bool
  /-- `blank != FB_BLANK_UNBLANK` -/
  blanked : Bool
  xres : UInt32
  yres : UInt32
  smemStart : UInt32
  mapSize : UInt32
  tcePrevent : Bool
  /-- `pwrdown_delay == FB_POWERDOWN_DISABLE` -/
  pwrdownDisabled : Bool
  powerOn : Bool
  poweringDown : Bool
  updatesActive : Bool
  orderCnt : UInt32
  lutUpdateOrder : Nat → UInt32
  lutsCompleteWb : UInt32
  updBufFreeList : List UpdateBuf
  updBufQueue : List UpdateBuf
  updBufCollisionList : List UpdateBuf
  curUpdate : Option UpdateBuf
  updPendingList : List UpdateDesc
  fullMarkerList : List MarkerData
  /-- the next marker of `kzalloc` -/
  nextMarker : Nat
  /-- the markers whose completion has been signalled -/
  signalled : List Nat
  waitingForIdle : Bool
  waitingForWb : Bool
  waitingForLut : Bool
  waitingForLut15 : Bool
  updatesDone : Nat
  updateResFree : Nat
  lut15Free : Nat
  /-- `epdc_submit_work` is queued -/
  workPending : Bool

variable (fb : FbData)

def isFreeListFull : Bool := fb.updBufFreeList.length = epdcMaxNumUpdates

/-- The part of the update data that a function rewrites, in the descriptor of a buffer. -/
def UpdateBuf.mapData (change : UpdateData → UpdateData) (buf : UpdateBuf) : UpdateBuf :=
  { buf with updateDesc := buf.updateDesc.map fun desc => { desc with updData := change desc.updData } }

variable (buf : UpdateBuf)

def UpdateBuf.markers : List Nat :=
  (buf.updateDesc.map UpdateDesc.updMarkerList).getD []

def UpdateBuf.order : UInt32 := (buf.updateDesc.map UpdateDesc.updateOrder).getD 0

/-! ### Merging -/

inductive MergeResult
  | ok
  | fail
  | block
  deriving DecidableEq, Repr

/-- `epdc_submit_merge`: the result, and the descriptor `upd_desc_list` as it is left. -/
def epdcSubmitMerge (updDescList updateToMerge : UpdateDesc) : MergeResult × UpdateDesc :=
  let a := updDescList.updData
  let b := updateToMerge.updData
  let arect := a.updateRegion
  let brect := b.updateRegion
  if a.flags ≠ b.flags ∧ arect ≠ brect then (.block, updDescList)
  else
    -- the modes are rewritten before the rectangles are compared
    let a := if a.updateMode ≠ b.updateMode then { a with updateMode := updateModeFull } else a
    let a := if a.waveformMode ≠ b.waveformMode then { a with waveformMode := waveformModeAuto } else a
    if arect.left > brect.left + brect.width ∨ brect.left > arect.left + arect.width ∨
        arect.top > brect.top + brect.height ∨ brect.top > arect.top + arect.height then
      (.fail, { updDescList with updData := a })
    else
      let left := if arect.left < brect.left then arect.left else brect.left
      let top := if arect.top < brect.top then arect.top else brect.top
      let width := if arect.left + arect.width > brect.left + brect.width then
          arect.left + arect.width - left
        else brect.left + brect.width - left
      let height := if arect.top + arect.height > brect.top + brect.height then
          arect.top + arect.height - top
        else brect.top + brect.height - top
      let flags := if a.flags ≠ b.flags then b.flags else a.flags
      (.ok,
        { updData := { a with updateRegion := ⟨left, top, width, height⟩, flags := flags }
          updMarkerList := updDescList.updMarkerList ++ updateToMerge.updMarkerList
          updateOrder := if updDescList.updateOrder > updateToMerge.updateOrder then
              updDescList.updateOrder
            else updateToMerge.updateOrder })

/-! ### LUTs and markers -/

/-- The hardware as a submission sees it: is a LUT free, and which ones are in use? -/
structure LutStatus where
  lutsAvailable : Bool
  statusLuts : UInt32
  deriving DecidableEq, Repr

def fls (word : UInt32) : Nat :=
  (List.range 32).foldl (fun found bit => if word.toNat.testBit bit then bit + 1 else found) 0

def ffz (word : UInt32) : Nat := ((List.range 32).find? fun bit => !word.toNat.testBit bit).getD 32

/-- `epdc_choose_next_lut`: the LUT, and whether LUT 15 is in use. -/
def epdcChooseNextLut (statusLuts : UInt32) : Int × Bool :=
  let nextLut := fls (statusLuts &&& 0xFFFF)
  let nextLut := if nextLut > 15 then ffz (statusLuts &&& 0xFFFF) else nextLut
  (nextLut, statusLuts &&& 0x8000 ≠ 0)

def setLut (markers : List Nat) (lut : Int) (list : List MarkerData) : List MarkerData :=
  list.map fun marker => if marker.id ∈ markers then { marker with lutNum := lut } else marker

/-- The buffer becomes the current update, on the LUT it has been given. -/
def submitUpdate : FbData :=
  { fb with
    curUpdate := some buf
    fullMarkerList := setLut buf.markers buf.lutNum fb.fullMarkerList
    lutUpdateOrder := fun lut => if (lut : Int) = buf.lutNum then buf.order else fb.lutUpdateOrder lut }

/-! ### The PxP -/

/-- What `epdc_process_update` meets; `waveform` is the mode chosen from the histogram. -/
inductive PxpResult
  | notSubmitted (err : Errno)
  | notCompleted (err : Errno)
  | processed (waveform : UInt32)
  deriving DecidableEq, Repr

def epdcPowerup : FbData :=
  let fb := { fb with poweringDown := false }
  if fb.powerOn then fb else { fb with updatesActive := true, powerOn := true }

def epdcPowerdown : FbData :=
  if !fb.poweringDown || !fb.powerOn then fb else { fb with powerOn := false, poweringDown := false }

/-- The PxP, as far as its result goes: the rotation of the coordinates and the registers that are
written are left out. -/
def epdcProcessUpdate (result : PxpResult) : FbData × Except Errno UpdateBuf :=
  let powered := if !fb.powerOn || fb.poweringDown then epdcPowerup fb else fb
  match result with
  | .notSubmitted err => (fb, .error err)
  | .notCompleted err => (powered, .error err)
  | .processed waveform =>
    (powered, .ok (buf.mapData fun data =>
      if data.waveformMode = waveformModeAuto then { data with waveformMode := waveform } else data))

/-! ### Sending an update -/

variable (updData : UpdateData)

def checkUpdate : Except Errno Unit :=
  let region := updData.updateRegion
  let alt := updData.altBufferData
  if !fb.hwReady then .error .eperm
  else if updData.updateMode ≠ updateModePartial ∧ updData.updateMode ≠ updateModeFull then
    .error .einval
  else if updData.waveformMode > 255 ∧ updData.waveformMode ≠ waveformModeAuto then .error .einval
  else if region.left + region.width > fb.xres ∨ region.top + region.height > fb.yres then
    .error .einval
  else if updData.flags &&& epdcFlagUseAltBuffer ≠ 0 then
    if region.width ≠ alt.altUpdateRegion.width ∨ region.height ≠ alt.altUpdateRegion.height then
      .error .einval
    else if alt.physAddr < fb.smemStart ∨ alt.physAddr > fb.smemStart + fb.mapSize then
      .error .einval
    else .ok ()
  else .ok ()

/-- A call of `mxc_epdc_fb_send_update` that has not returned and does not hold the lock. -/
inductive SendCall
  | flush (updData : UpdateData)
  | flushing (updData : UpdateData)
  | take (updData : UpdateData)
  | process (buf : UpdateBuf)
  deriving DecidableEq, Repr

inductive SendOutcome
  | returned (ret : Except Errno Unit)
  | running (call : SendCall)

/-- The new descriptor and its marker; `false` is "No memory for marker!". -/
def newUpdate (markerAlloc : Bool) : FbData × UpdateDesc × Bool :=
  let updDesc : UpdateDesc := ⟨updData, [], fb.orderCnt⟩
  let fb := { fb with orderCnt := fb.orderCnt + 1 }
  if updData.updateMarker = 0 then (fb, updDesc, true)
  else if !markerAlloc then (fb, updDesc, false)
  else
    ({ fb with
        fullMarkerList := fb.fullMarkerList ++ [⟨fb.nextMarker, updData.updateMarker, invalidLut, false⟩]
        nextMarker := fb.nextMarker + 1 },
      { updDesc with updMarkerList := [fb.nextMarker] }, true)

/-- The snapshot scheme: the call takes a buffer and goes on with it after it has released the
lock. -/
def snapshotUpdate (descAlloc markerAlloc : Bool) : FbData × SendOutcome :=
  match fb.updBufFreeList with
  | [] => (fb, .returned (.error .enomem))
  | updDataList :: free =>
    if !descAlloc then
      ({ fb with updBufFreeList := updDataList :: free }, .returned (.error .eperm))
    else
      let (fb, updDesc, marked) := newUpdate { fb with updBufFreeList := free } updData markerAlloc
      if !marked then
        ({ fb with updPendingList := fb.updPendingList ++ [updDesc] }, .returned (.error .enomem))
      else (fb, .running (.process { updDataList with updateDesc := some updDesc }))

/-- The other schemes: the update waits for the work function. -/
def queueUpdate (descAlloc markerAlloc : Bool) : FbData × SendOutcome :=
  if !descAlloc then (fb, .returned (.error .eperm))
  else
    let (fb, updDesc, marked) := newUpdate fb updData markerAlloc
    let fb := { fb with updPendingList := fb.updPendingList ++ [updDesc] }
    if !marked then (fb, .returned (.error .enomem))
    else ({ fb with workPending := true }, .returned (.ok ()))

/-- From the choice of a buffer to the release of the lock. -/
def takeBuffer (descAlloc markerAlloc : Bool) : FbData × SendOutcome :=
  if fb.updScheme = .snapshot then snapshotUpdate fb updData descAlloc markerAlloc
  else queueUpdate fb updData descAlloc markerAlloc

def sendUpdate (descAlloc markerAlloc : Bool) : FbData × SendOutcome :=
  match checkUpdate fb updData with
  | .error err => (fb, .returned (.error err))
  | .ok () =>
    if fb.blanked then ({ fb with blanked := false }, .returned (.ok ()))
    else if fb.waitingForIdle then (fb, .returned (.error .eperm))
    else if fb.updScheme = .snapshot ∧ updData.updateMode = updateModeFull then
      (fb, .running (.flush updData))
    else takeBuffer fb updData descAlloc markerAlloc

/-- The first half of `mxc_epdc_fb_flush_updates`; does it wait? -/
def flushUpdates : FbData × Bool :=
  if !fb.updPendingList.isEmpty || !isFreeListFull fb || fb.updatesActive then
    ({ fb with updatesDone := 0, waitingForIdle := true }, true)
  else (fb, false)

/-- The call after the PxP has run: the update is submitted or put on the queue. -/
def sendProcess (result : PxpResult) (luts : LutStatus) : FbData × Except Errno Unit :=
  match epdcProcessUpdate fb buf result with
  | (fb, .error err) => (fb, .error err)
  | (fb, .ok buf) =>
    if fb.curUpdate.isSome || !luts.lutsAvailable then
      ({ fb with updBufQueue := fb.updBufQueue ++ [buf] }, .ok ())
    else
      let (nextLut, lut15) := epdcChooseNextLut luts.statusLuts
      let buf := { buf with lutNum := nextLut }
      if lut15 && fb.tcePrevent then
        ({ fb with updBufQueue := fb.updBufQueue ++ [buf] }, .ok ())
      else (submitUpdate { fb with lutsCompleteWb := 0 } buf, .ok ())

end KernelImx.Epdc
