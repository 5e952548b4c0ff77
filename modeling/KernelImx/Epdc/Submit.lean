/-
**The submission of updates** (`epdc_submit_work_func`, `mxc_epdc_irq_handler`).

The work function takes an update from the collision list or the pending list, lets the PxP process
it, waits for the working buffer and a LUT, and makes it the current update. The interrupt handler
takes back what has completed and, in the snapshot scheme, submits the next update itself.
-/

import KernelImx.Epdc.Update

namespace KernelImx.Epdc

/-! ### The work function -/

/-- The loop over the collision list: the selected update, the list, and the buffers given back. -/
def collisionScan (updScheme : UpdateScheme) :
    Option UpdateBuf → List UpdateBuf → Option UpdateBuf × List UpdateBuf × List UpdateBuf
  | selected, [] => (selected, [], [])
  | selected, nextUpdate :: rest =>
    if nextUpdate.collisionMask ≠ 0 then
      let (selected, list, freed) := collisionScan updScheme selected rest
      (selected, nextUpdate :: list, freed)
    else
      let nextUpdate := nextUpdate.mapData fun data => { data with waveformMode := waveformModeAuto }
      match selected with
      | none =>
        if updScheme = .queue then (some nextUpdate, rest, [])
        else collisionScan updScheme (some nextUpdate) rest
      | some buf =>
        match buf.updateDesc, nextUpdate.updateDesc with
        | some desc, some next =>
          match epdcSubmitMerge desc next with
          | (.ok, merged) =>
            let (selected, list, freed) :=
              collisionScan updScheme (some { buf with updateDesc := some merged }) rest
            (selected, list, { nextUpdate with updateDesc := none } :: freed)
          | (.fail, kept) =>
            let (selected, list, freed) :=
              collisionScan updScheme (some { buf with updateDesc := some kept }) rest
            (selected, nextUpdate :: list, freed)
          | (.block, kept) =>
            (some { buf with updateDesc := some kept }, nextUpdate :: rest, [])
        -- a buffer on the list has a descriptor
        | _, _ => (some buf, nextUpdate :: rest, [])

/-- The loop over the pending list: the selected update, the list, and the free buffers. -/
def pendingScan (updScheme : UpdateScheme) :
    Option UpdateBuf → List UpdateBuf → List UpdateDesc →
      Option UpdateBuf × List UpdateDesc × List UpdateBuf
  | selected, free, [] => (selected, [], free)
  | selected, free, nextDesc :: rest =>
    match selected with
    | none =>
      match free with
      | [] => (none, nextDesc :: rest, [])
      | updDataList :: free =>
        let updDataList := { updDataList with updateDesc := some nextDesc }
        if updScheme = .queue then (some updDataList, rest, free)
        else pendingScan updScheme (some updDataList) free rest
    | some buf =>
      match buf.updateDesc with
      | some desc =>
        match epdcSubmitMerge desc nextDesc with
        | (.ok, merged) =>
          pendingScan updScheme (some { buf with updateDesc := some merged }) free rest
        | (.fail, kept) =>
          let (selected, list, free) :=
            pendingScan updScheme (some { buf with updateDesc := some kept }) free rest
          (selected, nextDesc :: list, free)
        | (.block, kept) =>
          (some { buf with updateDesc := some kept }, nextDesc :: rest, free)
      | none => (some buf, nextDesc :: rest, free)

variable (fb : FbData)

/-- The first part of the work function, up to the release of the lock. -/
def workSelect : FbData × Option UpdateBuf :=
  let (selected, collision, freed) := collisionScan fb.updScheme none fb.updBufCollisionList
  let fb := { fb with
    updBufCollisionList := collision
    updBufFreeList := fb.updBufFreeList ++ freed }
  if fb.updScheme = .queue ∧ selected.isSome then (fb, selected)
  else if selected.isNone && fb.updBufFreeList.isEmpty then (fb, none)
  else
    let (selected, pending, free) :=
      pendingScan fb.updScheme selected fb.updBufFreeList fb.updPendingList
    ({ fb with updPendingList := pending, updBufFreeList := free }, selected)

/-- Where the work function stands: it owns a buffer unless it is idle. -/
inductive WorkPhase
  | idle
  | process (buf : UpdateBuf)
  | waitWb (buf : UpdateBuf)
  | waitLut (buf : UpdateBuf)
  | waitLut15 (buf : UpdateBuf)
  | waitEof (buf : UpdateBuf)
  deriving DecidableEq, Repr

def workSubmit (buf : UpdateBuf) : FbData × WorkPhase :=
  (submitUpdate { fb with lutsCompleteWb := 0 } buf, .idle)

def workChooseLut (luts : LutStatus) (fb : FbData) (buf : UpdateBuf) : FbData × WorkPhase :=
  let (nextLut, lut15) := epdcChooseNextLut luts.statusLuts
  let buf := { buf with lutNum := nextLut }
  if lut15 && fb.tcePrevent then ({ fb with lut15Free := 0, waitingForLut15 := true }, .waitLut15 buf)
  else if lut15 then (fb, .waitEof buf)
  else workSubmit fb buf

def workCheckLut (luts : LutStatus) (fb : FbData) (buf : UpdateBuf) : FbData × WorkPhase :=
  if !luts.lutsAvailable then ({ fb with updateResFree := 0, waitingForLut := true }, .waitLut buf)
  else workChooseLut luts fb buf

def workProcess (buf : UpdateBuf) (result : PxpResult) (luts : LutStatus) : FbData × WorkPhase :=
  match epdcProcessUpdate fb buf result with
  | (fb, .error _) =>
    ({ fb with updBufFreeList := fb.updBufFreeList ++ [{ buf with updateDesc := none }] }, .idle)
  | (fb, .ok buf) =>
    if fb.curUpdate.isSome then ({ fb with updateResFree := 0, waitingForWb := true }, .waitWb buf)
    else workCheckLut luts fb buf

/-- The work function goes on after a wait; the wait for the end of the frame may also time out. -/
def workResume (luts : LutStatus) : WorkPhase → Option (FbData × WorkPhase)
  | .waitWb buf =>
    if fb.updateResFree = 0 then none
    else some (workCheckLut luts { fb with updateResFree := fb.updateResFree - 1 } buf)
  | .waitLut buf =>
    if fb.updateResFree = 0 then none
    else some (workChooseLut luts { fb with updateResFree := fb.updateResFree - 1 } buf)
  | .waitLut15 buf =>
    if fb.lut15Free = 0 then none
    else
      some (workSubmit { fb with lut15Free := fb.lut15Free - 1 }
        { buf with lutNum := (epdcChooseNextLut luts.statusLuts).1 })
  | .waitEof buf => some (workSubmit fb buf)
  | _ => none

/-! ### The interrupt handler -/

/-- What the handler reads from the hardware. -/
structure IrqStatus where
  /-- `epdc_is_lut_complete(0)`, for the update of the one-time panel init -/
  lut0Complete : Bool
  /-- an enabled interrupt is pending -/
  enabled : Bool
  irqStat : UInt32
  lutsActive : Bool
  wbBusy : Bool
  collision : Bool
  collidingLuts : UInt32
  luts : LutStatus
  deriving DecidableEq, Repr

def lutBit (lut : Nat) : UInt32 := 1 <<< UInt32.ofNat lut

/-- Removes markers from the full list: who waits is signalled, the others are freed. -/
def signalMarkers (done : MarkerData → Bool) : FbData :=
  { fb with
    fullMarkerList := fb.fullMarkerList.filter fun marker => !done marker
    signalled := fb.signalled ++
      ((fb.fullMarkerList.filter fun marker => done marker && marker.waiting).map MarkerData.id) }

/-- A LUT has completed: it no longer stands in the masks of the collision list. -/
def freeLut (lut : Nat) (fb : FbData) : FbData :=
  { fb with
    updBufCollisionList := fb.updBufCollisionList.map fun update =>
      { update with collisionMask := update.collisionMask &&& ~~~ lutBit lut }
    lutsCompleteWb := fb.lutsCompleteWb ||| lutBit lut
    lutUpdateOrder := fun other => if other = lut then 0 else fb.lutUpdateOrder other }

def signalLut : FbData :=
  if fb.waitingForLut then
    { fb with updateResFree := fb.updateResFree + 1, waitingForLut := false }
  else fb

def signalLut15 (lut : Nat) (fb : FbData) : FbData :=
  if fb.waitingForLut15 && lut = 15 then
    { fb with lut15Free := fb.lut15Free + 1, waitingForLut15 := false }
  else fb

/-- The body of the loop over the LUTs; the flag is `wb_lut_done`. -/
def lutComplete (irqStat : UInt32) (state : FbData × Bool) (lut : Nat) : FbData × Bool :=
  if irqStat &&& lutBit lut = 0 then state
  else
    let fb := signalLut15 lut (signalLut (freeLut lut state.1))
    let wbLutDone := state.2 || fb.curUpdate.any fun update => update.lutNum = (lut : Int)
    (if wbLutDone then fb else signalMarkers fb fun marker => marker.lutNum = (lut : Int), wbLutDone)

/-- "Check to see if all updates have completed". -/
def checkIdle (lutsActive : Bool) : FbData :=
  if fb.updPendingList.isEmpty && isFreeListFull fb && fb.curUpdate.isNone && !lutsActive then
    let fb := { fb with updatesActive := false }
    let fb := if fb.pwrdownDisabled then fb else { fb with poweringDown := true, orderCnt := 0 }
    if fb.waitingForIdle then { fb with updatesDone := fb.updatesDone + 1 } else fb
  else fb

/-- Does the update collide with a newer one? -/
def ignoreCollision (update : UpdateBuf) : Bool :=
  (List.range 32).any fun lut =>
    update.collisionMask &&& lutBit lut ≠ 0 && update.order ≤ fb.lutUpdateOrder lut

/-- Wakes up the work function if it waits, or has ever waited, for the working buffer. -/
def signalWb : FbData :=
  if fb.waitingForWb then
    { fb with updateResFree := fb.updateResFree + 1, waitingForLut := false }
  else fb

variable (status : IrqStatus)

/-- "Check list of colliding LUTs, and add to our collision mask". -/
def addCollision (fb : FbData) (update : UpdateBuf) : UpdateBuf :=
  if status.collision then
    { update with collisionMask := status.collidingLuts &&& ~~~ fb.lutsCompleteWb }
  else update

/-- The update is moved to the collision list, or freed with its markers. -/
def releaseUpdate (wbLutDone : Bool) (update : UpdateBuf) (fb : FbData) : FbData :=
  if status.collision && !ignoreCollision fb update then
    { fb with
      fullMarkerList := setLut update.markers invalidLut fb.fullMarkerList
      updBufCollisionList := fb.updBufCollisionList ++ [update]
      curUpdate := none }
  else
    let fb := if wbLutDone then signalMarkers fb fun marker => marker.id ∈ update.markers else fb
    { fb with updBufFreeList := fb.updBufFreeList ++ [update], curUpdate := none }

def wbComplete (wbLutDone : Bool) (fb : FbData) : FbData :=
  match fb.curUpdate with
  | none => fb
  | some update => releaseUpdate status wbLutDone (addCollision status fb update) (signalWb fb)

/-- The first update of the collision list whose mask has been cleared, and the other ones. -/
def takeCleared : List UpdateBuf → Option (UpdateBuf × List UpdateBuf)
  | [] => none
  | update :: rest =>
    if update.collisionMask ≠ 0 then (takeCleared rest).map fun (found, others) =>
      (found, update :: others)
    else some (update, rest)

/-- The end of the handler in the snapshot scheme. -/
def irqSubmit (fb : FbData) : FbData :=
  let (nextLut, lut15) := epdcChooseNextLut status.luts.statusLuts
  if !status.luts.lutsAvailable then fb
  else if lut15 && fb.tcePrevent then fb
  else
    match takeCleared fb.updBufCollisionList with
    | some (update, others) =>
      submitUpdate { fb with updBufCollisionList := others } { update with lutNum := nextLut }
    | none =>
      match fb.updBufQueue with
      | [] => fb
      | update :: queue =>
        submitUpdate { fb with updBufQueue := queue } { update with lutNum := nextLut }

/-- `mxc_epdc_irq_handler` -/
def irqHandler (fb : FbData) : FbData :=
  if fb.inInit then { fb with inInit := !status.lut0Complete }
  else if !status.enabled then fb
  else
    let (fb, wbLutDone) :=
      (List.range epdcNumLuts).foldl (lutComplete status.irqStat) (fb, false)
    let fb := checkIdle fb status.lutsActive
    if status.wbBusy then fb
    else
      let fb := wbComplete status wbLutDone fb
      if fb.updScheme ≠ .snapshot then
        if fb.poweringDown then fb else { fb with workPending := true }
      else irqSubmit status fb

/-! ### The system -/

/-- The driver, the calls of `mxc_epdc_fb_send_update` that are running, and the work function. -/
structure EpdcSystem where
  fb : FbData
  sends : List SendCall
  work : WorkPhase

inductive EpdcLabel
  | send (updData : UpdateData) (descAlloc markerAlloc : Bool)
  | flush (call : Nat)
  | flushed (call : Nat)
  | take (call : Nat) (descAlloc markerAlloc : Bool)
  | process (call : Nat) (result : PxpResult) (luts : LutStatus)
  | workStart
  | workProcess (result : PxpResult) (luts : LutStatus)
  | workResume (luts : LutStatus)
  | irq (status : IrqStatus)
  | powerdown

/-- The calls that run on after one of them got an outcome. -/
def SendOutcome.calls : SendOutcome → List SendCall
  | .returned _ => []
  | .running call => [call]

/-- One step: what a call, the work function or the handler does while it holds the lock. -/
def epdcStep (system : EpdcSystem) : EpdcLabel → Option EpdcSystem
  | .send updData descAlloc markerAlloc =>
    let (fb, outcome) := sendUpdate system.fb updData descAlloc markerAlloc
    some { system with fb := fb, sends := system.sends ++ outcome.calls }
  | .flush call =>
    match system.sends[call]? with
    | some (.flush updData) =>
      let (fb, waits) := flushUpdates system.fb
      some { system with
        fb := fb
        sends := system.sends.set call (if waits then .flushing updData else .take updData) }
    | _ => none
  | .flushed call =>
    match system.sends[call]? with
    | some (.flushing updData) =>
      some { system with
        fb := { system.fb with waitingForIdle := false }
        sends := system.sends.set call (.take updData) }
    | _ => none
  | .take call descAlloc markerAlloc =>
    match system.sends[call]? with
    | some (.take updData) =>
      let (fb, outcome) := takeBuffer system.fb updData descAlloc markerAlloc
      some { system with fb := fb, sends := system.sends.eraseIdx call ++ outcome.calls }
    | _ => none
  | .process call result luts =>
    match system.sends[call]? with
    | some (.process buf) =>
      let (fb, _) := sendProcess system.fb buf result luts
      some { system with fb := fb, sends := system.sends.eraseIdx call }
    | _ => none
  | .workStart =>
    if system.fb.workPending ∧ system.work = .idle then
      let (fb, selected) := workSelect { system.fb with workPending := false }
      some { system with fb := fb, work := (selected.map WorkPhase.process).getD .idle }
    else none
  | .workProcess result luts =>
    match system.work with
    | .process buf =>
      let (fb, work) := workProcess system.fb buf result luts
      some { system with fb := fb, work := work }
    | _ => none
  | .workResume luts =>
    (workResume system.fb luts system.work).map fun (fb, work) =>
      { system with fb := fb, work := work }
  | .irq status => some { system with fb := irqHandler status system.fb }
  | .powerdown => some { system with fb := epdcPowerdown system.fb }

end KernelImx.Epdc
