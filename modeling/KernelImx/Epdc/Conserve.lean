/-
**No buffer of the display driver is lost.**

Each of the `EPDC_MAX_NUM_UPDATES` buffers is on one list, is the current update, or is owned by a
call that is still running. `mxc_epdc_fb_send_update` drops its buffer on two of its error paths; in
every run that takes neither of them the buffers are conserved.

Main results: `epdc_buffers_conserved`, `pxp_failure_leaks`, `marker_failure_leaks`.
-/

import Mathlib.Data.List.Nodup
import KernelImx.Lib.Runs
import KernelImx.Epdc.Submit

namespace KernelImx.Epdc

open List Option KernelImx.Lib

/-! ### Counting buffers -/

/-- How often a buffer is on a list. -/
def countId (id : Nat) (bufs : List UpdateBuf) : Nat := (bufs.map UpdateBuf.id).count id

def one (id buf : Nat) : Nat := if buf = id then 1 else 0

@[simp] theorem countId_nil (id : Nat) : countId id [] = 0 := rfl

@[simp] theorem countId_cons (id : Nat) (buf : UpdateBuf) (bufs : List UpdateBuf) :
    countId id (buf :: bufs) = countId id bufs + one id buf.id := by
  simp only [countId, map_cons, count_cons, beq_iff_eq, one]

@[simp] theorem countId_append (id : Nat) (front back : List UpdateBuf) :
    countId id (front ++ back) = countId id front + countId id back := by
  simp only [countId, map_append, count_append]

theorem countId_map (id : Nat) (change : UpdateBuf → UpdateBuf)
    (same : ∀ buf, (change buf).id = buf.id) (bufs : List UpdateBuf) :
    countId id (bufs.map change) = countId id bufs := by
  unfold countId
  rw [List.map_map]
  exact congrArg (count id) (map_congr_left fun buf _ => same buf)

@[simp] theorem mapData_id (change : UpdateData → UpdateData) (buf : UpdateBuf) :
    (buf.mapData change).id = buf.id := rfl

/-- How often a buffer occurs on the lists of the driver and as its current update. -/
def census (id : Nat) (fb : FbData) : Nat :=
  countId id fb.updBufFreeList + countId id fb.updBufQueue + countId id fb.updBufCollisionList +
    countId id fb.curUpdate.toList

variable {buf : UpdateBuf}

theorem process_id {fb new : FbData} {done : UpdateBuf} {result : PxpResult}
    (run : epdcProcessUpdate fb buf result = (new, .ok done)) : done.id = buf.id := by
  unfold epdcProcessUpdate at run
  cases result with
  | notSubmitted err | notCompleted err => simp at run
  | processed waveform =>
    simp only [Prod.mk.injEq, Except.ok.injEq] at run
    rw [← run.2, mapData_id]

/-- A submitted update becomes the current one. -/
theorem submitUpdate_census (id : Nat) (fb : FbData) (buf : UpdateBuf) (free : fb.curUpdate = none) :
    census id (submitUpdate fb buf) = census id fb + one id buf.id := by
  simp [census, submitUpdate, free]

/-! ### The invariant -/

/-- The buffer the work function holds. -/
def WorkPhase.bufs : WorkPhase → List UpdateBuf
  | .idle => []
  | .process buf => [buf]
  | .waitWb buf => [buf]
  | .waitLut buf => [buf]
  | .waitLut15 buf => [buf]
  | .waitEof buf => [buf]

/-- When the work function goes on, there is no current update. -/
def ReadyToSubmit (fb : FbData) : WorkPhase → Prop
  | .idle => True
  | .process _ => True
  | .waitWb _ => 0 < fb.updateResFree → fb.curUpdate = none
  | .waitLut _ => fb.curUpdate = none
  | .waitLut15 _ => fb.curUpdate = none
  | .waitEof _ => fb.curUpdate = none

/-- Every buffer is in one place of the driver, or it is out, with a call or the work function. -/
structure Counted (scheme : UpdateScheme) (out : List UpdateBuf) (fb : FbData) : Prop where
  scheme_eq : fb.updScheme = scheme
  pending : scheme = .snapshot → fb.workPending = false
  count : ∀ id, census id fb + countId id out = if id < epdcMaxNumUpdates then 1 else 0

/-- **The invariant**, with what the work function relies on while it does not hold the lock. -/
structure Safe (scheme : UpdateScheme) (out : List UpdateBuf) (work : WorkPhase) (fb : FbData) : Prop
    extends Counted scheme out fb where
  idle : scheme = .snapshot → work = .idle
  ready : ReadyToSubmit fb work
  lut : fb.waitingForLut = true → fb.updateResFree = 0 ∧ ∃ buf, work = .waitLut buf

variable {scheme : UpdateScheme} {out : List UpdateBuf} {work : WorkPhase} {fb : FbData}

section

variable (counted : Counted scheme out fb)

include counted

theorem Counted.out_eq {out' : List UpdateBuf} (same : ∀ id, countId id out' = countId id out) :
    Counted scheme out' fb :=
  { counted with count := fun id => (congrArg (_ + ·) (same id)).trans (counted.count id) }

theorem Counted.safe (idle : scheme = .snapshot → work = .idle) (free : fb.curUpdate = none)
    (lut : fb.waitingForLut = true → fb.updateResFree = 0 ∧ ∃ buf, work = .waitLut buf) :
    Safe scheme out work fb := by
  refine ⟨counted, idle, ?_, lut⟩
  cases work with
  | idle | process buf => trivial
  | waitWb buf => exact fun _ => free
  | waitLut buf | waitLut15 buf | waitEof buf => exact free

theorem Counted.safe_idle (quiet : fb.waitingForLut = false) : Safe scheme out .idle fb :=
  ⟨counted, fun _ => rfl, trivial, by simp [quiet]⟩

end

section Parts

variable (safe : Safe scheme out work fb)

include safe

theorem Safe.quiet (other : ∀ buf, work ≠ .waitLut buf) : fb.waitingForLut = false := by
  by_contra waiting
  obtain ⟨-, buf, phase⟩ := safe.lut (by simpa using waiting)
  exact other buf phase

/-- The PxP changes no list. -/
theorem Safe.process (buf : UpdateBuf) (result : PxpResult) :
    Safe scheme out work (epdcProcessUpdate fb buf result).1 := by
  have powered : Safe scheme out work (if !fb.powerOn || fb.poweringDown then epdcPowerup fb else fb) := by
    unfold epdcPowerup
    dsimp only
    split
    · split <;> exact { safe with }
    · exact safe
  cases result with
  | notSubmitted err => exact safe
  | notCompleted err | processed waveform => exact powered

theorem Safe.newUpdate (updData : UpdateData) (markerAlloc : Bool) :
    Safe scheme out work (newUpdate fb updData markerAlloc).1 := by
  unfold Epdc.newUpdate
  split
  · exact { safe with }
  · split <;> exact { safe with }

theorem Safe.checkIdle (lutsActive : Bool) : Safe scheme out work (checkIdle fb lutsActive) := by
  unfold Epdc.checkIdle
  simp only
  split
  · split <;> split <;> exact { safe with }
  · exact safe

end Parts

/-! ### The loops of the work function -/

/-- The scan of the collisions moves buffers only. -/
theorem collisionScan_count (id : Nat) (updScheme : UpdateScheme) (list : List UpdateBuf)
    (selected : Option UpdateBuf) : let scan := collisionScan updScheme selected list
    countId id scan.1.toList + countId id scan.2.1 + countId id scan.2.2 =
      countId id selected.toList + countId id list := by
  induction list generalizing selected with
  | nil => simp [collisionScan]
  | cons nextUpdate rest ih =>
    unfold collisionScan
    split
    · have step := ih selected
      generalize collisionScan updScheme selected rest = scan at step ⊢
      obtain ⟨found, list, freed⟩ := scan
      simp only [countId_cons] at step ⊢
      omega
    cases selected with
    | none =>
      simp only
      split
      · simp only [toList_some, toList_none, countId_cons, countId_nil, mapData_id]
        omega
      · rw [ih]
        simp only [toList_some, toList_none, countId_cons, countId_nil, mapData_id]
        omega
    | some buf =>
      simp only
      split
      next desc next _ _ =>
        obtain ⟨outcome, kept⟩ := epdcSubmitMerge desc next
        have step := ih (some { buf with updateDesc := some kept })
        cases outcome with
        | ok | fail =>
          dsimp only
          generalize collisionScan updScheme (some { buf with updateDesc := some kept }) rest =
            scan at step ⊢
          obtain ⟨found, list, freed⟩ := scan
          simp only [toList_some, countId_cons, countId_nil, mapData_id] at step ⊢
          omega
        | block => simp only [toList_some, countId_cons, countId_nil, mapData_id, add_zero]
      · simp only [toList_some, countId_cons, countId_nil, mapData_id, add_zero]

/-- The scan of the pending updates moves buffers only. -/
theorem pendingScan_count (id : Nat) (updScheme : UpdateScheme) (list : List UpdateDesc)
    (selected : Option UpdateBuf) (free : List UpdateBuf) :
    let scan := pendingScan updScheme selected free list
    countId id scan.1.toList + countId id scan.2.2 = countId id selected.toList + countId id free := by
  induction list generalizing selected free with
  | nil => simp [pendingScan]
  | cons nextDesc rest ih =>
    unfold pendingScan
    cases selected with
    | none =>
      cases free with
      | nil => rfl
      | cons updDataList free =>
        simp only
        split
        · simp only [toList_some, toList_none, countId_cons, countId_nil]
          omega
        · rw [ih]
          simp only [toList_some, toList_none, countId_cons, countId_nil]
          omega
    | some buf =>
      simp only
      split
      next desc _ =>
        obtain ⟨outcome, kept⟩ := epdcSubmitMerge desc nextDesc
        cases outcome with
        | ok | fail => exact ih (some { buf with updateDesc := some kept }) free
        | block => rfl
      · rfl

/-- The work function takes its buffer off a list. -/
theorem workSelect_counted (counted : Counted scheme out fb) :
    Counted scheme ((workSelect fb).2.toList ++ out) (workSelect fb).1 ∧
      (workSelect fb).1.waitingForLut = fb.waitingForLut := by
  have collision := fun id => collisionScan_count id fb.updScheme fb.updBufCollisionList none
  unfold workSelect
  generalize collisionScan fb.updScheme none fb.updBufCollisionList = scan at collision ⊢
  obtain ⟨found, list, freed⟩ := scan
  simp only [toList_none, countId_nil] at collision ⊢
  split
  · refine ⟨{ counted with count := fun id => ?_ }, rfl⟩
    have := collision id
    have := counted.count id
    simp only [census, countId_append] at this ⊢
    omega
  split
  next nothing =>
    have absent : found = none := by
      simp only [Bool.and_eq_true, isNone_iff_eq_none] at nothing
      exact nothing.1
    subst absent
    refine ⟨{ counted with count := fun id => ?_ }, rfl⟩
    have first := collision id
    have := counted.count id
    simp only [census, countId_append, toList_none, countId_nil] at first this ⊢
    omega
  · have pending := fun id =>
      pendingScan_count id fb.updScheme fb.updPendingList found (fb.updBufFreeList ++ freed)
    generalize pendingScan fb.updScheme found (fb.updBufFreeList ++ freed) fb.updPendingList = scan
      at pending ⊢
    obtain ⟨selected, descs, free⟩ := scan
    refine ⟨{ counted with count := fun id => ?_ }, rfl⟩
    have first := collision id
    have second := pending id
    have := counted.count id
    simp only [census, countId_append] at second this ⊢
    omega

/-! ### The work function -/

section Work

variable (buf : UpdateBuf) (luts : LutStatus)

/-- What a part of the work function leaves of its buffer. -/
def Works (scheme : UpdateScheme) (out : List UpdateBuf) (result : FbData × WorkPhase) : Prop :=
  Safe scheme (result.2.bufs ++ out) result.2 result.1

section

variable (counted : Counted scheme (buf :: out) fb) (queues : scheme ≠ .snapshot)
  (free : fb.curUpdate = none) (quiet : fb.waitingForLut = false)

include counted free quiet

theorem workSubmit_works : Works scheme out (workSubmit fb buf) := by
  refine Counted.safe_idle { counted with count := fun id => ?_ } quiet
  have before := counted.count id
  have moved := submitUpdate_census id { fb with lutsCompleteWb := 0 } buf free
  show census id (submitUpdate { fb with lutsCompleteWb := 0 } buf) + countId id out = _
  rw [moved, ← before, countId_cons]
  exact (Nat.add_right_comm ..).trans (Nat.add_assoc ..)

include queues

theorem workChooseLut_works : Works scheme out (workChooseLut luts fb buf) := by
  unfold workChooseLut
  generalize epdcChooseNextLut luts.statusLuts = choice
  obtain ⟨nextLut, lut15⟩ := choice
  simp only
  split
  · exact ⟨{ counted with }, (absurd · queues), free, by simp [quiet]⟩
  · split
    · exact ⟨{ counted with }, (absurd · queues), free, by simp [quiet]⟩
    · exact workSubmit_works { buf with lutNum := nextLut } { counted with } free quiet

theorem workCheckLut_works : Works scheme out (workCheckLut luts fb buf) := by
  unfold workCheckLut
  split
  · exact ⟨{ counted with }, (absurd · queues), free, fun _ => ⟨rfl, buf, rfl⟩⟩
  · exact workChooseLut_works buf luts counted queues free quiet

end

/-- The work function gives the buffer back when the PxP fails. -/
theorem workProcess_works (result : PxpResult) (safe : Safe scheme (buf :: out) (.process buf) fb) :
    Works scheme out (workProcess fb buf result luts) := by
  have processed := safe.process buf result
  have queues : scheme ≠ .snapshot := fun snapshot => nomatch safe.idle snapshot
  unfold workProcess
  rcases run : epdcProcessUpdate fb buf result with ⟨new, outcome⟩
  rw [run] at processed
  have quiet : new.waitingForLut = false := processed.quiet nofun
  cases outcome with
  | error err =>
    refine Counted.safe_idle { processed.toCounted with count := fun id => ?_ } quiet
    have := processed.count id
    simp only [census, WorkPhase.bufs, countId_append, countId_cons, countId_nil] at this ⊢
    omega
  | ok done =>
    have counted : Counted scheme (done :: out) new := processed.toCounted.out_eq fun id => by
      simp only [countId_cons, process_id run]
    simp only
    split
    · exact ⟨{ counted with }, (absurd · queues),
        fun some => absurd some (lt_irrefl 0), by simp [quiet]⟩
    next idle => exact workCheckLut_works done luts counted queues (by simpa using idle) quiet

theorem workResume_works {result : FbData × WorkPhase} (safe : Safe scheme (work.bufs ++ out) work fb)
    (resumes : workResume fb luts work = some result) : Works scheme out result := by
  have quiet (signalled : fb.updateResFree ≠ 0) : fb.waitingForLut = false := by
    by_contra waiting
    exact signalled (safe.lut (by simpa using waiting)).1
  have queues (busy : work ≠ .idle) : scheme ≠ .snapshot := fun snapshot => busy (safe.idle snapshot)
  cases work with
  | idle | process buf => cases resumes
  | waitWb buf =>
    simp only [workResume] at resumes
    split at resumes
    · cases resumes
    next signalled =>
      cases resumes
      exact workCheckLut_works buf luts { safe.toCounted with } (queues nofun)
        (safe.ready (pos_of_ne_zero signalled)) (quiet signalled)
  | waitLut buf =>
    simp only [workResume] at resumes
    split at resumes
    · cases resumes
    next signalled =>
      cases resumes
      exact workChooseLut_works buf luts { safe.toCounted with } (queues nofun) safe.ready
        (quiet signalled)
  | waitLut15 buf =>
    simp only [workResume] at resumes
    split at resumes
    · cases resumes
    cases resumes
    exact workSubmit_works _ { safe.toCounted with } safe.ready (safe.quiet nofun)
  | waitEof buf =>
    cases resumes
    exact workSubmit_works buf safe.toCounted safe.ready (safe.quiet nofun)

end Work

/-! ### The interrupt handler -/

/-- A LUT that is done frees no buffer. -/
theorem lutComplete_safe (irqStat : UInt32) {state : FbData × Bool} (lut : Nat)
    (safe : Safe scheme out work state.1) : Safe scheme out work (lutComplete irqStat state lut).1 := by
  have freed : Safe scheme out work (freeLut lut state.1) := by
    refine { safe with count := fun id => ?_ }
    have same := countId_map id (fun update =>
      { update with collisionMask := update.collisionMask &&& ~~~ lutBit lut }) (fun _ => rfl)
      state.1.updBufCollisionList
    simp only [← safe.count id, census, freeLut, same]
  -- only a work function that waits for a LUT is signalled
  have signalled : Safe scheme out work (signalLut (freeLut lut state.1)) := by
    unfold signalLut
    split
    next waiting =>
      obtain ⟨-, buf, rfl⟩ := freed.lut waiting
      exact { freed with lut := nofun }
    · exact freed
  have signalled15 : Safe scheme out work (signalLut15 lut (signalLut (freeLut lut state.1))) := by
    unfold signalLut15
    split
    · exact { signalled with }
    · exact signalled
  unfold lutComplete
  split
  · exact safe
  simp only
  split
  · exact signalled15
  · exact { signalled15 with }

theorem addCollision_id (status : IrqStatus) (fb : FbData) (update : UpdateBuf) :
    (addCollision status fb update).id = update.id := by
  unfold addCollision
  split <;> rfl

variable {update : UpdateBuf} (status : IrqStatus)

theorem releaseUpdate_counted (wbLutDone : Bool) (counted : Counted scheme out fb)
    (current : ∀ id, countId id fb.curUpdate.toList = countId id [update]) :
    let released := releaseUpdate status wbLutDone update fb
    Counted scheme out released ∧ released.curUpdate = none ∧
      released.waitingForLut = fb.waitingForLut ∧ released.updateResFree = fb.updateResFree := by
  have count := fun id => counted.count id
  simp only [census, current] at count
  unfold releaseUpdate
  split
  · refine ⟨{ counted with count := fun id => ?_ }, rfl, rfl, rfl⟩
    have := count id
    simp only [census, countId_append, toList_none, countId_nil] at this ⊢
    omega
  · split
    all_goals
      refine ⟨{ counted with count := fun id => ?_ }, rfl, rfl, rfl⟩
      have := count id
      simp only [census, signalMarkers, countId_append, toList_none, countId_nil] at this ⊢
      omega

/-- The current update goes to the free or the collision list. -/
theorem wbComplete_safe (wbLutDone : Bool) (safe : Safe scheme out work fb) :
    Safe scheme out work (wbComplete status wbLutDone fb) ∧
      (wbComplete status wbLutDone fb).curUpdate = none := by
  unfold wbComplete
  cases current : fb.curUpdate with
  | none => exact ⟨safe, current⟩
  | some update =>
    have counted : Counted scheme out (signalWb fb) ∧ (signalWb fb).curUpdate = fb.curUpdate ∧
        ((signalWb fb).waitingForLut = true →
          (signalWb fb).updateResFree = 0 ∧ ∃ buf, work = .waitLut buf) := by
      unfold signalWb
      split
      · exact ⟨{ safe.toCounted with }, rfl, nofun⟩
      · exact ⟨safe.toCounted, rfl, safe.lut⟩
    obtain ⟨counted, cur, lut⟩ := counted
    obtain ⟨released, free, same, res⟩ :=
      @releaseUpdate_counted _ _ _ (addCollision status fb update) status wbLutDone counted fun id => by
        rw [cur, current]
        simp [addCollision_id]
    refine ⟨released.safe safe.idle free fun waiting => ?_, free⟩
    rw [res]
    exact lut (same.symm.trans waiting)

/-- The update that is resubmitted leaves the collision list. -/
theorem takeCleared_count {list others : List UpdateBuf}
    (taken : takeCleared list = some (update, others)) (id : Nat) :
    countId id others + one id update.id = countId id list := by
  induction list generalizing others with
  | nil => cases taken
  | cons first rest ih =>
    unfold takeCleared at taken
    split at taken
    · obtain ⟨⟨found, left⟩, later, same⟩ := map_eq_some_iff.mp taken
      cases same
      have := ih later
      simp only [countId_cons]
      omega
    · cases taken
      simp only [countId_cons]

theorem irqSubmit_safe (safe : Safe scheme out work fb) (snapshot : scheme = .snapshot)
    (free : fb.curUpdate = none) : Safe scheme out work (irqSubmit status fb) := by
  obtain rfl := safe.idle snapshot
  have quiet : fb.waitingForLut = false := safe.quiet nofun
  unfold irqSubmit
  simp only
  split
  · exact safe
  split
  · exact safe
  cases taken : takeCleared fb.updBufCollisionList with
  | some found =>
    refine Counted.safe_idle { safe.toCounted with count := fun id => ?_ } quiet
    have := takeCleared_count taken id
    have := safe.count id
    rw [submitUpdate_census]
    · simp only [census] at this ⊢
      omega
    · exact free
  | none =>
    cases queued : fb.updBufQueue with
    | nil => exact safe
    | cons update queue =>
      refine Counted.safe_idle { safe.toCounted with count := fun id => ?_ } quiet
      have := safe.count id
      rw [submitUpdate_census]
      · simp only [census, queued, countId_cons] at this ⊢
        omega
      · exact free

/-- **The interrupt handler moves buffers only**, and clears the current update before it signals. -/
theorem irqHandler_safe (safe : Safe scheme out work fb) :
    Safe scheme out work (irqHandler status fb) := by
  unfold irqHandler
  split
  · exact { safe with }
  split
  · exact safe
  have loop : Safe scheme out work
      ((range epdcNumLuts).foldl (lutComplete status.irqStat) (fb, false)).1 :=
    foldlRecOn (motive := fun state : FbData × Bool => Safe scheme out work state.1) _ _ safe
      fun _ safe lut _ => lutComplete_safe status.irqStat lut safe
  generalize (range epdcNumLuts).foldl (lutComplete status.irqStat) (fb, false) = state
    at loop ⊢
  obtain ⟨freed, wbLutDone⟩ := state
  have idle := loop.checkIdle status.lutsActive
  simp only
  split
  · exact idle
  obtain ⟨done, free⟩ := wbComplete_safe status wbLutDone idle
  split
  next queues =>
    split
    · exact done
    · exact { done with pending := fun snapshot => absurd (done.scheme_eq.trans snapshot) queues }
  next snapshot => exact irqSubmit_safe status done (done.scheme_eq.symm.trans (not_not.mp snapshot)) free

/-! ### Calls that send an update -/

/-- The buffer a call holds. -/
def SendCall.bufs : SendCall → List UpdateBuf
  | .flush _ => []
  | .flushing _ => []
  | .take _ => []
  | .process buf => [buf]

/-- The buffers that are with calls. -/
def sendBufs (sends : List SendCall) : List UpdateBuf := sends.flatMap SendCall.bufs

theorem sendBufs_append (sends calls : List SendCall) :
    sendBufs (sends ++ calls) = sendBufs sends ++ sendBufs calls := flatMap_append

variable {sends : List SendCall} {index : Nat} {call : SendCall}

theorem sendBufs_eraseIdx (found : sends[index]? = some call) (id : Nat) :
    countId id (sendBufs (sends.eraseIdx index)) + countId id call.bufs =
      countId id (sendBufs sends) := by
  induction sends generalizing index with
  | nil => cases found
  | cons first rest ih =>
    cases index with
    | zero =>
      cases found
      simp only [eraseIdx_cons_zero, sendBufs, flatMap_cons, countId_append]
      omega
    | succ index =>
      have := ih (by simpa using found)
      simp only [eraseIdx_cons_succ, sendBufs, flatMap_cons, countId_append] at this ⊢
      omega

theorem sendBufs_set (found : sends[index]? = some call) (next : SendCall)
    (same : next.bufs = call.bufs) :
    sendBufs (sends.set index next) = sendBufs sends := by
  induction sends generalizing index with
  | nil => cases found
  | cons first rest ih =>
    cases index with
    | zero =>
      cases found
      simp only [set_cons_zero, sendBufs, flatMap_cons, same]
    | succ index =>
      have := ih (by simpa using found)
      simp only [set_cons_succ, sendBufs, flatMap_cons] at this ⊢
      rw [this]

/-- What a call does with a buffer when its marker can be allocated. -/
structure Sends (scheme : UpdateScheme) (out : List UpdateBuf) (work : WorkPhase)
    (result : FbData × SendOutcome) : Prop where
  safe : Safe scheme (sendBufs result.2.calls ++ out) work result.1
  queued : scheme ≠ .snapshot → sendBufs result.2.calls = []

theorem newUpdate_marked {new : FbData} {updData : UpdateData} {markerAlloc marked : Bool}
    {desc : UpdateDesc} (run : newUpdate fb updData markerAlloc = (new, desc, marked))
    (allocated : updData.updateMarker ≠ 0 → markerAlloc = true) : marked = true := by
  unfold newUpdate at run
  split at run
  · exact (Prod.mk.inj (Prod.mk.inj run).2).2.symm
  next marker =>
    rw [if_neg (by simp [allocated marker])] at run
    exact (Prod.mk.inj (Prod.mk.inj run).2).2.symm

section Calls

variable (safe : Safe scheme out work fb) (updData : UpdateData) (descAlloc markerAlloc : Bool)

include safe updData descAlloc markerAlloc

theorem queueUpdate_sends (queues : scheme ≠ .snapshot) :
    Sends scheme out work (queueUpdate fb updData descAlloc markerAlloc) := by
  have new := safe.newUpdate updData markerAlloc
  unfold queueUpdate
  split
  · exact ⟨safe, fun _ => rfl⟩
  simp only
  split
  · exact ⟨{ new with }, fun _ => rfl⟩
  · exact ⟨{ new with pending := (absurd · queues) }, fun _ => rfl⟩

theorem snapshotUpdate_sends (snapshot : scheme = .snapshot)
    (allocated : descAlloc = true → updData.updateMarker ≠ 0 → markerAlloc = true) :
    Sends scheme out work (snapshotUpdate fb updData descAlloc markerAlloc) := by
  unfold snapshotUpdate
  split
  · exact ⟨safe, fun _ => rfl⟩
  next updDataList free list =>
    have count := fun id => safe.count id
    simp only [census, list, countId_cons] at count
    split
    · refine ⟨{ safe with count := fun id => ?_ }, fun _ => rfl⟩
      rw [← count id]
      simp only [census, countId_cons]
      rfl
    next desc =>
      have less : Safe scheme (updDataList :: out) work { fb with updBufFreeList := free } := by
        refine { safe with count := fun id => ?_ }
        have := count id
        simp only [census, countId_cons]
        omega
      have new := less.newUpdate updData markerAlloc
      rcases run : newUpdate { fb with updBufFreeList := free } updData markerAlloc with
        ⟨fb, updDesc, marked⟩
      rw [run] at new
      obtain rfl : marked = true := newUpdate_marked run (allocated (by simpa using desc))
      exact ⟨{ new with }, fun queues => absurd snapshot queues⟩

variable
  (allocated : scheme = .snapshot → descAlloc = true → updData.updateMarker ≠ 0 → markerAlloc = true)

include allocated

theorem takeBuffer_sends : Sends scheme out work (takeBuffer fb updData descAlloc markerAlloc) := by
  unfold takeBuffer
  split
  next snapshot =>
    have snapshot := safe.scheme_eq.symm.trans snapshot
    exact snapshotUpdate_sends safe updData descAlloc markerAlloc snapshot (allocated snapshot)
  next queues =>
    exact queueUpdate_sends safe updData descAlloc markerAlloc fun snapshot =>
      queues (safe.scheme_eq.trans snapshot)

/-- A call queues its buffer, or holds it. -/
theorem sendUpdate_sends : Sends scheme out work (sendUpdate fb updData descAlloc markerAlloc) := by
  unfold sendUpdate
  split
  · exact ⟨safe, fun _ => rfl⟩
  split
  · exact ⟨{ safe with }, fun _ => rfl⟩
  split
  · exact ⟨safe, fun _ => rfl⟩
  split
  · exact ⟨safe, fun _ => rfl⟩
  · exact takeBuffer_sends safe updData descAlloc markerAlloc allocated

end Calls

/-- In the snapshot scheme the call submits its buffer itself. -/
theorem sendProcess_safe (safe : Safe scheme (buf :: out) work fb) (snapshot : scheme = .snapshot)
    (waveform : UInt32) (luts : LutStatus) :
    Safe scheme out work (sendProcess fb buf (.processed waveform) luts).1 := by
  have processed := safe.process buf (.processed waveform)
  unfold sendProcess
  rcases run : epdcProcessUpdate fb buf (.processed waveform) with ⟨new, result⟩
  rw [run] at processed
  obtain rfl := safe.idle snapshot
  have quiet : new.waitingForLut = false := processed.quiet nofun
  cases result with
  | error err => simp [epdcProcessUpdate] at run
  | ok done =>
    have named := process_id run
    have queue : ∀ last : UpdateBuf, last.id = buf.id →
        Safe scheme out .idle { new with updBufQueue := new.updBufQueue ++ [last] } := by
      refine fun last lastId => Counted.safe_idle { processed.toCounted with count := fun id => ?_ } quiet
      have := processed.count id
      simp only [census, countId_append, countId_cons, countId_nil, lastId] at this ⊢
      omega
    simp only
    split
    · exact queue done named
    next idle =>
      simp only [Bool.or_eq_true, not_or, Bool.not_eq_true, isSome_eq_false_iff,
        isNone_iff_eq_none] at idle
      generalize epdcChooseNextLut luts.statusLuts = choice
      obtain ⟨nextLut, lut15⟩ := choice
      split
      · exact queue { done with lutNum := nextLut } named
      · exact workSubmit_works { done with lutNum := nextLut } (processed.toCounted.out_eq fun id => by
          simp only [countId_cons, named]) idle.1 quiet

/-! ### Runs -/

/-- **The invariant of the system**: the buffers that are out are with the calls and the work function. -/
structure Conserved (scheme : UpdateScheme) (system : EpdcSystem) : Prop where
  safe : Safe scheme (sendBufs system.sends ++ system.work.bufs) system.work system.fb
  queued : scheme ≠ .snapshot → sendBufs system.sends = []

/-- The call does not come to one of the two error paths that keep the buffer. -/
def GivesBack (system : EpdcSystem) : EpdcLabel → Prop
  | .send updData descAlloc markerAlloc => system.fb.updScheme = .snapshot → descAlloc = true →
      updData.updateMarker ≠ 0 → markerAlloc = true
  | .take call descAlloc markerAlloc => ∀ updData, system.sends[call]? = some (.take updData) →
      system.fb.updScheme = .snapshot → descAlloc = true → updData.updateMarker ≠ 0 →
        markerAlloc = true
  | .process _ result _ => ∃ waveform, result = .processed waveform
  | _ => True

section Step

variable {system : EpdcSystem}

theorem Safe.conserved (safe : Safe scheme out work fb)
    (bufs : ∀ id, countId id (sendBufs sends) + countId id work.bufs = countId id out)
    (queued : scheme ≠ .snapshot → sendBufs sends = []) : Conserved scheme ⟨fb, sends, work⟩ := by
  refine ⟨{ safe with toCounted := safe.toCounted.out_eq fun id => ?_ }, queued⟩
  exact (countId_append ..).trans (bufs id)

variable (conserved : Conserved scheme system)

include conserved

theorem Conserved.send {result : FbData × SendOutcome}
    (sent : Sends scheme (sendBufs system.sends ++ system.work.bufs) system.work result)
    (bufs : ∀ id, countId id (sendBufs sends) = countId id (sendBufs system.sends))
    (less : ∀ call ∈ sends, call ∈ system.sends) :
    Conserved scheme { system with fb := result.1, sends := sends ++ result.2.calls } := by
  refine sent.safe.conserved (fun id => ?_) fun queues => ?_
  · simp only [sendBufs_append, countId_append, bufs]
    omega
  · have none := flatMap_eq_nil_iff.mp (conserved.queued queues)
    rw [sendBufs_append, sent.queued queues, append_nil]
    exact flatMap_eq_nil_iff.mpr fun call member => none call (less call member)

theorem Conserved.works {result : FbData × WorkPhase} (works : Works scheme (sendBufs system.sends) result) :
    Conserved scheme { system with fb := result.1, work := result.2 } := by
  refine Safe.conserved works (fun id => ?_) conserved.queued
  rw [countId_append, Nat.add_comm]

theorem Conserved.owns :
    Safe scheme (system.work.bufs ++ sendBufs system.sends) system.work system.fb := by
  refine { conserved.safe with toCounted := conserved.safe.toCounted.out_eq fun id => ?_ }
  rw [countId_append, countId_append, Nat.add_comm]

theorem Conserved.process {call : Nat} (found : system.sends[call]? = some (.process buf))
    (waveform : UInt32) (luts : LutStatus) :
    Conserved scheme { system with
      fb := (sendProcess system.fb buf (.processed waveform) luts).1
      sends := system.sends.eraseIdx call } := by
  have bufs := sendBufs_eraseIdx found
  have snapshot : scheme = .snapshot := by
    by_contra queues
    have none := bufs buf.id
    rw [conserved.queued queues] at none
    simp [SendCall.bufs, one] at none
  have owns : Safe scheme (buf :: (sendBufs (system.sends.eraseIdx call) ++ system.work.bufs)) system.work
      system.fb := by
    refine { conserved.safe with toCounted := conserved.safe.toCounted.out_eq fun id => ?_ }
    have := bufs id
    simp only [SendCall.bufs, countId_cons, countId_append, countId_nil] at this ⊢
    omega
  exact (sendProcess_safe owns snapshot waveform luts).conserved (fun id => (countId_append ..).symm)
    fun queues => absurd snapshot queues

theorem Conserved.workStart (pending : system.fb.workPending = true) (idle : system.work = .idle) :
    Conserved scheme { system with
      fb := (workSelect { system.fb with workPending := false }).1
      work := ((workSelect { system.fb with workPending := false }).2.map
        WorkPhase.process).getD .idle } := by
  have owns := conserved.owns
  rw [idle] at owns
  have queues : scheme ≠ .snapshot := fun snapshot => by
    rw [owns.pending snapshot] at pending
    cases pending
  have started : Counted scheme (sendBufs system.sends) { system.fb with workPending := false } :=
    { owns.toCounted with pending := fun _ => rfl }
  obtain ⟨counted, lut⟩ := workSelect_counted started
  generalize workSelect { system.fb with workPending := false } = result at counted lut ⊢
  obtain ⟨fb, selected⟩ := result
  have quiet : fb.waitingForLut = false := lut.trans (owns.quiet nofun)
  refine @Conserved.works _ _ conserved (fb, (selected.map WorkPhase.process).getD .idle) ?_
  cases selected with
  | none => exact counted.safe_idle quiet
  | some buf => exact ⟨counted, (absurd · queues), trivial, by simp [quiet]⟩

end Step

/-- **Every step of the driver keeps the buffers.** -/
theorem epdcStep_conserved (system : EpdcSystem) (label : EpdcLabel) (next : EpdcSystem)
    (conserved : Conserved scheme system) (givesBack : GivesBack system label)
    (taken : epdcStep system label = some next) : Conserved scheme next := by
  have safe := conserved.safe
  have same := safe.scheme_eq
  cases label <;> simp only [epdcStep] at taken
  case send updData descAlloc markerAlloc =>
    cases taken
    exact conserved.send (sendUpdate_sends safe updData descAlloc markerAlloc (same ▸ givesBack))
      (fun _ => rfl) fun _ member => member
  case flush call =>
    split at taken
    next updData found =>
      cases taken
      have bufs := sendBufs_set found
        (if (flushUpdates system.fb).2 then .flushing updData else .take updData) (by split <;> rfl)
      refine ⟨?_, fun queues => bufs.trans (conserved.queued queues)⟩
      rw [bufs]
      unfold flushUpdates
      split <;> exact { safe with }
    · cases taken
  case flushed call =>
    split at taken
    next updData found =>
      cases taken
      have bufs := sendBufs_set found (.take updData) rfl
      refine ⟨?_, fun queues => bufs.trans (conserved.queued queues)⟩
      rw [bufs]
      exact { safe with }
    · cases taken
  case take call descAlloc markerAlloc =>
    split at taken
    next updData found =>
      cases taken
      exact conserved.send (takeBuffer_sends safe updData descAlloc markerAlloc
        (same ▸ givesBack updData found)) (sendBufs_eraseIdx found) fun _ => mem_of_mem_eraseIdx
    · cases taken
  case process call result luts =>
    split at taken
    next buf found =>
      cases taken
      obtain ⟨waveform, rfl⟩ := givesBack
      exact conserved.process found waveform luts
    · cases taken
  case workStart =>
    split at taken
    next enabled =>
      cases taken
      exact conserved.workStart enabled.1 enabled.2
    · cases taken
  case workProcess result luts =>
    split at taken
    next buf phase =>
      cases taken
      have owns := conserved.owns
      rw [phase] at owns
      exact conserved.works (workProcess_works buf luts result owns)
    · cases taken
  case workResume luts =>
    obtain ⟨result, resumes, rfl⟩ := map_eq_some_iff.mp taken
    exact conserved.works (workResume_works luts conserved.owns resumes)
  case irq status =>
    cases taken
    exact ⟨irqHandler_safe status safe, conserved.queued⟩
  case powerdown =>
    cases taken
    refine ⟨?_, conserved.queued⟩
    unfold epdcPowerdown
    split <;> exact { safe with }

/-- All buffers are on the free list and nobody works on an update. -/
structure AllFree (system : EpdcSystem) : Prop where
  free : (system.fb.updBufFreeList.map UpdateBuf.id).Perm (range epdcMaxNumUpdates)
  queue : system.fb.updBufQueue = []
  collision : system.fb.updBufCollisionList = []
  cur : system.fb.curUpdate = none
  sends : system.sends = []
  work : system.work = .idle
  pending : system.fb.updScheme = .snapshot → system.fb.workPending = false
  quiet : system.fb.waitingForLut = false

theorem AllFree.conserved {system : EpdcSystem} (allFree : AllFree system) :
    Conserved system.fb.updScheme system := by
  obtain ⟨fb, sends, work⟩ := system
  obtain ⟨free, queue, collision, cur, rfl, rfl, pending, quiet⟩ := allFree
  refine ⟨Counted.safe_idle ⟨rfl, pending, fun id => ?_⟩ quiet, fun _ => rfl⟩
  have free : countId id fb.updBufFreeList = (range epdcMaxNumUpdates).count id := free.count_eq id
  rw [census, queue, collision, cur, free, count_range]
  rfl

/-- All the places a buffer can be in. -/
def places (system : EpdcSystem) : List UpdateBuf :=
  system.fb.updBufFreeList ++ (system.fb.updBufQueue ++ (system.fb.updBufCollisionList ++
    (system.fb.curUpdate.toList ++ (sendBufs system.sends ++ system.work.bufs))))

/-- **Every buffer is in exactly one place**, in every run in which no call keeps its buffer; once
nothing is under way the free list is full again. -/
theorem epdc_buffers_conserved (start last : EpdcSystem) (labels : List EpdcLabel)
    (allFree : AllFree start) (givesBack : Along epdcStep GivesBack start labels)
    (run : exec epdcStep start labels = some last) :
    ((places last).map UpdateBuf.id).Perm (range epdcMaxNumUpdates) ∧
      (last.sends = [] → last.work = .idle → last.fb.updBufQueue = [] →
        last.fb.updBufCollisionList = [] → last.fb.curUpdate = none →
          isFreeListFull last.fb = true) := by
  have conserved : Conserved start.fb.updScheme last :=
    exec_invariant_along _ epdcStep_conserved allFree.conserved givesBack run
  have perm : ((places last).map UpdateBuf.id).Perm (range epdcMaxNumUpdates) := by
    refine perm_iff_count.mpr fun id => ?_
    rw [count_range, ← conserved.safe.count id]
    show countId id (places last) = _
    simp only [places, census, countId_append]
    omega
  refine ⟨perm, fun sends work queue collision cur => ?_⟩
  have all : places last = last.fb.updBufFreeList := by
    simp [places, sends, work, queue, collision, cur, sendBufs, WorkPhase.bufs]
  rw [all] at perm
  have length := perm.length_eq
  rw [length_map, length_range] at length
  exact decide_eq_true length

/-! ### The two error paths -/

/-- The driver after its initialisation. -/
def freshDriver (updScheme : UpdateScheme) : EpdcSystem where
  fb :=
    { updScheme := updScheme, hwReady := true, inInit := false, blanked := false
      xres := 800, yres := 600, smemStart := 0, mapSize := 960000, tcePrevent := false
      pwrdownDisabled := false, powerOn := false, poweringDown := false, updatesActive := false
      orderCnt := 0, lutUpdateOrder := fun _ => 0, lutsCompleteWb := 0
      updBufFreeList := (range epdcMaxNumUpdates).map fun id => ⟨id, none, 0, 0⟩
      updBufQueue := [], updBufCollisionList := [], curUpdate := none, updPendingList := []
      fullMarkerList := [], nextMarker := 0, signalled := [], waitingForIdle := false
      waitingForWb := false, waitingForLut := false, waitingForLut15 := false
      updatesDone := 0, updateResFree := 0, lut15Free := 0, workPending := false }
  sends := []
  work := .idle

/-- A partial update of the whole screen, with a marker. -/
def wholeScreen : UpdateData where
  updateRegion := ⟨0, 0, 800, 600⟩
  waveformMode := 2
  updateMode := updateModePartial
  updateMarker := 1
  flags := 0
  altBufferData := ⟨0, 0, 0, ⟨0, 0, 0, 0⟩⟩

def allLutsFree : LutStatus := ⟨true, 0⟩

theorem freshDriver_allFree (updScheme : UpdateScheme) : AllFree (freshDriver updScheme) := by
  refine ⟨?_, rfl, rfl, rfl, rfl, rfl, fun _ => rfl, rfl⟩
  have same : ((freshDriver updScheme).fb.updBufFreeList.map UpdateBuf.id) =
      range epdcMaxNumUpdates := by
    simp [freshDriver, Function.comp_def]
  rw [same]

def oneUpdate : List EpdcLabel :=
  [.send wholeScreen true true, .process 0 (.processed 2) allLutsFree]

theorem epdc_buffers_conserved_one_update : ∃ last,
    exec epdcStep (freshDriver .snapshot) oneUpdate = some last ∧
      ((places last).map UpdateBuf.id).Perm (range epdcMaxNumUpdates) := by
  have enabled : (exec epdcStep (freshDriver .snapshot) oneUpdate).isSome = true := by
    decide +kernel
  obtain ⟨last, run⟩ := isSome_iff_exists.mp enabled
  have givesBack : Along epdcStep GivesBack (freshDriver .snapshot) oneUpdate :=
    ⟨fun _ _ _ => rfl, fun _ _ => ⟨⟨2, rfl⟩, fun _ _ => trivial⟩⟩
  exact ⟨last, run, (epdc_buffers_conserved _ last oneUpdate (freshDriver_allFree .snapshot)
    givesBack run).1⟩

/-- The run of the snapshot scheme ends with nothing under way, and the free list is not full. -/
def Leaks (labels : List EpdcLabel) : Prop :=
  ∃ last, exec epdcStep (freshDriver .snapshot) labels = some last ∧ last.sends = [] ∧
    last.work = .idle ∧ last.fb.updBufQueue = [] ∧ last.fb.updBufCollisionList = [] ∧
    last.fb.curUpdate = none ∧ isFreeListFull last.fb = false

theorem leaks_of_eval {labels : List EpdcLabel}
    (ends : (exec epdcStep (freshDriver .snapshot) labels).map
      (fun last => last.sends.isEmpty && last.work = .idle && last.fb.updBufQueue.isEmpty &&
        last.fb.updBufCollisionList.isEmpty && last.fb.curUpdate.isNone &&
        !isFreeListFull last.fb) = some true) : Leaks labels := by
  obtain ⟨last, run, facts⟩ := map_eq_some_iff.mp ends
  simp only [Bool.and_eq_true, List.isEmpty_iff, decide_eq_true_eq, isNone_iff_eq_none,
    Bool.not_eq_true'] at facts
  obtain ⟨⟨⟨⟨⟨sends, work⟩, queue⟩, collision⟩, cur⟩, notFull⟩ := facts
  exact ⟨last, run, sends, work, queue, collision, cur, notFull⟩

/-- **A buffer is lost when the PxP fails.** -/
theorem pxp_failure_leaks :
    Leaks [.send wholeScreen true true, .process 0 (.notCompleted .etimedout) allLutsFree] :=
  leaks_of_eval (by decide +kernel)

/-- **A buffer is lost when there is no memory for the marker.** -/
theorem marker_failure_leaks : Leaks [.send wholeScreen true false] :=
  leaks_of_eval (by decide +kernel)

end KernelImx.Epdc
