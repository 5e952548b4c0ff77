/-
**The unpinned list over runs of the driver.**

Runs of opens, sizes, mappings, pin requests, shrinks and releases over any number of areas.
`AshmemRun.requests` collects the accepted requests of every area.

Main result: `ashmem_range_list`.
-/

import KernelImx.Lib.Runs
import KernelImx.Ashmem.Pages

namespace KernelImx.Ashmem

open KernelImx.Lib Option List

/-! ### Runs -/

/-- The module and the accepted requests of every area, the latest first. -/
structure AshmemRun where
  ashmem : AshmemAreas
  requests : Nat → List (PinCmd × AshmemPin)

def AshmemRun.init : AshmemRun where
  ashmem := AshmemAreas.init
  requests := fun _ => []

/-- One call of the driver. -/
inductive AshmemOp
  | openArea (asma : Nat)
  | setSize (asma : Nat) (size : UInt32)
  | mmap (asma : Nat) (permitted setup : Bool)
  | pinUnpin (asma : Nat) (cmd : PinCmd) (arg : Option AshmemPin) (alloc : Bool)
  | shrink (nr : Int32) (fs : Bool)
  | purgeAllCaches (capable : Bool)
  | release (asma : Nat)

def record (cmd : PinCmd) (arg : Option AshmemPin) (ret : Except Errno PinRet)
    (requests : List (PinCmd × AshmemPin)) : List (PinCmd × AshmemPin) :=
  match arg, ret with
  | some pin, .ok _ => (cmd, pin) :: requests
  | _, _ => requests

def ashmemStep (run : AshmemRun) : AshmemOp → Option AshmemRun
  | .openArea asma =>
    match run.ashmem.areas asma with
    | some _ => none
    | none => some
        { ashmem := ashmemOpen run.ashmem asma
          requests := fun other => if other = asma then [] else run.requests other }
  | .setSize asma size =>
    (run.ashmem.areas asma).map fun area =>
      { run with ashmem := run.ashmem.setArea asma (some (setSize area size).1) }
  | .mmap asma permitted setup =>
    (run.ashmem.areas asma).map fun area =>
      { run with ashmem := run.ashmem.setArea asma (some (ashmemMmap area permitted setup).1) }
  | .pinUnpin asma cmd arg alloc =>
    (run.ashmem.areas asma).map fun area =>
      let (area, lru, ret) := ashmemPinUnpin asma area run.ashmem.lru alloc cmd arg
      { ashmem := { run.ashmem.setArea asma (some area) with lru := lru }
        requests := fun other =>
          if other = asma then record cmd arg ret (run.requests asma) else run.requests other }
  | .shrink nr fs => some { run with ashmem := (ashmemShrink run.ashmem nr.toInt fs).1 }
  | .purgeAllCaches capable => some { run with ashmem := (purgeAllCaches run.ashmem capable).1 }
  | .release asma =>
    (run.ashmem.areas asma).map fun area =>
      { run with ashmem := ashmemRelease run.ashmem asma area }

/-- The allocation of the call, if it makes one, succeeds. -/
def AllocSucceeds : AshmemOp → Prop
  | .pinUnpin _ _ _ alloc => alloc = true
  | _ => True

/-- The call does not unpin "everything onward" from the end of the area. -/
def UnpinsSomething (run : AshmemRun) : AshmemOp → Prop
  | .pinUnpin asma .unpin (some pin) _ =>
    ∀ area, run.ashmem.areas asma = some area → ¬ AsksNothing area.size pin
  | _ => True

/-! ### The invariant -/

/-- The page was unpinned by one of the requests and not pinned since. -/
def UnpinnedSince (size : UInt32) : List (PinCmd × AshmemPin) → Nat → Prop
  | [], _ => False
  | (.unpin, pin) :: earlier, page => Requested size pin page ∨ UnpinnedSince size earlier page
  | (.pin, pin) :: earlier, page => UnpinnedSince size earlier page ∧ ¬ Requested size pin page
  | (.getPinStatus, _) :: earlier, page => UnpinnedSince size earlier page

/-- **The invariant of an area.** -/
structure Tracks (area : AshmemArea) (requests : List (PinCmd × AshmemPin)) : Prop where
  ordered : Ordered area.unpinnedList
  inside : ∀ range ∈ area.unpinnedList, range.pgend < areaPages area.size
  pages : ∀ page, Unpinned area.unpinnedList page ↔ UnpinnedSince area.size requests page
  unmapped : area.file = false → area.unpinnedList = [] ∧ requests = []

theorem areaPages_lt (size : UInt32) : areaPages size + 1 < 2 ^ 32 := by
  have := pageAlign_lt size.toNat
  simp only [areaPages, pageSize]
  omega

variable {list : List AshmemRange} {pgend pgstart : Nat}

section Above

variable (above : ∀ range ∈ list, range.pgend < pgstart)

include above

theorem ashmemPin_above (alloc : Bool) (lru : AshmemLru) (ret : Bool) :
    ashmemPin alloc pgstart pgend list lru ret = (list, lru, ret) := by
  cases list with
  | nil => rfl
  | cons range rest =>
    rw [ashmemPin, if_pos (rangeBeforePage_iff.mpr (above range mem_cons_self))]

theorem ashmemGetPinStatus_above : ashmemGetPinStatus pgstart pgend list = .isPinned := by
  cases list with
  | nil => rfl
  | cons range rest =>
    rw [ashmemGetPinStatus, if_pos (rangeBeforePage_iff.mpr (above range mem_cons_self))]

end Above

theorem inside_of_pages (ordered : Ordered list) {bound : Nat}
    (pages : ∀ page, Unpinned list page → page < bound) : ∀ range ∈ list, range.pgend < bound :=
  fun range member => pages range.pgend ⟨range, member, ordered.nonempty range member, le_rfl⟩

variable {area : AshmemArea} {requests : List (PinCmd × AshmemPin)}

section Requests

variable {pin : AshmemPin}

theorem Tracks.below (tracks : Tracks area requests) {page : Nat}
    (covered : Unpinned area.unpinnedList page) : page < areaPages area.size := by
  obtain ⟨range, member, -, upper⟩ := covered
  exact lt_of_le_of_lt upper (tracks.inside range member)

theorem pin_tracks (tracks : Tracks area requests) (mapped : area.file = true)
    (accepted : pinPages area.size pin = .ok (pgstart, pgend)) (lru : AshmemLru) :
    Tracks { area with
        unpinnedList := (ashmemPin true pgstart pgend area.unpinnedList lru false).1 }
      ((.pin, pin) :: requests) := by
  rcases pinPages_spec accepted with ⟨-, interval, inside, asked⟩ | ⟨-, atEnd, asked⟩
  · have small : ∀ range ∈ area.unpinnedList, range.pgend < 2 ^ 32 := fun range member => by
      have := tracks.inside range member
      have := areaPages_lt area.size
      omega
    have pins := ashmemPin_spec (Nat.le_succ_of_le interval) small (.inl rfl) tracks.ordered.toDescends
      lru false
    have pages := pins.unpinned
    have ordered := pins.ordered tracks.ordered
    refine ⟨ordered, inside_of_pages ordered fun page covered => ?_, fun page => ?_, ?_⟩
    · exact tracks.below ((pages page).mp covered).1
    · rw [UnpinnedSince, ← tracks.pages, asked]
      exact pages page
    · simp [mapped]
  · have above : ∀ range ∈ area.unpinnedList, range.pgend < pgstart := atEnd ▸ tracks.inside
    rw [ashmemPin_above above]
    refine ⟨tracks.ordered, tracks.inside, fun page => ?_, by simp [mapped]⟩
    rw [UnpinnedSince, ← tracks.pages]
    exact (and_iff_left (asked page)).symm

theorem unpin_tracks (asma : Nat) (tracks : Tracks area requests) (mapped : area.file = true)
    (accepted : pinPages area.size pin = .ok (pgstart, pgend))
    (something : ¬ AsksNothing area.size pin) (lru : AshmemLru) :
    (ashmemUnpin asma true pgstart pgend area.unpinnedList lru).2.2 = .ok () ∧
      Tracks { area with
          unpinnedList := (ashmemUnpin asma true pgstart pgend area.unpinnedList lru).1 }
        ((.unpin, pin) :: requests) := by
  rcases pinPages_spec accepted with ⟨-, interval, inside, asked⟩ | ⟨nothing, -⟩
  · obtain ⟨⟨ordered, success, pages⟩, -⟩ := ashmemUnpin_spec asma interval tracks.ordered lru
    refine ⟨success, ordered, inside_of_pages ordered fun page covered => ?_, fun page => ?_, ?_⟩
    · rcases (pages page).mp covered with old | new
      · exact tracks.below old
      · exact lt_of_le_of_lt new.2 inside
    · rw [UnpinnedSince, ← tracks.pages, asked, or_comm]
      exact pages page
    · simp [mapped]
  · exact absurd nothing something

theorem getPinStatus_tracks (tracks : Tracks area requests)
    (accepted : pinPages area.size pin = .ok (pgstart, pgend)) :
    ashmemGetPinStatus pgstart pgend area.unpinnedList = .isUnpinned ↔
      ∃ page, Requested area.size pin page ∧ UnpinnedSince area.size requests page := by
  simp only [← tracks.pages]
  rcases pinPages_spec accepted with ⟨-, interval, -, asked⟩ | ⟨-, atEnd, asked⟩
  · rw [ashmemGetPinStatus_spec interval tracks.ordered]
    simp only [asked]
  have above : ∀ range ∈ area.unpinnedList, range.pgend < pgstart := atEnd ▸ tracks.inside
  rw [ashmemGetPinStatus_above above]
  refine iff_of_false (by simp) ?_
  rintro ⟨page, wanted, -⟩
  exact asked page wanted

theorem ashmemPinUnpin_tracks (asma : Nat) (tracks : Tracks area requests) (lru : AshmemLru) (cmd : PinCmd)
    (arg : Option AshmemPin)
    (something : cmd = .unpin → ∀ pin, arg = some pin → ¬ AsksNothing area.size pin) :
    Tracks (ashmemPinUnpin asma area lru true cmd arg).1
      (record cmd arg (ashmemPinUnpin asma area lru true cmd arg).2.2 requests) := by
  unfold ashmemPinUnpin
  split
  next mapped =>
    cases arg with
    | none => exact tracks
    | some pin =>
      cases checked : pinPages area.size pin with
      | error err => simpa only [checked, record] using tracks
      | ok interval =>
        simp only [checked]
        cases cmd with
        | pin => exact pin_tracks tracks mapped checked lru
        | unpin =>
          obtain ⟨success, unpinned⟩ :=
            unpin_tracks asma tracks mapped checked (something rfl pin rfl) lru
          simp only [success]
          exact unpinned
        | getPinStatus =>
          exact ⟨tracks.ordered, tracks.inside, tracks.pages, by simp [mapped]⟩
  next unmapped =>
    cases arg <;> exact tracks

end Requests

/-! ### The steps -/

section Everywhere

variable {holds : AshmemArea → List (PinCmd × AshmemPin) → Prop} {run : AshmemRun}

/-- A property of every open area and its requests. -/
def Everywhere (holds : AshmemArea → List (PinCmd × AshmemPin) → Prop) (run : AshmemRun) : Prop :=
  ∀ asma area, run.ashmem.areas asma = some area → holds area (run.requests asma)

/-- The calls on an area keep the property, the requests to pin and to unpin apart. -/
structure Steady (holds : AshmemArea → List (PinCmd × AshmemPin) → Prop) : Prop where
  new : holds ⟨[], false, 0⟩ []
  setSize : ∀ {area requests}, holds area requests → ∀ size, holds (setSize area size).1 requests
  mmap : ∀ {area requests}, holds area requests → ∀ permitted setup,
    holds (ashmemMmap area permitted setup).1 requests
  purge : ∀ {area requests}, holds area requests → ∀ id,
    holds { area with unpinnedList := area.unpinnedList.map (markPurged id) } requests

theorem Everywhere.setArea (everywhere : Everywhere holds run) (asma : Nat) (own : holds area requests)
    (lru : AshmemLru) :
    Everywhere holds
      { ashmem := { run.ashmem.setArea asma (some area) with lru := lru }
        requests := fun other => if other = asma then requests else run.requests other } := by
  intro other found opened
  simp only [AshmemAreas.setArea] at opened
  by_cases same : other = asma
  · simp only [if_pos same, some.injEq] at opened ⊢
    exact opened ▸ own
  · simp only [if_neg same] at opened ⊢
    exact everywhere other found opened

theorem Everywhere.setArea_same (everywhere : Everywhere holds run) {asma : Nat}
    (own : holds area (run.requests asma)) (lru : AshmemLru) :
    Everywhere holds { run with ashmem := { run.ashmem.setArea asma (some area) with lru := lru } } := by
  have replaced := everywhere.setArea asma own lru
  have same : (fun other => if other = asma then run.requests asma else run.requests other) =
      run.requests := by
    funext other
    split
    next found => rw [found]
    · rfl
  rwa [same] at replaced

variable (steady : Steady holds)

include steady

theorem purge_everywhere (everywhere : Everywhere holds run) (entry : Nat × Nat) (lru : AshmemLru) :
    Everywhere holds { run with ashmem := { run.ashmem.purge entry with lru := lru } } := by
  unfold AshmemAreas.purge
  cases found : run.ashmem.areas entry.1 with
  | none => exact everywhere
  | some area => exact everywhere.setArea_same (steady.purge (everywhere _ area found) entry.2) lru

theorem ashmemShrinkLoop_everywhere (entries : List (Nat × Nat)) (nr : Int)
    (everywhere : Everywhere holds run) :
    Everywhere holds { run with ashmem := ashmemShrinkLoop entries nr run.ashmem } := by
  induction entries generalizing nr run with
  | nil => exact everywhere
  | cons entry rest ih =>
    unfold ashmemShrinkLoop
    cases run.ashmem.range? entry with
    | none => exact everywhere
    | some range =>
      have purged := purge_everywhere steady everywhere entry (lruDel run.ashmem.lru range)
      simp only
      split
      · exact purged
      · exact ih _ purged

theorem ashmemShrink_everywhere (everywhere : Everywhere holds run) (nr : Int) (fs : Bool) :
    Everywhere holds { run with ashmem := (ashmemShrink run.ashmem nr fs).1 } := by
  unfold ashmemShrink
  split
  · exact everywhere
  · split
    · exact everywhere
    · exact ashmemShrinkLoop_everywhere steady _ nr everywhere

/-- **A step keeps what the calls on one area keep**; `asked` is for a request to pin or unpin. -/
theorem ashmemStep_everywhere {op : AshmemOp} {next : AshmemRun} (everywhere : Everywhere holds run)
    (asked : ∀ asma cmd arg alloc area, op = .pinUnpin asma cmd arg alloc →
      run.ashmem.areas asma = some area →
        holds (ashmemPinUnpin asma area run.ashmem.lru alloc cmd arg).1
          (record cmd arg (ashmemPinUnpin asma area run.ashmem.lru alloc cmd arg).2.2
            (run.requests asma)))
    (taken : ashmemStep run op = some next) : Everywhere holds next := by
  cases op with
  | openArea asma =>
    simp only [ashmemStep] at taken
    split at taken
    · cases taken
    · cases taken
      exact everywhere.setArea asma steady.new run.ashmem.lru
  | setSize asma size =>
    obtain ⟨area, opened, rfl⟩ := map_eq_some_iff.mp taken
    exact everywhere.setArea_same (steady.setSize (everywhere asma area opened) size) run.ashmem.lru
  | mmap asma permitted setup =>
    obtain ⟨area, opened, rfl⟩ := map_eq_some_iff.mp taken
    exact everywhere.setArea_same (steady.mmap (everywhere asma area opened) permitted setup)
      run.ashmem.lru
  | pinUnpin asma cmd arg alloc =>
    obtain ⟨area, opened, rfl⟩ := map_eq_some_iff.mp taken
    have own := asked asma cmd arg alloc area rfl opened
    generalize ashmemPinUnpin asma area run.ashmem.lru alloc cmd arg = result at own ⊢
    exact everywhere.setArea asma own result.2.1
  | shrink nr fs =>
    cases taken
    exact ashmemShrink_everywhere steady everywhere nr.toInt fs
  | purgeAllCaches capable =>
    cases taken
    unfold purgeAllCaches
    split
    · rcases ashmemShrink run.ashmem 0 true with ⟨_, ret⟩
      exact ashmemShrink_everywhere steady everywhere ret true
    · exact everywhere
  | release asma =>
    obtain ⟨area, opened, rfl⟩ := map_eq_some_iff.mp taken
    intro other found still
    simp only [ashmemRelease, AshmemAreas.setArea] at still
    split at still
    · cases still
    · exact everywhere other found still

end Everywhere

theorem markPurged_pgstart (id : Nat) (range : AshmemRange) :
    (markPurged id range).pgstart = range.pgstart := by
  unfold markPurged
  split <;> rfl

theorem markPurged_pgend (id : Nat) (range : AshmemRange) :
    (markPurged id range).pgend = range.pgend := by
  unfold markPurged
  split <;> rfl

theorem pgend_lt_of_markPurged {bound : Nat} (below : ∀ range ∈ list, range.pgend < bound) (id : Nat) :
    ∀ range ∈ list.map (markPurged id), range.pgend < bound := by
  intro range member
  obtain ⟨old, inside, rfl⟩ := mem_map.mp member
  rw [markPurged_pgend]
  exact below old inside

section

variable (tracks : Tracks area requests)

include tracks

theorem setSize_tracks (size : UInt32) : Tracks (setSize area size).1 requests := by
  unfold setSize
  split
  · exact tracks
  next unmapped =>
    obtain ⟨empty, forgotten⟩ := tracks.unmapped (by simpa using unmapped)
    subst forgotten
    refine ⟨tracks.ordered, ?_, fun page => ?_, fun _ => ⟨empty, rfl⟩⟩
    · simp [empty]
    · simp [empty, UnpinnedSince]

theorem ashmemMmap_tracks (permitted setup : Bool) :
    Tracks (ashmemMmap area permitted setup).1 requests := by
  unfold ashmemMmap
  iterate 3
    split
    · exact tracks
  split
  · exact ⟨tracks.ordered, tracks.inside, tracks.pages, by simp⟩
  · exact tracks

theorem markPurged_tracks (id : Nat) :
    Tracks { area with unpinnedList := area.unpinnedList.map (markPurged id) } requests := by
  refine ⟨⟨tracks.ordered.map (markPurged_pgstart id)
    (markPurged_pgend id), fun range member => ?_⟩, pgend_lt_of_markPurged tracks.inside id,
    fun page => ?_, fun unmapped => ?_⟩
  · obtain ⟨old, inside, rfl⟩ := mem_map.mp member
    rw [markPurged_pgstart, markPurged_pgend]
    exact tracks.ordered.nonempty old inside
  · exact (covers_map (markPurged_pgstart id) (markPurged_pgend id)).trans (tracks.pages page)
  · obtain ⟨empty, forgotten⟩ := tracks.unmapped unmapped
    exact ⟨by simp [empty], forgotten⟩

end

theorem tracks_steady : Steady Tracks where
  new := ⟨⟨.nil, by simp⟩, by simp, fun page => by simp [UnpinnedSince], fun _ => ⟨rfl, rfl⟩⟩
  setSize := setSize_tracks
  mmap := ashmemMmap_tracks
  purge := markPurged_tracks

/-- Every call keeps the lists true to the requests, when allocations succeed and no unpin asks for
nothing. -/
theorem ashmemStep_tracked (run : AshmemRun) (op : AshmemOp) (next : AshmemRun)
    (tracked : Everywhere Tracks run) (regular : AllocSucceeds op ∧ UnpinsSomething run op)
    (taken : ashmemStep run op = some next) : Everywhere Tracks next := by
  refine ashmemStep_everywhere tracks_steady tracked (fun asma cmd arg alloc area is opened => ?_) taken
  subst is
  obtain ⟨rfl, something⟩ := regular
  have asks : cmd = .unpin → ∀ pin, arg = some pin → ¬ AsksNothing area.size pin := by
    rintro rfl pin rfl
    exact something area opened
  exact ashmemPinUnpin_tracks asma (tracked asma area opened) run.ashmem.lru cmd arg asks

/-! ### The list over runs -/

/-- **The unpinned list is right after every run** whose allocations succeed: it descends, its
ranges are non-empty, disjoint and inside the area, and a request is unpinned exactly when a page of
it was unpinned and not pinned since. -/
theorem ashmem_range_list {ops : List AshmemOp} {run : AshmemRun}
    (regular : Along ashmemStep (fun run op => AllocSucceeds op ∧ UnpinsSomething run op)
      AshmemRun.init ops)
    (ran : exec ashmemStep AshmemRun.init ops = some run) {asma : Nat} {area : AshmemArea}
    (opened : run.ashmem.areas asma = some area) :
    Ordered area.unpinnedList ∧
      (∀ range ∈ area.unpinnedList, range.pgend < areaPages area.size) ∧
      ∀ alloc pin status,
        (ashmemPinUnpin asma area run.ashmem.lru alloc .getPinStatus (some pin)).2.2 =
            .ok (.getPinStatus status) →
          (status = .isUnpinned ↔
            ∃ page, Requested area.size pin page ∧
              UnpinnedSince area.size (run.requests asma) page) := by
  have start : Everywhere Tracks AshmemRun.init := fun other found opened => by cases opened
  have tracks : Tracks area (run.requests asma) :=
    exec_invariant_along (Everywhere Tracks) ashmemStep_tracked start regular ran asma area opened
  refine ⟨tracks.ordered, tracks.inside, fun alloc pin status answered => ?_⟩
  unfold ashmemPinUnpin at answered
  split at answered
  · simp only at answered
    split at answered
    · cases answered
    next pgstart pgend accepted =>
      cases answered
      exact getPinStatus_tracks tracks accepted
  · cases answered

/-- An area of one page, whose page is unpinned and purged. -/
def onePageRun : List AshmemOp :=
  [.openArea 0, .setSize 0 4096, .mmap 0 true true, .pinUnpin 0 .unpin (some ⟨0, 0⟩) true,
    .shrink 1 true]

theorem ashmem_range_list_one_page :
    ∃ run area, exec ashmemStep AshmemRun.init onePageRun = some run ∧
      run.ashmem.areas 0 = some area ∧ area.unpinnedList = [⟨0, 0, 0, 0, true⟩] ∧
      Ordered area.unpinnedList ∧
      ∃ page, Requested area.size ⟨0, 0⟩ page ∧ UnpinnedSince area.size (run.requests 0) page := by
  have regular : Along ashmemStep (fun run op => AllocSucceeds op ∧ UnpinsSomething run op)
      AshmemRun.init onePageRun := by
    iterate 3
      refine ⟨⟨trivial, trivial⟩, fun next taken => ?_⟩
      cases taken
    refine ⟨⟨rfl, fun area opened => ?_⟩, fun next taken => ⟨⟨trivial, trivial⟩, fun _ _ => trivial⟩⟩
    cases opened
    decide
  refine ⟨_, _, rfl, rfl, by decide +kernel, ?_⟩
  obtain ⟨ordered, -, status⟩ := @ashmem_range_list onePageRun _ regular rfl 0 _ rfl
  exact ⟨ordered, (status true ⟨0, 0⟩ .isUnpinned (by decide +kernel)).mp rfl⟩

/-- A run with a single unpin request, for "everything onward" from the end of a page. -/
def emptyUnpinRun : List AshmemOp :=
  [.openArea 0, .setSize 0 4096, .mmap 0 true true, .pinUnpin 0 .unpin (some ⟨4096, 0⟩) true]

/-- **The empty request is listed as the range from page 1 to page 0**, and page 0, which nobody
unpinned, becomes unpinned. -/
theorem empty_unpin_listed :
    ∃ run area, exec ashmemStep AshmemRun.init emptyUnpinRun = some run ∧
      run.ashmem.areas 0 = some area ∧
      area.unpinnedList = [⟨0, 0, 1, 0, false⟩] ∧ ¬ Ordered area.unpinnedList ∧
      (ashmemPinUnpin 0 area run.ashmem.lru true .getPinStatus (some ⟨0, 4096⟩)).2.2 =
        .ok (.getPinStatus .isUnpinned) ∧
      ¬ ∃ page, Requested area.size ⟨0, 4096⟩ page ∧
        UnpinnedSince area.size (run.requests 0) page := by
  refine ⟨_, _, rfl, rfl, by decide +kernel, ?_, by decide +kernel, ?_⟩
  · intro ordered
    exact absurd (ordered.nonempty ⟨0, 0, 1, 0, false⟩ (by decide +kernel)) (by decide)
  · rintro ⟨page, -, asked | nothing⟩
    · exact (not_requested_of_asksNothing (by decide +kernel) page) asked
    · exact nothing

end KernelImx.Ashmem
