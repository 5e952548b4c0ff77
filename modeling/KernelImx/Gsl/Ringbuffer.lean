/-
**`gsl_ringbuffer.c`: what the GPU has not read is not overwritten.**

The host writes commands behind one another and goes back to the first dword when the ring is used
up. It judges by a read pointer that the GPU has moved on from since.

* **`ringbuffer_safe`**: it is kept as long as the host does not meet a read pointer that is 0 with
  all of the commands unread when it has gone back;
* **`ringbuffer_overwrites`**: then it takes the full ring for an empty one.
-/

import KernelImx.Lib.Runs

namespace KernelImx.Gsl

open List KernelImx.Lib Nat Option

/-! ### The ring -/

inductive Dword
  | command (value : BitVec 32)
  /-- The header of the NOP packet that covers the rest of the ring. -/
  | nop
  deriving DecidableEq

/-- Where `kgsl_ringbuffer_issuecmds` is. -/
inductive Host
  | idle
  /-- In the loop of `kgsl_ringbuffer_waitspace`. -/
  | waiting (cmds : List (BitVec 32)) (wptrAhead : Bool)
  /-- `kgsl_ringbuffer_addcmds` has returned, nothing is submitted yet. -/
  | filling (cmds : List (BitVec 32)) (ptr : Nat)
  deriving DecidableEq

structure State where
  sizedwords : Nat
  ring : Nat → Dword
  /-- The fields of `gsl_ringbuffer_t`. -/
  wptr : Nat
  rptr : Nat
  host : Host
  /-- The registers of the GPU. -/
  cpWptr : Nat
  cpRptr : Nat
  /-- The dwords that are submitted and not read, in order. -/
  unread : List Nat
  submitted : List Dword
  processed : List Dword

inductive Label
  /-- With all the dwords that the call writes, the timestamp packets included. -/
  | issuecmds (cmds : List (BitVec 32)) (safemode : Bool)
  | poll
  | submit
  | gpu

/-- `GSL_RB_NOP_SIZEDWORDS`. -/
def nopSizedwords : Nat := 2

variable (state : State) (cmds : List (BitVec 32))

/-- `kgsl_ringbuffer_addcmds` when there is space. -/
def handOut : State :=
  { state with host := .filling cmds state.wptr, wptr := state.wptr + cmds.length }

/-- `kgsl_ringbuffer_waitspace` with `wptr_ahead`, up to its loop. -/
def padNop : State :=
  { state with
    ring := fun index => if index = state.wptr then .nop else state.ring index
    unread := state.unread ++ [state.wptr], submitted := state.submitted ++ [.nop]
    cpWptr := state.wptr + 1, wptr := 0, host := .waiting cmds true }

def checkRemaining : State :=
  if state.wptr + cmds.length > state.sizedwords - nopSizedwords then padNop state cmds
  else handOut state cmds

def addcmds : State :=
  if state.wptr ≥ state.rptr then checkRemaining state cmds
  else if state.wptr + cmds.length ≥ state.rptr then { state with host := .waiting cmds false }
  else checkRemaining state cmds

/-- `GSL_RB_GET_READPTR`. -/
def getReadptr : State := { state with rptr := state.cpRptr }

def freecmds : Nat := (state.rptr + 2 ^ 32 - state.wptr) % 2 ^ 32

def fill (ring : Nat → Dword) (ptr : Nat) (cmds : List (BitVec 32)) (index : Nat) : Dword :=
  if ptr ≤ index then (cmds[index - ptr]?).elim (ring index) .command else ring index

/-- `kgsl_ringbuffer_issuecmds`, cut where it reads the read pointer and submits, and the GPU. -/
def step : Label → Option State
  | .issuecmds cmds safemode =>
    if state.host = .idle ∧ cmds ≠ [] ∧ cmds.length < state.sizedwords then
      some (addcmds (if safemode then getReadptr state else state) cmds)
    else none
  | .poll =>
    match state.host with
    | .waiting cmds wptrAhead =>
      let state := getReadptr state
      if freecmds state = 0 ∨ freecmds state > cmds.length then
        some (if wptrAhead then handOut state cmds else checkRemaining state cmds)
      else some state
    | _ => none
  | .submit =>
    match state.host with
    | .filling cmds ptr =>
      some { state with
        ring := fill state.ring ptr cmds, unread := state.unread ++ range' ptr cmds.length
        submitted := state.submitted ++ cmds.map .command, cpWptr := state.wptr, host := .idle }
    | _ => none
  | .gpu =>
    match state.unread with
    | [] => none
    | _ :: rest =>
      some { state with
        cpRptr := if state.ring state.cpRptr = .nop then 0 else state.cpRptr + 1
        unread := rest, processed := state.processed ++ [state.ring state.cpRptr] }

/-- After `kgsl_ringbuffer_start`. -/
def started (sizedwords : Nat) (ring : Nat → Dword) : State :=
  ⟨sizedwords, ring, 0, 0, .idle, 0, 0, [], [], []⟩

/-! ### The invariant -/

def State.finish : Nat :=
  match state.host with
  | .filling _ ptr => ptr
  | _ => state.wptr

/-- From the read pointer to the end, by way of the NOP if there is one. -/
def positions (read finish : Nat) : Option Nat → List Nat
  | none => range' read (finish - read)
  | some nop => range' read (nop - read) ++ nop :: range' 0 finish

/-- In the loop after the NOP. -/
def Host.wentBack : Host → Bool
  | .waiting _ wptrAhead => wptrAhead
  | _ => false

def Host.Fits (sizedwords wptr : Nat) : Host → Prop
  | .idle => True
  | .waiting cmds wptrAhead =>
    cmds ≠ [] ∧ cmds.length < sizedwords ∧ (wptrAhead = true → wptr = 0)
  | .filling cmds ptr => cmds ≠ [] ∧ wptr = ptr + cmds.length

/-- **The invariant**, `lap` being the NOP that the GPU is still to pass. -/
structure Sound (state : State) (lap : Option Nat) : Prop where
  bytes : state.sizedwords * 4 ≤ 2 ^ 32
  inside : state.wptr < state.sizedwords
  host : state.host.Fits state.sizedwords state.wptr
  unread : state.unread = positions state.cpRptr state.finish lap
  nop : ∀ index ∈ state.unread, state.ring index = .nop ↔ lap = some index
  same : lap = none → state.cpRptr ≤ state.finish ∧
    (state.cpRptr < state.finish → state.cpWptr = state.finish)
  next : ∀ nop, lap = some nop → state.cpRptr ≤ nop ∧ nop < state.sizedwords ∧
    state.cpWptr = (if state.finish = 0 then nop + 1 else state.finish)
  /-- The host is behind the read pointer it knows, and this one behind the GPU's. -/
  stale : lap ≠ none → state.host.wentBack = false →
    state.wptr < state.rptr ∧ state.rptr ≤ state.cpRptr
  inOrder : state.processed ++ state.unread.map state.ring = state.submitted

variable {index : Nat} {lap : Option Nat}

section Positions

variable {read finish : Nat}

theorem mem_positions_none : index ∈ positions read finish none ↔ read ≤ index ∧ index < finish := by
  rw [positions, mem_range'_1]
  omega

theorem mem_positions_some {nop : Nat} (low : read ≤ nop) :
    index ∈ positions read finish (some nop) ↔ (read ≤ index ∧ index ≤ nop) ∨ index < finish := by
  rw [positions, mem_append, mem_cons, mem_range'_1, mem_range'_1]
  omega

theorem positions_cons {first : Nat} {rest : List Nat} (low : ∀ nop, lap = some nop → read ≤ nop)
    (list : positions read finish lap = first :: rest) :
    first = read ∧ rest = if lap = some read then positions 0 finish none
      else positions (read + 1) finish lap := by
  cases lap with
  | none =>
    obtain ⟨rfl, -, rfl⟩ := range'_eq_cons_iff.mp list
    exact ⟨rfl, rfl⟩
  | some nop =>
    rcases append_eq_cons_iff.mp list with ⟨none, same⟩ | ⟨later, front, rfl⟩
    · have here : nop = read := le_antisymm
        (Nat.sub_eq_zero_iff_le.mp (range'_eq_nil_iff.mp none)) (low nop rfl)
      obtain ⟨rfl, rfl⟩ := cons.inj same
      rw [here, if_pos rfl]
      exact ⟨rfl, rfl⟩
    · obtain ⟨rfl, more, rfl⟩ := range'_eq_cons_iff.mp front
      rw [if_neg (fun same => by cases same; omega), positions, sub_add_eq]
      exact ⟨rfl, rfl⟩

theorem positions_append (low : lap = none → read ≤ finish) (count : Nat) :
    positions read finish lap ++ range' finish count = positions read (finish + count) lap := by
  cases lap with
  | none =>
    have low := low rfl
    have joined := @range'_append_1 read (finish - read) count
    rw [Nat.add_sub_cancel' low] at joined
    rw [positions, positions, joined, Nat.sub_add_comm low]
  | some nop =>
    have joined := @range'_append_1 0 finish count
    rw [zero_add] at joined
    rw [positions, positions, append_assoc, cons_append, joined]

end Positions

variable {ptr : Nat}

section Steps

variable {state next : State} {cmds : List (BitVec 32)}

section

variable (sound : Sound state lap)

include sound

theorem Sound.finish_le : state.finish ≤ state.wptr := by
  have fits := sound.host
  rw [State.finish]
  generalize state.host = host at fits
  cases host with
  | idle | waiting => exact le_rfl
  | filling => exact fits.2 ▸ le_add_right _ _

theorem Sound.behind (other : lap ≠ none) : state.finish = 0 ∨ state.finish < state.cpRptr := by
  have bound := sound.finish_le
  have fits := sound.host
  cases back : state.host.wentBack with
  | false =>
    obtain ⟨below, known⟩ := sound.stale other back
    omega
  | true =>
    generalize state.host = host at fits back
    cases host with
    | idle | filling => cases back
    | waiting =>
      have := fits.2.2 back
      omega

theorem Sound.read_lt : state.cpRptr < state.sizedwords := by
  have inside := sound.inside
  have bound := sound.finish_le
  cases lap with
  | none =>
    have low := (sound.same rfl).1
    omega
  | some nop =>
    obtain ⟨low, high, -⟩ := sound.next nop rfl
    omega

theorem handOut_sound (some_cmds : cmds ≠ []) (finish : state.finish = state.wptr)
    (inside : state.wptr + cmds.length < state.sizedwords)
    (stale : lap ≠ none → state.wptr + cmds.length < state.rptr ∧ state.rptr ≤ state.cpRptr) :
    Sound (handOut state cmds) lap := by
  obtain ⟨bytes, -, -, unread, nop, same, next, -, inOrder⟩ := sound
  rw [finish] at unread same next
  exact ⟨bytes, inside, ⟨some_cmds, rfl⟩, unread, nop, same, next, fun other _ => stale other, inOrder⟩

end

theorem padNop_sound (sound : Sound state none) (some_cmds : cmds ≠ []) (finish : state.finish = state.wptr)
    (small : cmds.length < state.sizedwords) : Sound (padNop state cmds) (some state.wptr) := by
  obtain ⟨low, -⟩ := sound.same rfl
  have unread := sound.unread
  rw [finish] at low unread
  have before : ∀ index ∈ state.unread, index ≠ state.wptr := fun index member same => by
    rw [unread, mem_positions_none] at member
    omega
  refine ⟨sound.bytes, lt_of_le_of_lt (zero_le _) sound.inside,
    ⟨some_cmds, small, fun _ => rfl⟩, ?_, fun index member => ?_, nofun, fun nop same => ?_,
    fun _ => nofun, ?_⟩
  · exact congrArg (· ++ [state.wptr]) unread
  · show (if index = state.wptr then Dword.nop else state.ring index) = .nop ↔ _
    by_cases here : index = state.wptr
    · rw [if_pos here, here]
      exact iff_of_true rfl rfl
    · rcases mem_append.mp member with old | new
      · rw [if_neg here, sound.nop index old]
        exact iff_of_false nofun fun same => here (some.inj same).symm
      · exact absurd (mem_singleton.mp new) here
  · cases same
    exact ⟨low, sound.inside, rfl⟩
  show state.processed ++ (state.unread ++ [state.wptr]).map _ = _
  have kept : state.unread.map (padNop state cmds).ring = state.unread.map state.ring :=
    map_congr_left fun index member => if_neg (before index member)
  rw [map_append, kept, ← append_assoc, sound.inOrder]
  exact congrArg (fun last => state.submitted ++ [last]) (if_pos rfl)

/-- **There is space, on this lap or on the next.** -/
theorem checkRemaining_sound (sound : Sound state lap) (some_cmds : cmds ≠ [])
    (finish : state.finish = state.wptr) (small : cmds.length < state.sizedwords)
    (stale : lap ≠ none → state.wptr + cmds.length < state.rptr ∧ state.rptr ≤ state.cpRptr) :
    ∃ lap, Sound (checkRemaining state cmds) lap := by
  rw [checkRemaining, nopSizedwords]
  split
  case isTrue full =>
    cases lap with
    | none => exact ⟨_, padNop_sound sound some_cmds finish small⟩
    | some nop =>
      obtain ⟨below, known⟩ := stale nofun
      obtain ⟨low, high, -⟩ := sound.next nop rfl
      omega
  case isFalse room => exact ⟨lap, handOut_sound sound some_cmds finish (by omega) stale⟩

theorem getReadptr_sound (sound : Sound state lap) : Sound (getReadptr state) lap := by
  refine { sound with stale := fun other waits => ?_ }
  obtain ⟨below, known⟩ := sound.stale other waits
  exact ⟨lt_of_lt_of_le below known, le_rfl⟩

theorem addcmds_sound (sound : Sound state lap) (idle : state.host = .idle) (some_cmds : cmds ≠ [])
    (small : cmds.length < state.sizedwords) : ∃ lap, Sound (addcmds state cmds) lap := by
  have finish : state.finish = state.wptr := by rw [State.finish, idle]
  have stale := fun other => sound.stale other (by rw [idle]; rfl)
  rw [addcmds]
  split
  case isTrue ahead =>
    refine checkRemaining_sound sound some_cmds finish small fun other => ?_
    exact absurd (stale other).1 (not_lt.mpr ahead)
  case isFalse =>
    split
    case isTrue =>
      obtain ⟨bytes, inside, -, unread, nop, same, next, -, inOrder⟩ := sound
      rw [finish] at unread same next
      exact ⟨lap, bytes, inside, ⟨some_cmds, small, nofun⟩, unread, nop, same, next,
        fun other _ => stale other, inOrder⟩
    case isFalse room =>
      exact checkRemaining_sound sound some_cmds finish small fun other =>
        ⟨not_le.mp room, (stale other).2⟩

/-- The host has gone back to the first dword, and reads a read pointer of 0 while there are unread
commands. -/
def mistaken (state : State) : Label → Bool
  | .poll => state.host.wentBack && state.cpRptr == 0 && !state.unread.isEmpty
  | _ => false

theorem poll_sound (sound : Sound state lap) (fair : mistaken state .poll = false)
    (taken : step state .poll = some next) : ∃ lap, Sound next lap := by
  rw [step] at taken
  split at taken
  case h_2 => cases taken
  case h_1 cmds wptrAhead waits =>
    have finish : state.finish = state.wptr := by rw [State.finish, waits]
    have read := sound.read_lt
    have bytes := sound.bytes
    have fresh := getReadptr_sound sound
    have fits := sound.host
    rw [waits] at fits
    obtain ⟨some_cmds, small, back⟩ := fits
    -- what the unsigned difference says
    have free : freecmds (getReadptr state) = if state.wptr ≤ state.cpRptr then
        state.cpRptr - state.wptr else state.cpRptr + 2 ^ 32 - state.wptr := by
      rw [freecmds, getReadptr]
      dsimp only
      split <;> omega
    dsimp only at taken
    split at taken
    case isFalse =>
      cases taken
      exact ⟨lap, fresh⟩
    case isTrue passes =>
      cases taken
      rw [free] at passes
      cases wptrAhead with
      | true =>
        have zero := back rfl
        refine ⟨lap, handOut_sound fresh some_cmds finish ?_ fun other => ?_⟩
        · show state.wptr + cmds.length < state.sizedwords
          rwa [zero, zero_add]
        have unread : state.unread ≠ [] := by
          rw [sound.unread]
          cases lap with
          | none => exact absurd rfl other
          | some nop => exact append_ne_nil_of_right_ne_nil _ (cons_ne_nil _ _)
        have moved : state.cpRptr ≠ 0 := fun zero => by
          simp [mistaken, waits, zero, unread, Host.wentBack] at fair
        show state.wptr + cmds.length < state.cpRptr ∧ state.cpRptr ≤ state.cpRptr
        rw [if_pos (by omega)] at passes
        omega
      | false =>
        refine checkRemaining_sound fresh some_cmds finish small fun other => ?_
        obtain ⟨below, known⟩ := sound.stale other (by rw [waits]; rfl)
        show state.wptr + cmds.length < state.cpRptr ∧ state.cpRptr ≤ state.cpRptr
        rw [if_pos (by omega)] at passes
        omega

theorem fill_outside {ring : Nat → Dword} (outside : ¬ (ptr ≤ index ∧ index < ptr + cmds.length)) :
    fill ring ptr cmds index = ring index := by
  rw [fill]
  split
  case isTrue low => rw [getElem?_eq_none (by omega)]; rfl
  case isFalse => rfl

theorem fill_inside {ring : Nat → Dword} (low : ptr ≤ index) (high : index < ptr + cmds.length) :
    fill ring ptr cmds index ≠ .nop := by
  rw [fill, if_pos low, getElem?_eq_getElem (by omega : index - ptr < cmds.length)]
  exact nofun

theorem fill_range (ring : Nat → Dword) (ptr : Nat) (cmds : List (BitVec 32)) :
    (range' ptr cmds.length).map (fill ring ptr cmds) = cmds.map .command := by
  refine ext_getElem (by simp) fun index inside _ => ?_
  rw [length_map, length_range'] at inside
  simp [fill, getElem?_eq_getElem inside]

theorem Sound.apart (sound : Sound state lap) (fills : state.host = .filling cmds ptr) :
    ptr + cmds.length ≤ state.sizedwords ∧
      ∀ index ∈ state.unread, ¬ (ptr ≤ index ∧ index < ptr + cmds.length) := by
  have finish : state.finish = ptr := by rw [State.finish, fills]
  have fits := sound.host
  have inside := sound.inside
  have unread := sound.unread
  rw [fills] at fits
  refine ⟨fits.2 ▸ le_of_lt inside, fun index member => ?_⟩
  rw [unread] at member
  cases lap with
  | none =>
    have := mem_positions_none.mp member
    omega
  | some nop =>
    obtain ⟨below, known⟩ := sound.stale nofun (by rw [fills]; rfl)
    have := (mem_positions_some (sound.next nop rfl).1).mp member
    have := fits.2
    omega

theorem submit_sound (sound : Sound state lap) (taken : step state .submit = some next) :
    ∃ lap, Sound next lap := by
  rw [step] at taken
  split at taken
  case h_2 => cases taken
  case h_1 cmds ptr fills =>
    cases taken
    obtain ⟨-, apart⟩ := sound.apart fills
    have finish : state.finish = ptr := by rw [State.finish, fills]
    have fits := sound.host
    rw [fills] at fits
    obtain ⟨some_cmds, wptr⟩ := fits
    have length := length_pos_iff.mpr some_cmds
    have unread := sound.unread
    have same := sound.same
    have stale := fun other => sound.stale other (by rw [fills]; rfl)
    rw [finish] at unread same
    have kept : state.unread.map (fill state.ring ptr cmds) = state.unread.map state.ring :=
      map_congr_left fun index member => fill_outside (apart index member)
    refine ⟨lap, sound.bytes, sound.inside, trivial, ?_, fun index member => ?_, fun none => ?_,
      fun nop some => ?_, fun other _ => stale other, ?_⟩
    · show state.unread ++ range' ptr cmds.length = positions state.cpRptr state.wptr lap
      rw [unread, positions_append (fun none => (same none).1), wptr]
    · show fill state.ring ptr cmds index = .nop ↔ _
      rcases mem_append.mp member with old | new
      · rw [fill_outside (apart index old)]
        exact sound.nop index old
      have range := mem_range'_1.mp new
      refine iff_of_false (fill_inside range.1 range.2) fun some => ?_
      obtain ⟨below, known⟩ := stale (some ▸ nofun)
      obtain ⟨low, -⟩ := sound.next index some
      omega
    · exact ⟨le_trans (same none).1 (wptr ▸ le_add_right _ _), fun _ => rfl⟩
    · obtain ⟨low, high, -⟩ := sound.next nop some
      exact ⟨low, high, (if_neg (by show ¬ state.wptr = 0; omega)).symm⟩
    · rw [map_append, kept, fill_range, ← append_assoc, sound.inOrder]

theorem gpu_sound (sound : Sound state lap) (taken : step state .gpu = some next) :
    ∃ lap, Sound next lap := by
  rw [step] at taken
  split at taken
  case h_1 => cases taken
  case h_2 first rest unread =>
    cases taken
    have list := sound.unread.symm.trans unread
    obtain ⟨rfl, tail⟩ := positions_cons (fun nop some => (sound.next nop some).1) list
    have here := sound.nop state.cpRptr (unread ▸ mem_cons_self)
    have inOrder := sound.inOrder
    rw [unread, map_cons, append_cons] at inOrder
    have later : ∀ index ∈ rest, state.ring index = .nop ↔ lap = some index := fun index member =>
      sound.nop index (unread ▸ mem_cons_of_mem _ member)
    by_cases passed : lap = some state.cpRptr
    · have back : (if state.ring state.cpRptr = .nop then 0 else state.cpRptr + 1) = 0 :=
        if_pos (here.mpr passed)
      rw [if_pos passed] at tail
      rw [back]
      obtain ⟨-, -, cpWptr⟩ := sound.next _ passed
      refine ⟨none, sound.bytes, sound.inside, sound.host, tail, fun index member => ?_, fun _ => ?_,
        nofun, fun other => absurd rfl other, inOrder⟩
      · have low := mem_positions_none.mp (tail ▸ member)
        have behind := sound.behind (passed ▸ nofun)
        refine (later index member).trans (iff_of_false (fun same => ?_) nofun)
        have := some.inj (passed.symm.trans same)
        omega
      · exact ⟨zero_le _, fun positive => cpWptr.trans (if_neg (ne_of_gt positive))⟩
    have on : (if state.ring state.cpRptr = .nop then 0 else state.cpRptr + 1) = state.cpRptr + 1 :=
      if_neg fun nop => passed (here.mp nop)
    rw [if_neg passed] at tail
    rw [on]
    refine ⟨lap, sound.bytes, sound.inside, sound.host, tail, later, fun none => ?_, fun nop some => ?_,
      fun other waits => ?_, inOrder⟩
    · obtain ⟨-, cpWptr⟩ := sound.same none
      have member : state.cpRptr ∈ positions state.cpRptr state.finish lap := list ▸ mem_cons_self
      rw [none, mem_positions_none] at member
      exact ⟨member.2, fun _ => cpWptr member.2⟩
    · obtain ⟨low, high, cpWptr⟩ := sound.next nop some
      refine ⟨lt_of_le_of_ne low fun same => passed (same ▸ some), high, cpWptr⟩
    · obtain ⟨below, known⟩ := sound.stale other waits
      exact ⟨below, le_succ_of_le known⟩

theorem step_sound (label : Label) (sound : ∃ lap, Sound state lap) (fair : mistaken state label = false)
    (taken : step state label = some next) : ∃ lap, Sound next lap := by
  obtain ⟨lap, sound⟩ := sound
  cases label with
  | issuecmds cmds safemode =>
    obtain ⟨⟨idle, some_cmds, small⟩, ⟨⟩⟩ := ite_none_right_eq_some.mp taken
    cases safemode with
    | false => exact addcmds_sound sound idle some_cmds small
    | true => exact addcmds_sound (getReadptr_sound sound) idle some_cmds small
  | poll => exact poll_sound sound fair taken
  | submit => exact submit_sound sound taken
  | gpu => exact gpu_sound sound taken

end Steps

/-! ### Every interleaving -/

/-- What holds whenever no unread dword is overwritten. -/
structure Safe (state : State) : Prop where
  handed : ∀ cmds ptr, state.host = .filling cmds ptr → ptr + cmds.length ≤ state.sizedwords ∧
    ∀ index ∈ state.unread, ¬ (ptr ≤ index ∧ index < ptr + cmds.length)
  pointers : state.unread ≠ [] → state.cpWptr ≠ state.cpRptr
  inOrder : state.processed ++ state.unread.map state.ring = state.submitted

theorem Sound.safe {state : State} (sound : Sound state lap) : Safe state := by
  refine ⟨fun cmds ptr fills => sound.apart fills, fun some => ?_, sound.inOrder⟩
  have unread := sound.unread
  cases lap with
  | none =>
    obtain ⟨low, cpWptr⟩ := sound.same rfl
    rcases eq_or_lt_of_le low with same | below
    · rw [same, positions, Nat.sub_self] at unread
      exact absurd unread some
    · rw [cpWptr below]
      exact ne_of_gt below
  | some nop =>
    obtain ⟨low, -, cpWptr⟩ := sound.next nop rfl
    rw [cpWptr]
    split
    · omega
    · rcases sound.behind nofun with none | below
      · contradiction
      · exact Nat.ne_of_lt below

/-- **Nothing is overwritten before the GPU has read it**, if the host, back at the first dword,
does not read a read pointer of 0 while commands are unread. -/
theorem ringbuffer_safe (sizedwords : Nat) (ring : Nat → Dword) (some_dwords : 0 < sizedwords)
    (bytes : sizedwords * 4 ≤ 2 ^ 32) (labels : List Label) (state : State)
    (fair : Along step (fun state label => mistaken state label = false) (started sizedwords ring) labels)
    (run : exec step (started sizedwords ring) labels = some state) : Safe state := by
  have initial : Sound (started sizedwords ring) none :=
    ⟨bytes, some_dwords, trivial, rfl, nofun, fun _ => ⟨le_rfl, fun less => nomatch less⟩, nofun,
      fun other => absurd rfl other, rfl⟩
  obtain ⟨lap, sound⟩ := exec_invariant_along (fun state => ∃ lap, Sound state lap)
    (fun _ label _ sound fair taken => step_sound label sound fair taken) ⟨none, initial⟩ fair run
  exact sound.safe

/-- Eight dwords, and eight more for which the host has to go back. -/
def twoCalls (between : List Label) : List Label :=
  [.issuecmds (replicate 8 1) false, .submit, .issuecmds (replicate 8 2) false] ++
    between ++ [.poll]

theorem ringbuffer_safe_twoCalls : ∃ state, exec step (started 16 fun _ => .command 0)
    (twoCalls (replicate 9 .gpu)) = some state ∧ Safe state := by
  have fair : Along step (fun state label => mistaken state label = false)
      (started 16 fun _ => .command 0) (twoCalls (replicate 9 .gpu)) := by decide +kernel
  exact ⟨_, rfl, ringbuffer_safe 16 _ (by decide) (by decide) _ _ fair rfl⟩

/-- **A full ring is taken for an empty one**: the GPU has not begun to read. -/
theorem ringbuffer_overwrites : ∃ state, exec step (started 16 fun _ => .command 0) (twoCalls [])
    = some state ∧ ¬ Safe state :=
  ⟨_, rfl, fun safe => (safe.handed _ _ rfl).2 0 (by decide) (by decide)⟩

end KernelImx.Gsl
