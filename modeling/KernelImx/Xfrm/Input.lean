/-
**Packets through `xfrm_input`** (`net/xfrm/xfrm_input.c`), for one state and in any interleaving.

A packet is checked under the lock of the state, is decrypted without it, and takes the lock again to
advance the window. What moves between the two is not looked at again.

* **`delivered_once_iff`**: numbers are delivered once exactly when no packet is delivered although its
  number was delivered since its check.
-/

import KernelImx.Lib.Runs
import KernelImx.Xfrm.Replay

namespace KernelImx.Xfrm

open Function KernelImx.Lib Option List

/-! ### The two parts under the lock -/

/-- The `LINUX_MIB_XFRMIN…` counter of a packet that is dropped. -/
inductive Drop
  | stateInvalid
  | stateMismatch
  | stateSeqError
  | stateExpired
  | stateProtoError
  deriving DecidableEq, Repr

def ebadmsg : Int := 74

/-- The replay check, which a state without a window does not make. -/
def replayChecked (x : XfrmState) (seq : BitVec 32) : Except Errno Unit × XfrmState :=
  if x.replayWindow ≠ 0 then xfrmReplayCheck x seq else (.ok (), x)

/-- From `spin_lock` to `spin_unlock`, before `x->type->input`. -/
def xfrmInputCheck (now : BitVec 64) (encapType : Int) (seq : BitVec 32) (x : XfrmState) :
    Except Drop Unit × XfrmState :=
  if x.kmState ≠ .valid then (.error .stateInvalid, x)
  else if ((x.encap.getD 0).toNat : Int) ≠ encapType then (.error .stateMismatch, x)
  else
    match replayChecked x seq with
    | (.error _, x) => (.error .stateSeqError, x)
    | (.ok _, x) =>
      match xfrmStateCheckExpire now x with
      | (.error _, x) => (.error .stateExpired, x)
      | (.ok _, x) => (.ok (), x)

/-- From the label `resume` to `spin_unlock`; `nexthdr` is what `x->type->input` gave. -/
def xfrmInputResume (wide : BitVec 32 → BitVec 32 → BitVec 32) (nexthdr : Int) (seq len : BitVec 32)
    (x : XfrmState) : Except Drop Unit × XfrmState :=
  if nexthdr ≤ 0 then
    (.error .stateProtoError,
      if nexthdr = -ebadmsg then { x with stats.integrityFailed := x.stats.integrityFailed + 1 }
      else x)
  else
    let x := if x.replayWindow ≠ 0 then xfrmReplayAdvance wide x seq else x
    (.ok (), { x with bytes := x.bytes + len.setWidth 64, packets := x.packets + 1 })

section Parts

variable (now : BitVec 64) (encapType : Int) {seq : BitVec 32} {x : XfrmState}

theorem replayChecked_same (x : XfrmState) (seq : BitVec 32) :
    SameWindow x (replayChecked x seq).2 := by
  unfold replayChecked
  split
  · exact xfrmReplayCheck_same x seq
  · exact ⟨rfl, rfl, rfl⟩

theorem xfrmInputCheck_same (x : XfrmState) (seq : BitVec 32) :
    SameWindow x (xfrmInputCheck now encapType seq x).2 := by
  unfold xfrmInputCheck
  split
  · exact ⟨rfl, rfl, rfl⟩
  split
  · exact ⟨rfl, rfl, rfl⟩
  have checked := replayChecked_same x seq
  split <;> rename_i y first <;> rw [first] at checked
  · exact checked
  have expire := xfrmStateCheckExpire_same now y
  split <;> rename_i z second <;> rw [second] at expire
  all_goals exact checked.trans expire

theorem xfrmInputCheck_passes (window : x.replayWindow ≠ 0)
    (passes : (xfrmInputCheck now encapType seq x).1 = .ok ()) :
    (xfrmReplayCheck x seq).1 = .ok () := by
  unfold xfrmInputCheck at passes
  rw [replayChecked, if_pos window] at passes
  split at passes
  · cases passes
  split at passes
  · cases passes
  split at passes
  · cases passes
  · rename_i checked
    rw [checked]

variable (wide : BitVec 32 → BitVec 32 → BitVec 32)

theorem xfrmInputResume_window (nexthdr : Int) (seq len : BitVec 32) (x : XfrmState) :
    (xfrmInputResume wide nexthdr seq len x).2.replayWindow = x.replayWindow := by
  unfold xfrmInputResume
  split
  · split <;> rfl
  split
  · exact xfrmReplayAdvance_window wide x seq
  · rfl

theorem xfrmInputResume_failed {nexthdr : Int} {len : BitVec 32} {drop : Drop}
    (fails : (xfrmInputResume wide nexthdr seq len x).1 = .error drop) :
    SameWindow x (xfrmInputResume wide nexthdr seq len x).2 := by
  unfold xfrmInputResume at fails ⊢
  split
  · split <;> exact ⟨rfl, rfl, rfl⟩
  · rename_i positive
    rw [if_neg positive] at fails
    cases fails

theorem xfrmInputResume_recorded {nexthdr : Int} {len n : BitVec 32} (window : x.replayWindow ≠ 0)
    (accepted : (xfrmInputResume wide nexthdr seq len x).1 = .ok ())
    (recorded : n = seq ∨ Recorded x n) :
    Recorded (xfrmInputResume wide nexthdr seq len x).2 n := by
  unfold xfrmInputResume at accepted ⊢
  split
  · rename_i failed
    rw [if_pos failed] at accepted
    cases accepted
  · exact @Recorded.same (xfrmReplayAdvance wide x seq) _ n ⟨rfl, rfl, rfl⟩
      (advance_recorded wide recorded)

end Parts

/-! ### Any number of packets -/

/-- Where a packet is, with its sequence number. -/
inductive Place
  | new
  /-- Checked, in `x->type->input`. -/
  | crypto (seq : BitVec 32)
  /-- The window was advanced for it. -/
  | accepted (seq : BitVec 32)
  | delivered (seq : BitVec 32)
  | dropped
  deriving DecidableEq, Repr

/-- A state and the packets that come for it. -/
structure System where
  x : XfrmState
  place : Nat → Place
  /-- The numbers delivered since a packet was checked: a record of the run, which no step reads. -/
  since : Nat → List (BitVec 32)

inductive Label
  /-- The first part; `now` is `get_seconds()`. -/
  | check (p : Nat) (seq : BitVec 32) (encapType : Int) (now : BitVec 64)
  /-- The second part, at once or when the asynchronous `input` is done. -/
  | resume (p : Nat) (nexthdr : Int) (len : BitVec 32)
  /-- Behind the lock: the packet is handed up, or a later part of its path drops it. -/
  | finish (p : Nat) (up : Bool)
  /-- The state is deleted, or expires by its timer. -/
  | manage (kmState : KmState)
  deriving DecidableEq, Repr

variable (s : System)

def System.setPlace (p : Nat) (place : Place) : System :=
  { s with place := update s.place p place }

/-- The first part for the packet `p`. -/
def System.checkPacket (p : Nat) (seq : BitVec 32) (encapType : Int) (now : BitVec 64) : System :=
  match xfrmInputCheck now encapType seq s.x with
  | (.error _, x) => { s with x := x }.setPlace p .dropped
  | (.ok _, x) =>
    { s with x := x, since := update s.since p [] }.setPlace p (.crypto seq)

/-- The second part for the packet `p`. -/
def System.resumePacket (wide : BitVec 32 → BitVec 32 → BitVec 32) (s : System) (p : Nat)
    (seq : BitVec 32) (nexthdr : Int) (len : BitVec 32) : System :=
  match xfrmInputResume wide nexthdr seq len s.x with
  | (.error _, x) => { s with x := x }.setPlace p .dropped
  | (.ok _, x) => { s with x := x }.setPlace p (.accepted seq)

def System.finishPacket (p : Nat) (seq : BitVec 32) (up : Bool) : System :=
  if up then { s with since := fun q => seq :: s.since q }.setPlace p (.delivered seq)
  else s.setPlace p .dropped

def step (wide : BitVec 32 → BitVec 32 → BitVec 32) (s : System) : Label → Option System
  | .check p seq encapType now =>
    match s.place p with
    | .new => some (s.checkPacket p seq encapType now)
    | _ => none
  | .resume p nexthdr len =>
    match s.place p with
    | .crypto seq => some (s.resumePacket wide p seq nexthdr len)
    | _ => none
  | .finish p up =>
    match s.place p with
    | .accepted seq => some (s.finishPacket p seq up)
    | _ => none
  | .manage kmState => some { s with x.kmState := kmState }

def initial (x : XfrmState) : System := ⟨x, fun _ => .new, fun _ => []⟩

/-- **No number is delivered twice.** -/
def DeliveredOnce : Prop :=
  ∀ p q n, s.place p = .delivered n → s.place q = .delivered n → p = q

/-- No packet is handed up although its number was delivered since its check. -/
def NotOvertaken : Label → Prop
  | .finish p true => ∀ n ∈ s.since p, s.place p ≠ .accepted n
  | _ => True

instance (s : System) : ∀ label, Decidable (NotOvertaken s label)
  | .finish p true => decidableBAll (s.place p ≠ .accepted ·) (s.since p)
  | .finish _ false | .check .. | .resume .. | .manage _ => isTrue trivial

/-! ### What a step can do -/

/-- **The moves of a packet**, and what is known when it makes them. -/
inductive Move (s : System) : Label → System → Prop
  | drop {label : Label} {p : Nat} {x : XfrmState} (free : NotOvertaken s label)
      (under : ∀ n, s.place p ≠ .delivered n) (same : SameWindow s.x x) :
      Move s label ({ s with x := x }.setPlace p .dropped)
  | pass {label : Label} {p : Nat} {seq : BitVec 32} {x : XfrmState} (free : NotOvertaken s label)
      (new : s.place p = .new) (checked : (xfrmReplayCheck s.x seq).1 = .ok ())
      (same : SameWindow s.x x) :
      Move s label ({ s with x := x, since := update s.since p [] }.setPlace p (.crypto seq))
  | accept {label : Label} {p : Nat} {seq : BitVec 32} {x : XfrmState} (free : NotOvertaken s label)
      (under : s.place p = .crypto seq) (window : x.replayWindow = s.x.replayWindow)
      (recorded : ∀ n, n = seq ∨ Recorded s.x n → Recorded x n) :
      Move s label ({ s with x := x }.setPlace p (.accepted seq))
  | deliver {p : Nat} {seq : BitVec 32} (accepted : s.place p = .accepted seq) :
      Move s (.finish p true)
        ({ s with since := fun q => seq :: s.since q }.setPlace p (.delivered seq))
  | manage {label : Label} {x : XfrmState} (free : NotOvertaken s label) (same : SameWindow s.x x) :
      Move s label { s with x := x }

section Moves

variable {wide : BitVec 32 → BitVec 32 → BitVec 32} {s next : System} {label : Label}
  (window : s.x.replayWindow ≠ 0)

include window

theorem check_move {p : Nat} {seq : BitVec 32} {encapType : Int} {now : BitVec 64}
    (new : s.place p = .new) :
    Move s (.check p seq encapType now) (s.checkPacket p seq encapType now) := by
  have same := xfrmInputCheck_same now encapType s.x seq
  have passes := @xfrmInputCheck_passes now encapType seq s.x window
  unfold System.checkPacket
  split <;> rename_i x result <;> rw [result] at same passes
  · refine .drop trivial (fun n => ?_) same
    rw [new]
    exact nofun
  · exact .pass trivial new (passes rfl) same

theorem resume_move {p : Nat} {seq len : BitVec 32} {nexthdr : Int}
    (under : s.place p = .crypto seq) :
    Move s (.resume p nexthdr len) (s.resumePacket wide p seq nexthdr len) := by
  have keeps := xfrmInputResume_window wide nexthdr seq len s.x
  have failed := fun drop => @xfrmInputResume_failed seq s.x wide nexthdr len drop
  have recorded := fun n => @xfrmInputResume_recorded seq s.x wide nexthdr len n window
  unfold System.resumePacket
  split <;> rename_i x result <;> rw [result] at keeps failed recorded
  · refine .drop trivial (fun n => ?_) (failed _ rfl)
    rw [under]
    exact nofun
  · exact .accept trivial under keeps fun n => recorded n rfl

theorem step_move (taken : step wide s label = some next) : Move s label next := by
  cases label with
  | check p seq encapType now =>
    rw [step] at taken
    split at taken
    · cases taken
      exact check_move window ‹_›
    · cases taken
  | resume p nexthdr len =>
    rw [step] at taken
    split at taken
    · cases taken
      exact resume_move window ‹_›
    · cases taken
  | finish p up =>
    rw [step] at taken
    split at taken
    · rename_i seq accepted
      cases taken
      cases up with
      | true => exact .deliver accepted
      | false =>
        refine .drop trivial (fun n => ?_) ⟨rfl, rfl, rfl⟩
        rw [accepted]
        exact nofun
    · cases taken
  | manage kmState =>
    cases taken
    exact .manage trivial ⟨rfl, rfl, rfl⟩

end Moves

/-! ### The invariant -/

/-- The window was advanced for the number `n`. -/
def Place.keeps (n : BitVec 32) : Place → Prop
  | .accepted seq | .delivered seq => seq = n
  | _ => False

/-- Checked with the number `n`, and not yet delivered. -/
def Place.underWay (n : BitVec 32) : Place → Prop
  | .crypto seq | .accepted seq => seq = n
  | _ => False

/-- **What holds between the window and the packets.** -/
structure Inv (s : System) : Prop where
  window : s.x.replayWindow ≠ 0
  recorded : ∀ p n, (s.place p).keeps n → Recorded s.x n
  /-- A delivery of its number that a packet under way can meet came after its check. -/
  later : ∀ p q n, (s.place p).underWay n → s.place q = .delivered n → n ∈ s.since p
  real : ∀ p n, n ∈ s.since p → ∃ q, s.place q = .delivered n

theorem initial_inv {x : XfrmState} (window : x.replayWindow ≠ 0) : Inv (initial x) :=
  ⟨window, fun _ _ accepted => accepted.elim, fun _ _ _ under => under.elim, nofun⟩

variable {q : Nat} {n : BitVec 32}

section Kept

variable {s next : System} {label : Label}

theorem setPlace_self (s : System) (p : Nat) (place : Place) :
    (s.setPlace p place).place p = place := by
  simp [System.setPlace]

theorem setPlace_other {p : Nat} (apart : q ≠ p) (s : System) (place : Place) :
    (s.setPlace p place).place q = s.place q := by
  simp [System.setPlace, apart]

theorem setPlace_either {p q : Nat} {place : Place} (prop : Place → Prop)
    (holds : prop ((s.setPlace p place).place q)) : q = p ∧ prop place ∨ q ≠ p ∧ prop (s.place q) := by
  by_cases same : q = p
  · subst same
    refine .inl ⟨rfl, ?_⟩
    rwa [setPlace_self] at holds
  · refine .inr ⟨same, ?_⟩
    rwa [setPlace_other same] at holds

theorem setPlace_delivered {p q : Nat} {n : BitVec 32} {old : Place} (here : s.place p = old)
    (under : ∀ m, old ≠ .delivered m) (delivered : s.place q = .delivered n) (place : Place) :
    (s.setPlace p place).place q = .delivered n := by
  have apart : q ≠ p := by
    rintro rfl
    exact under n (here.symm.trans delivered)
  rw [setPlace_other apart]
  exact delivered

theorem move_delivered (move : Move s label next) (delivered : s.place q = .delivered n) :
    next.place q = .delivered n := by
  cases move with
  | drop _ under _ => exact setPlace_delivered rfl under delivered _
  | pass _ new _ _ => exact setPlace_delivered new nofun delivered _
  | accept _ under _ _ => exact setPlace_delivered under nofun delivered _
  | deliver accepted => exact setPlace_delivered accepted nofun delivered _
  | manage => exact delivered

theorem move_recorded (inv : Inv s) (move : Move s label next) (keeps : (next.place q).keeps n) :
    Recorded next.x n := by
  cases move with
  | drop _ _ same | pass _ _ _ same =>
    obtain ⟨-, none⟩ | ⟨-, old⟩ := setPlace_either (Place.keeps n) keeps
    · exact none.elim
    · exact (inv.recorded q n old).same same
  | accept _ _ _ recorded =>
    obtain ⟨-, new⟩ | ⟨-, old⟩ := setPlace_either (Place.keeps n) keeps
    · exact recorded n (.inl new.symm)
    · exact recorded n (.inr (inv.recorded q n old))
  | @deliver p seq accepted =>
    obtain ⟨-, new⟩ | ⟨-, old⟩ := setPlace_either (Place.keeps n) keeps
    · have before : (s.place p).keeps n := by
        rw [accepted]
        exact new
      exact inv.recorded p n before
    · exact inv.recorded q n old
  | manage _ same => exact (inv.recorded q n keeps).same same

theorem passes_fresh (inv : Inv s) {seq : BitVec 32}
    (checked : (xfrmReplayCheck s.x seq).1 = .ok ()) (r : Nat) : s.place r ≠ .delivered seq := by
  intro delivered
  have keeps : (s.place r).keeps seq := by
    rw [delivered]
    rfl
  rw [recorded_refused (inv.recorded r seq keeps)] at checked
  cases checked

theorem move_later (inv : Inv s) (move : Move s label next) {r : Nat}
    (under : (next.place q).underWay n) (delivered : next.place r = .delivered n) :
    n ∈ next.since q := by
  cases move with
  | drop =>
    obtain ⟨-, none⟩ | ⟨-, under⟩ := setPlace_either (Place.underWay n) under
    · exact none.elim
    obtain ⟨-, none⟩ | ⟨-, delivered⟩ := setPlace_either (· = .delivered n) delivered
    · cases none
    exact inv.later q r n under delivered
  | @pass _ p seq _ _ _ checked _ =>
    obtain ⟨-, none⟩ | ⟨-, delivered⟩ := setPlace_either (· = .delivered n) delivered
    · cases none
    obtain ⟨-, rfl⟩ | ⟨apart, under⟩ := setPlace_either (Place.underWay n) under
    · exact absurd delivered (passes_fresh inv checked r)
    · show n ∈ update s.since p [] q
      rw [update_of_ne apart]
      exact inv.later q r n under delivered
  | @accept _ p seq _ _ here _ _ =>
    obtain ⟨-, none⟩ | ⟨-, before⟩ := setPlace_either (· = .delivered n) delivered
    · cases none
    obtain ⟨rfl, rfl⟩ | ⟨-, under⟩ := setPlace_either (Place.underWay n) under
    · refine inv.later q r seq ?_ before
      rw [here]
      rfl
    · exact inv.later q r n under before
  | @deliver p seq _ =>
    obtain ⟨-, none⟩ | ⟨-, under⟩ := setPlace_either (Place.underWay n) under
    · exact none.elim
    obtain ⟨-, new⟩ | ⟨-, delivered⟩ := setPlace_either (· = .delivered n) delivered
    · cases new
      exact mem_cons_self
    · exact mem_cons_of_mem seq (inv.later q r n under delivered)
  | manage => exact inv.later q r n under delivered

theorem move_real (inv : Inv s) (move : Move s label next) (member : n ∈ next.since q) :
    ∃ r, next.place r = .delivered n := by
  have still : (∃ r, s.place r = .delivered n) → ∃ r, next.place r = .delivered n := by
    rintro ⟨r, delivered⟩
    exact ⟨r, move_delivered move delivered⟩
  cases move with
  | drop | accept | manage => exact still (inv.real q n member)
  | @pass _ p _ _ _ _ _ _ =>
    apply still
    have member' : n ∈ update s.since p [] q := member
    by_cases same : q = p
    · rw [same, update_self] at member'
      cases member'
    · rw [update_of_ne same] at member'
      exact inv.real q n member'
  | @deliver p seq _ =>
    rcases mem_cons.mp member with rfl | member
    · exact ⟨p, setPlace_self _ p _⟩
    · exact still (inv.real q n member)

theorem move_inv (inv : Inv s) (move : Move s label next) : Inv next where
  window := by
    cases move with
    | drop _ _ same | pass _ _ _ same | manage _ same =>
      exact fun zero => inv.window (same.replayWindow.symm.trans zero)
    | accept _ _ window _ => exact fun zero => inv.window (window.symm.trans zero)
    | deliver => exact inv.window
  recorded _ _ := move_recorded inv move
  later _ _ _ := move_later inv move
  real _ _ := move_real inv move

/-! ### Deliveries -/

theorem deliveredOnce_same (once : DeliveredOnce s)
    (same : ∀ q n, next.place q = .delivered n → s.place q = .delivered n) : DeliveredOnce next :=
  fun q r n first second => once q r n (same q n first) (same r n second)

theorem deliveredOnce_deliver (inv : Inv s) (once : DeliveredOnce s) {p : Nat} {seq : BitVec 32}
    (accepted : s.place p = .accepted seq) (since : Nat → List (BitVec 32)) :
    NotOvertaken s (.finish p true) ↔
      DeliveredOnce ({ s with since := since }.setPlace p (.delivered seq)) := by
  have delivered := fun q n => @setPlace_either { s with since := since } p q (.delivered seq)
    (· = .delivered n)
  constructor
  · intro free
    have fresh : ∀ r, s.place r ≠ .delivered seq := by
      intro r before
      refine free seq (inv.later p r seq ?_ before) accepted
      rw [accepted]
      rfl
    intro q r n first second
    obtain ⟨rfl, new⟩ | ⟨-, old⟩ := delivered q n first
    · cases new
      obtain ⟨same, -⟩ | ⟨-, old⟩ := delivered r seq second
      · exact same.symm
      · exact absurd old (fresh r)
    · obtain ⟨rfl, new⟩ | ⟨-, old'⟩ := delivered r n second
      · cases new
        exact absurd old (fresh q)
      · exact once q r n old old'
  · intro once' n member here
    obtain rfl : seq = n := Place.accepted.inj (accepted.symm.trans here)
    obtain ⟨r, before⟩ := inv.real p seq member
    have after := @setPlace_delivered { s with since := since } p r seq _ accepted nofun before
      (.delivered seq)
    obtain rfl : r = p := once' r p seq after (setPlace_self _ p _)
    cases before.symm.trans accepted

/-- **A move keeps the property exactly when it meets the condition.** -/
theorem deliveredOnce_move (inv : Inv s) (once : DeliveredOnce s) (move : Move s label next) :
    NotOvertaken s label ↔ DeliveredOnce next := by
  cases move with
  | drop free | pass free | accept free =>
    refine iff_of_true free (deliveredOnce_same once fun q n delivered => ?_)
    obtain ⟨-, none⟩ | ⟨-, old⟩ := setPlace_either (· = .delivered n) delivered
    · cases none
    · exact old
  | deliver accepted => exact deliveredOnce_deliver inv once accepted _
  | manage free => exact iff_of_true free once

end Kept

/-- **A sequence number is delivered once, in every interleaving, exactly when no packet is handed up
although its number was delivered since its check.** -/
theorem delivered_once_iff (wide : BitVec 32 → BitVec 32 → BitVec 32) {x : XfrmState}
    (window : x.replayWindow ≠ 0) {labels : List Label} {last : System}
    (run : exec (step wide) (initial x) labels = some last) :
    Along (step wide) NotOvertaken (initial x) labels ↔ DeliveredOnce last := by
  refine along_iff_exec Inv DeliveredOnce ?_ ?_ ?_ (initial_inv window) nofun run
  · intro s label next inv taken
    exact move_inv inv (step_move inv.window taken)
  · intro s label next inv taken once q r n first second
    have move := step_move inv.window taken
    exact once q r n (move_delivered move first) (move_delivered move second)
  · intro s label next inv once taken
    exact deliveredOnce_move inv once (step_move inv.window taken)

def newState : XfrmState :=
  ⟨.valid, false, none, 32, 0, 0, ⟨-1, -1, -1, -1⟩, 0, 0, 0, ⟨0, 0, 0⟩⟩

/-- The second packet arrives first, and the first one is sent again when both are through. -/
def reorderedRun : List Label :=
  [.check 0 2 0 9, .check 1 1 0 9, .resume 1 50 100, .resume 0 50 100, .finish 0 true,
    .finish 1 true, .check 2 1 0 9]

theorem delivered_once_iff_reordered : ∃ last,
    exec (step fun _ _ => 0) (initial newState) reorderedRun = some last ∧
      last.place 1 = .delivered 1 ∧ last.place 2 = .dropped ∧ DeliveredOnce last := by
  have places : (exec (step fun _ _ => 0) (initial newState) reorderedRun).map
      (fun s => (s.place 1, s.place 2)) = some (.delivered 1, .dropped) := by decide +kernel
  obtain ⟨last, run, shown⟩ := map_eq_some_iff.mp places
  exact ⟨last, run, congrArg Prod.fst shown, congrArg Prod.snd shown,
    (delivered_once_iff _ (by decide) run).mp (by decide +kernel)⟩

/-- Two copies of a packet, both checked before either of them advances the window. -/
def overtakenRun : List Label :=
  [.check 0 1 0 9, .check 1 1 0 9, .resume 0 50 100, .finish 0 true, .resume 1 50 100, .finish 1 true]

/-- Two packets that are checked before either of them advances. -/
theorem delivered_twice : ∃ last,
    exec (step fun _ _ => 0) (initial newState) overtakenRun = some last ∧
      last.place 0 = .delivered 1 ∧ last.place 1 = .delivered 1 := by
  have places : (exec (step fun _ _ => 0) (initial newState) overtakenRun).map
      (fun s => (s.place 0, s.place 1)) = some (.delivered 1, .delivered 1) := by decide +kernel
  obtain ⟨last, run, shown⟩ := map_eq_some_iff.mp places
  exact ⟨last, run, congrArg Prod.fst shown, congrArg Prod.snd shown⟩

end KernelImx.Xfrm
