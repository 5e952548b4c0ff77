/-
**`pxp_dma.c`: where the sixteen descriptors of a channel are.**

A transaction is a descriptor with the descriptors of its other layers on its `tx_list`. It goes from
`free_list` to the client, to `queue` and to `active_list`, and the interrupt puts it back.

* **`descriptors_conserved`**: it stays so as long as one transaction of a channel is issued at a time
  and none is aborted.
-/

import Mathlib.Data.List.Nodup
import KernelImx.Lib.Runs

namespace KernelImx.Pxp

open List Function KernelImx.Lib Option

/-- The lists of `struct pxp_channel`, whose descriptors are numbers. -/
structure Channel where
  freeList : List Nat
  queue : List Nat
  activeList : List Nat
  /-- `tx_list` of every descriptor. -/
  txList : Nat → List Nat
  /-- Taken by `pxp_prep_slave_sg`, and not submitted yet. -/
  held : List Nat

structure State where
  channels : Nat → Channel
  head : List Nat

inductive Direction
  | bidirectional | toDevice | fromDevice | none
  deriving DecidableEq

inductive Label
  | prepSlaveSg (chan sgLen : Nat) (direction : Direction)
  | txSubmit (chan desc : Nat)
  /-- What follows the list operations (the clock, the wait with its exits, the start) does not change
  the lists. -/
  | issuePending (chan : Nat)
  | irq
  | terminateAll (chan : Nat)

/-- `n_desc` in `pxp_init_channel`. -/
def nDesc : Nat := 16

/-- `pxp_desc_alloc`: the last descriptor is in front. -/
def descAlloc : Channel := ⟨(range nDesc).reverse, [], [], fun _ => [], []⟩

/-- `list_splice_init(&desc->tx_list, &free_list)`, and the descriptor in front of it. -/
def giveBack (ch : Channel) (desc : Nat) : Channel :=
  { ch with
    freeList := desc :: (ch.txList desc ++ ch.freeList), txList := update ch.txList desc [] }

/-- The loop of `pxp_prep_slave_sg`, with `pxpdma_desc_get` and `pxpdma_desc_put`. -/
def prepLoop (ch : Channel) (first : Option Nat) : Nat → Channel
  | 0 => ch
  | left + 1 =>
    match ch.freeList, first with
    | [], none => ch
    | [], some first => { giveBack ch first with held := ch.held.erase first }
    | desc :: rest, none =>
      prepLoop { ch with freeList := rest, held := desc :: ch.held } (some desc) left
    | desc :: rest, some first =>
      prepLoop { ch with
        freeList := rest, txList := update ch.txList first (ch.txList first ++ [desc]) } (some first) left

def prepSlaveSg (ch : Channel) (sgLen : Nat) (direction : Direction) : Channel :=
  if direction ≠ .fromDevice ∧ direction ≠ .toDevice then ch
  else if sgLen < 2 then ch
  else prepLoop ch none sgLen

/-- `pxpdma_dequeue`. -/
def dequeue : List Nat → List Nat → List Nat
  | [], list => list
  | desc :: queue, list => dequeue queue (list ++ [desc])

def terminateAll (ch : Channel) : Channel :=
  { ch with freeList := ch.activeList ++ (ch.queue ++ ch.freeList), queue := [], activeList := [] }

/-- The calls of the clients and the interrupt, over the lists of any number of channels. -/
def step (state : State) : Label → Option State
  | .prepSlaveSg chan sgLen direction =>
    some { state with
      channels := update state.channels chan (prepSlaveSg (state.channels chan) sgLen direction) }
  | .txSubmit chan desc =>
    let ch := state.channels chan
    if desc ∈ ch.held then
      some { state with
        channels := update state.channels chan
          { ch with held := ch.held.erase desc, queue := ch.queue ++ [desc] } }
    else none
  | .issuePending chan =>
    let ch := state.channels chan
    if ch.queue = [] then some state
    else
      some ⟨update state.channels chan
        { ch with queue := [], activeList := dequeue ch.queue ch.activeList }, state.head ++ [chan]⟩
  | .irq =>
    match state.head with
    | [] => some state
    | chan :: rest =>
      let ch := state.channels chan
      match ch.activeList with
      | [] => some { state with head := rest }
      | desc :: active =>
        some ⟨update state.channels chan { giveBack ch desc with activeList := active }, rest⟩
  | .terminateAll chan =>
    some { state with channels := update state.channels chan (terminateAll (state.channels chan)) }

/-! ### The invariant -/

def Channel.parents (ch : Channel) : List Nat := ch.queue ++ ch.activeList ++ ch.held

/-- **Every descriptor is in one place**, and only the first one of a transaction has a `tx_list`. -/
structure Conserved (ch : Channel) : Prop where
  places : (ch.freeList ++ ch.parents ++ ch.parents.flatMap ch.txList).Perm (range nDesc)
  bare : ∀ desc ∉ ch.parents, ch.txList desc = []

section Channel

variable {ch : Channel} {desc first : Nat} {rest others queue active held : List Nat}

section

variable (conserved : Conserved ch)

include conserved

theorem Conserved.nodup : (ch.freeList ++ ch.parents).Nodup :=
  (nodup_append.mp (conserved.places.nodup_iff.mpr nodup_range)).1

theorem Conserved.regroup (same : (queue ++ active ++ held).Perm ch.parents) :
    Conserved { ch with queue := queue, activeList := active, held := held } where
  places := ((same.append_left _).append (same.flatMap_right _)).trans conserved.places
  bare desc other := conserved.bare desc fun parent => other (same.mem_iff.mpr parent)

theorem Conserved.split (parents : ch.parents.Perm (desc :: others)) (list : List Nat) :
    (ch.freeList ++ desc :: others ++ (ch.txList desc ++ others.flatMap ch.txList)).Perm (range nDesc) ∧
      others.flatMap (update ch.txList desc list) = others.flatMap ch.txList ∧ desc ∉ others := by
  have apart := (nodup_cons.mp (parents.nodup_iff.mp (nodup_append.mp conserved.nodup).2.1)).1
  refine ⟨?_, ?_, apart⟩
  · refine Perm.trans ?_ conserved.places
    exact (parents.symm.append_left _).append (parents.symm.flatMap_right ch.txList)
  · refine flatMap_congr fun other member => update_of_ne ?_ _ _
    rintro rfl
    exact apart member

theorem Conserved.giveBack (parents : ch.parents.Perm (desc :: (ch.queue ++ active ++ held))) :
    Conserved { giveBack ch desc with activeList := active, held := held } := by
  obtain ⟨places, same, apart⟩ := conserved.split parents []
  refine ⟨Perm.trans ?_ places, fun other outside => ?_⟩
  · refine perm_iff_count.mpr fun place => ?_
    simp only [Pxp.giveBack, Channel.parents, same, count_append, count_cons]
    omega
  by_cases here : other = desc
  · subst here
    exact update_self ..
  · refine (update_of_ne here _ _).trans (conserved.bare other fun parent => ?_)
    rcases mem_cons.mp (parents.mem_iff.mp parent) with same | old
    · exact here same
    · exact outside old

theorem Conserved.take (free : ch.freeList = desc :: rest) :
    Conserved { ch with freeList := rest, held := desc :: ch.held } := by
  have places := conserved.places
  have nodup := conserved.nodup
  have bare := conserved.bare
  rw [free] at places nodup
  have fresh : desc ∉ ch.parents := fun parent =>
    (nodup_cons.mp nodup).1 (mem_append_right _ parent)
  have parents : (ch.queue ++ ch.activeList ++ desc :: ch.held).Perm (desc :: ch.parents) := perm_middle
  refine ⟨Perm.trans ?_ places, fun other outside => bare other fun parent => outside ?_⟩
  · refine ((parents.append_left rest).append (parents.flatMap_right ch.txList)).trans ?_
    rw [flatMap_cons, bare desc fresh]
    exact perm_middle.append_right _
  · exact parents.mem_iff.mpr (mem_cons_of_mem _ parent)

theorem Conserved.child (free : ch.freeList = desc :: rest)
    (parent : first ∈ ch.parents) : Conserved { ch with
      freeList := rest, txList := update ch.txList first (ch.txList first ++ [desc]) } := by
  have parents := perm_cons_erase parent
  obtain ⟨places, same, -⟩ := conserved.split parents (ch.txList first ++ [desc])
  rw [free] at places
  refine ⟨Perm.trans ?_ places, fun other outside => ?_⟩
  · have listed := parents.flatMap_right (update ch.txList first (ch.txList first ++ [desc]))
    rw [flatMap_cons, update_self, same] at listed
    refine ((parents.append_left rest).append listed).trans (perm_iff_count.mpr fun place => ?_)
    simp only [count_append, count_cons, count_nil]
    omega
  · refine (update_of_ne ?_ _ _).trans (conserved.bare other outside)
    rintro rfl
    exact outside parent

end

/-- **`pxp_prep_slave_sg`** gives everything back when it runs out of descriptors. -/
theorem prepLoop_conserved (left : Nat) : ∀ {ch : Channel} {first : Option Nat}, Conserved ch →
    (∀ desc ∈ first, desc ∈ ch.held) →
      Conserved (prepLoop ch first left) ∧ (prepLoop ch first left).activeList = ch.activeList := by
  induction left with
  | zero => exact fun conserved _ => ⟨conserved, rfl⟩
  | succ left ih =>
    intro ch first conserved owned
    rw [prepLoop.eq_def]
    dsimp only
    split
    case h_1 => exact ⟨conserved, rfl⟩
    case h_2 first _ =>
      refine ⟨conserved.giveBack (((perm_cons_erase (owned first rfl)).append_left _).trans ?_), rfl⟩
      exact perm_middle
    case h_3 desc rest free =>
      exact ih (conserved.take free) fun other same => some.inj same ▸ mem_cons_self
    case h_4 desc rest first free =>
      exact ih (conserved.child free (mem_append_right _ (owned first rfl))) owned

theorem prepSlaveSg_conserved (conserved : Conserved ch) (sgLen : Nat) (direction : Direction) :
    Conserved (prepSlaveSg ch sgLen direction) ∧
      (prepSlaveSg ch sgLen direction).activeList = ch.activeList := by
  rw [prepSlaveSg]
  split
  · exact ⟨conserved, rfl⟩
  split
  · exact ⟨conserved, rfl⟩
  · exact prepLoop_conserved sgLen conserved nofun

theorem dequeue_eq (queue list : List Nat) : dequeue queue list = list ++ queue := by
  induction queue generalizing list with
  | nil => exact (append_nil list).symm
  | cons desc queue ih => rw [dequeue, ih, append_assoc, singleton_append]

end Channel

/-! ### Every run -/

/-- The descriptors of all channels, and the channels that wait for the interrupt. -/
structure Tracked (state : State) : Prop where
  conserved : ∀ chan, Conserved (state.channels chan)
  once : state.head.Nodup
  linked : ∀ chan, (state.channels chan).activeList ≠ [] → chan ∈ state.head

/-- A channel is linked again, the interrupt leaves a transaction on a channel that it unlinks, or a
transaction is aborted. -/
def strands (state : State) : Label → Bool
  | .issuePending chan => !(state.channels chan).queue.isEmpty && state.head.contains chan
  | .irq => state.head.head?.any fun chan => 1 < (state.channels chan).activeList.length
  | .terminateAll chan =>
    !((state.channels chan).queue ++ (state.channels chan).activeList).isEmpty
  | _ => false

section Steps

variable {state next : State}

theorem Tracked.set (tracked : Tracked state) (chan : Nat) {ch : Channel} {head : List Nat}
    (conserved : Conserved ch) (once : head.Nodup) (linked : ch.activeList ≠ [] → chan ∈ head)
    (others : ∀ other ≠ chan, other ∈ state.head → other ∈ head) :
    Tracked ⟨update state.channels chan ch, head⟩ where
  conserved := (forall_update_iff _ fun _ ch => Conserved ch).mpr
    ⟨conserved, fun other _ => tracked.conserved other⟩
  once := once
  linked := (forall_update_iff _ fun other (ch : Channel) => ch.activeList ≠ [] → other ∈ head).mpr
    ⟨linked, fun other differs active => others other differs (tracked.linked other active)⟩

theorem step_tracked (label : Label) (tracked : Tracked state) (keeps : strands state label = false)
    (taken : step state label = some next) : Tracked next := by
  cases label with
  | prepSlaveSg chan sgLen direction =>
    cases taken
    obtain ⟨conserved, active⟩ := prepSlaveSg_conserved (tracked.conserved chan) sgLen direction
    exact tracked.set chan conserved tracked.once (active ▸ tracked.linked chan) fun _ _ => id
  | txSubmit chan desc =>
    obtain ⟨owned, ⟨⟩⟩ := ite_none_right_eq_some.mp taken
    refine tracked.set chan ((tracked.conserved chan).regroup ?_) tracked.once (tracked.linked chan)
      fun _ _ => id
    refine perm_iff_count.mpr fun place => ?_
    have counts := (perm_cons_erase owned).count_eq place
    simp only [Channel.parents, count_append, count_cons, count_nil] at counts ⊢
    omega
  | issuePending chan =>
    rw [step] at taken
    split at taken
    case isTrue =>
      cases taken
      exact tracked
    case isFalse some =>
      cases taken
      have fresh : chan ∉ state.head := by simpa [strands, some] using keeps
      refine tracked.set chan ((tracked.conserved chan).regroup ?_) ?_ ?_ ?_
      · rw [dequeue_eq, nil_append]
        exact perm_append_comm.append_right _
      · exact nodup_append_comm.mp (nodup_cons.mpr ⟨fresh, tracked.once⟩)
      · exact fun _ => mem_append_right _ mem_cons_self
      · exact fun _ _ => mem_append_left _
  | irq =>
    rw [step] at taken
    split at taken
    case h_1 =>
      cases taken
      exact tracked
    case h_2 chan rest head =>
      have once := tracked.once
      have linked (other : Nat) (differs : other ≠ chan) (member : other ∈ state.head) : other ∈ rest :=
        (mem_cons.mp (head ▸ member)).resolve_left differs
      rw [head] at once
      dsimp only at taken
      split at taken
      case h_1 none =>
        cases taken
        refine ⟨tracked.conserved, (nodup_cons.mp once).2, fun other active => ?_⟩
        refine linked other ?_ (tracked.linked other active)
        rintro rfl
        exact active none
      case h_2 desc active first =>
        cases taken
        have last : active = [] := by simpa [strands, head, first] using keeps
        subst last
        refine tracked.set chan ((tracked.conserved chan).giveBack ?_) (nodup_cons.mp once).2
          (fun active => absurd rfl active) linked
        rw [Channel.parents, first, append_nil, append_assoc]
        exact perm_middle
  | terminateAll chan =>
    cases taken
    have none : (state.channels chan).queue = [] ∧ (state.channels chan).activeList = [] := by
      simpa [strands] using keeps
    refine tracked.set chan ?_ tracked.once (fun active => absurd rfl active) fun _ _ => id
    rw [terminateAll, none.1, none.2]
    refine (tracked.conserved chan).regroup ?_
    rw [Channel.parents, none.1, none.2]

end Steps

/-- After `pxp_alloc_chan_resources` for every channel. -/
def booted : State := ⟨fun _ => descAlloc, []⟩

theorem Conserved.free {ch : Channel} (conserved : Conserved ch) : ∀ desc ∈ ch.freeList,
    ch.txList desc = [] := fun desc free =>
  conserved.bare desc fun parent => (nodup_append.mp conserved.nodup).2.2 desc free desc parent rfl

/-- **Every descriptor is in one place, and a busy channel is linked once**, in every run in which a
channel is not linked when it issues, has one transaction at the interrupt, and none when it is
aborted. -/
theorem descriptors_conserved (labels : List Label) (state : State)
    (keeps : Along step (fun state label => strands state label = false) booted labels)
    (run : exec step booted labels = some state) : Tracked state ∧
      ∀ chan, ∀ desc ∈ (state.channels chan).freeList, (state.channels chan).txList desc = [] := by
  have initial : Tracked booted :=
    ⟨fun _ => ⟨by simp [booted, descAlloc, Channel.parents], fun _ _ => rfl⟩,
      nodup_nil, fun _ active => absurd rfl active⟩
  have tracked := exec_invariant_along Tracked
    (fun _ label _ tracked keeps taken => step_tracked label tracked keeps taken) initial keeps run
  exact ⟨tracked, fun chan => (tracked.conserved chan).free⟩

/-- A client prepares, submits and issues a transaction of two layers. -/
def oneIssued : List Label :=
  [.prepSlaveSg 0 2 .toDevice, .txSubmit 0 15, .issuePending 0, .irq]

theorem descriptors_conserved_oneIssued :
    ∃ state, exec step booted oneIssued = some state ∧ Tracked state := by
  have keeps : Along step (fun state label => strands state label = false) booted oneIssued := by
    decide +kernel
  exact ⟨_, rfl, (descriptors_conserved _ _ keeps rfl).1⟩

/-- **A channel with a transaction is not linked**: two are issued, and the interrupt is for the first. -/
theorem irq_strands : ∃ state, exec step booted [.prepSlaveSg 0 2 .toDevice, .prepSlaveSg 0 2 .toDevice,
    .txSubmit 0 15, .txSubmit 0 13, .issuePending 0, .irq] = some state ∧ ¬ Tracked state :=
  ⟨_, rfl, fun tracked => nomatch tracked.linked 0 (by decide)⟩

end KernelImx.Pxp
