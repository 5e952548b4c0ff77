/-
**No operation sleeps that could be done.**

After every call the array is quiescent: each call on `sem_pending` would have to sleep again.
`do_smart_update` searches only for the semaphores whose waiters a change may concern.

Main result: `sem_quiescent`.
-/

import KernelImx.Lib.Runs
import KernelImx.Sem.Update

namespace KernelImx.Sem

open List Option KernelImx.Lib

/-! ### The searches after a call -/

variable {sma : SemArray} {num : Nat} {sops : List Sembuf}

section Smart

variable {next : SemArray}

/-- Nobody who waits for one semaphore, this one, could go on. -/
def QuietAt (sma : SemArray) (num : Nat) : Prop := ∀ queue ∈ sma.simple num, Blocked sma queue

theorem QuietAt.congr (quiet : QuietAt sma num) (queued : Queued sma) (after : Queued next)
    (sub : next.pending.Sublist sma.pending) (value : next.semval num = sma.semval num) :
    QuietAt next num := by
  intro queue inside
  obtain ⟨isPending, sop, one, rfl⟩ := after.mem_simple.mp inside
  have before := quiet queue (queued.mem_simple.mpr ⟨sub.subset isPending, sop, one, rfl⟩)
  rw [(after.sleepable queue isPending).blocked_iff one] at before ⊢
  rwa [value]

/-- **Quiescence**: every call on `sem_pending` would have to sleep. -/
def Quiescent (sma : SemArray) : Prop := ∀ queue ∈ sma.pending, Blocked sma queue

theorem Queued.quiescent (queued : Queued sma) (simple : sma.complexCount = 0)
    (quiet : ∀ num, QuietAt sma num) : Quiescent sma := by
  intro queue member
  obtain ⟨sop, one⟩ := queued.single simple member
  exact quiet sop.semNum queue (queued.mem_simple.mpr ⟨member, sop, one, rfl⟩)

/-- What a call returns is in order. -/
structure Settled (sma : SemArray) : Prop where
  queued : Queued sma
  quiescent : Quiescent sma

/-- The condition of `do_smart_update` for a search. -/
def Due (sma : SemArray) (num : Nat) (sops : List Sembuf) : Prop :=
  ∃ sop ∈ sops, sop.semNum = num ∧ (sop.semOp > 0 ∨ (sop.semOp < 0 ∧ sma.semval num = 0))

/-- **The loop over the operations**, for whose semaphores a search is still due unless they are
quiet. -/
theorem smartLoop_spec {sops : List Sembuf} {up : SemUpdate} (queued : Queued up.sma)
    (simple : up.sma.complexCount = 0) (each : ∀ num, QuietAt up.sma num ∨ Due up.sma num sops) :
    ∃ next, smartLoop up sops = some next ∧ Settled next.sma := by
  induction sops generalizing up with
  | nil =>
    refine ⟨up, rfl, queued, queued.quiescent simple fun num => (each num).resolve_right ?_⟩
    rintro ⟨_, member, _⟩
    cases member
  | cons sop rest ih =>
    unfold smartLoop
    split
    · obtain ⟨middle, search, after, progress, quiet⟩ :=
        updateQueue_one queued simple sop.semNum up.pt
      rw [search]
      refine @ih { middle with completed := up.completed || middle.completed } after
        (queued.complexCount_eq_zero after progress.sub simple) fun num => ?_
      by_cases here : num = sop.semNum
      · exact .inl (here ▸ quiet)
      have value := progress.others sop.semNum rfl num here
      rcases each num with done | ⟨other, member, same, condition⟩
      · exact .inl (done.congr queued after progress.sub value)
      rw [← value] at condition
      refine .inr ⟨other, (mem_cons.mp member).resolve_left ?_, same, condition⟩
      rintro rfl
      exact here same.symm
    next skip =>
      refine ih queued simple fun num => (each num).imp id ?_
      rintro ⟨other, member, rfl, condition⟩
      refine ⟨other, (mem_cons.mp member).resolve_left ?_, rfl, condition⟩
      rintro rfl
      exact skip condition

theorem opSum_of_not_due (idle : ¬ Due sma num sops) :
    opSum num sops ≤ 0 ∧ (opSum num sops < 0 → sma.semval num ≠ 0) := by
  induction sops with
  | nil => exact ⟨le_refl 0, fun less => absurd less (lt_irrefl 0)⟩
  | cons sop rest ih =>
    obtain ⟨low, nonzero⟩ := ih fun ⟨other, member, condition⟩ =>
      idle ⟨other, mem_cons_of_mem _ member, condition⟩
    rw [opSum]
    by_cases here : sop.semNum = num
    · have skip : ¬ (sop.semOp > 0 ∨ (sop.semOp < 0 ∧ sma.semval num = 0)) := fun condition =>
        idle ⟨sop, mem_cons_self, here, condition⟩
      rw [not_or, not_and] at skip
      refine ⟨by omega, fun less => ?_⟩
      by_cases negative : sop.semOp < 0
      · exact skip.2 negative
      · exact nonzero (by omega)
    · rw [if_neg here, zero_add]
      exact ⟨low, nonzero⟩

theorem Quiescent.quietAt (queued : Queued sma) (quiescent : Quiescent sma)
    (same : SameQueues sma next) (value : next.semval num = sma.semval num + opSum num sops)
    (idle : ¬ Due next num sops) :
    QuietAt next num := by
  intro queue inside
  rw [same.simple] at inside
  obtain ⟨isPending, sop, one, rfl⟩ := queued.mem_simple.mp inside
  have waits := queued.sleepable queue isPending
  have before := quiescent queue isPending
  obtain ⟨low, nonzero⟩ := opSum_of_not_due idle
  rw [waits.blocked_iff one] at before ⊢
  rcases before with ⟨zero, some⟩ | less
  · refine .inl ⟨zero, ?_⟩
    rcases lt_or_eq_of_le low with negative | same
    · exact nonzero negative
    · rw [value, same, add_zero]
      exact some
  · refine .inr ?_
    omega

theorem Quiescent.congr (quiescent : Quiescent sma) (same : SameQueues sma next)
    (values : ∀ num, next.semval num = sma.semval num) (adj : next.semadj = sma.semadj) :
    Quiescent next := by
  intro queue inside
  rw [same.pending] at inside
  exact (quiescent queue inside).congr values adj

theorem Settled.congr (settled : Settled sma) (same : SameQueues sma next)
    (values : ∀ num, next.semval num = sma.semval num) (adj : next.semadj = sma.semadj) :
    Settled next :=
  ⟨settled.queued.congr same fun num => by rw [values]; exact settled.queued.nonneg num,
    settled.quiescent.congr same values adj⟩

theorem Settled.setOtime (settled : Settled sma) (condition : Bool) (now : Nat) :
    Settled (if condition then { sma with otime := now } else sma) := by
  split
  · exact settled.congr ⟨rfl, rfl, rfl⟩ (fun _ => rfl) rfl
  · exact settled

/-- **After `do_smart_update` with `NULL`**, whatever was changed. -/
theorem doSmartUpdate_all (queued : Queued sma) (otime : Bool) (now : Nat) :
    ∃ next pt, doSmartUpdate sma none otime now = some (next, pt) ∧ Settled next := by
  obtain ⟨up, search, after, quiet⟩ := updateQueue_all queued []
  unfold doSmartUpdate
  simp only [search, map_some]
  exact ⟨_, _, rfl, Settled.setOtime ⟨after, quiet⟩ _ now⟩

/-- **After `do_smart_update` with the operations that were performed** on a quiescent array. -/
theorem doSmartUpdate_sops (settled : Settled sma) {un pid : Nat}
    (success : tryAtomicSemop sma sops un pid = (next, .done)) (otime : Bool) (now : Nat) :
    ∃ last pt, doSmartUpdate next (some sops) otime now = some (last, pt) ∧ Settled last := by
  have made := tryAtomicSemop_made success
  have queued := settled.queued.congr made.queues fun num => made.nonneg num (settled.queued.nonneg num)
  unfold doSmartUpdate
  by_cases complex : next.complexCount = 0
  · obtain ⟨up, search, after⟩ := @smartLoop_spec sops ⟨next, [], false⟩ queued complex fun num =>
      or_iff_not_imp_right.mpr (settled.quiescent.quietAt settled.queued made.queues (made.values num))
    simp only [complex, ne_eq, not_true_eq_false, if_false, search, map_some]
    exact ⟨_, _, rfl, after.setOtime _ now⟩
  · obtain ⟨up, search, after, quiet⟩ := updateQueue_all queued []
    simp only [complex, ne_eq, not_false_eq_true, if_true, search, map_some]
    exact ⟨_, _, rfl, Settled.setOtime ⟨after, quiet⟩ _ now⟩

end Smart

/-! ### The calls -/

variable {call : SemCall}

section Calls

variable {next : SemArray}

theorem addQueue_perm (queue : SemQueue) (list : List SemQueue) :
    (addQueue queue list).Perm (queue :: list) := by
  unfold addQueue
  split
  · exact perm_append_singleton queue list
  · exact Perm.refl _

theorem mem_addQueue {queue other : SemQueue} {list : List SemQueue} :
    other ∈ addQueue queue list ↔ other = queue ∨ other ∈ list :=
  (addQueue_perm queue list).mem_iff.trans mem_cons

theorem filter_addQueue (queue : SemQueue) (list : List SemQueue) (p : SemQueue → Bool) :
    (addQueue queue list).filter p =
      if p queue then addQueue queue (list.filter p) else list.filter p := by
  unfold addQueue
  by_cases alters : queue.alter = true <;> by_cases here : p queue = true <;>
    simp [alters, here, filter_append]

theorem sleepable_of_sleep (nonneg : ∀ num, 0 ≤ sma.semval num) (asked : call.sops ≠ [])
    (sleeps : (tryAtomicSemop sma call.sops call.undo call.pid).2 = .sleep) :
    Sleepable call.queue := by
  refine ⟨rfl, asked, fun sop one => ?_⟩
  rw [show call.sops = [sop] from one, tryAtomicSemop_single] at sleeps
  obtain ⟨waits, zero | low⟩ := sleeps
  · exact ⟨le_of_eq zero.1, waits⟩
  · have pos := nonneg sop.semNum
    exact ⟨by omega, waits⟩

@[simp] theorem enqueue_pending (call : SemCall) :
    (enqueue sma call).pending = addQueue call.queue sma.pending := by
  unfold enqueue
  split <;> rfl

theorem enqueue_semval (call : SemCall) (num : Nat) :
    (enqueue sma call).semval num = sma.semval num := by
  unfold enqueue
  split <;> rfl

theorem enqueue_semadj (call : SemCall) : (enqueue sma call).semadj = sma.semadj := by
  unfold enqueue
  split <;> rfl

theorem Queued.enqueue (queued : Queued sma) (fresh : call.id ∉ sma.pending.map SemQueue.id)
    (sleepable : Sleepable call.queue) :
    Queued (enqueue sma call) := by
  refine ⟨?_, fun num => ?_, ?_, fun queue inside => ?_, ?_, fun num => ?_⟩
  · rw [enqueue_pending, ((addQueue_perm _ _).map _).nodup_iff, map_cons, nodup_cons]
    exact ⟨fresh, queued.ids⟩
  · rw [enqueue_pending, filter_addQueue, ← queued.lists]
    unfold Sem.enqueue
    split
    next sop one =>
      have on : call.queue.on num = decide (sop.semNum = num) := by
        unfold SemQueue.on
        rw [show call.queue.sops = [sop] from one]
      rw [on]
      by_cases here : num = sop.semNum
      · simp [here]
      · simp [here, Ne.symm here]
    next other =>
      have off : ¬ call.queue.on num = true := by
        rw [on_iff]
        rintro ⟨sop, one, -⟩
        exact other sop one
      rw [if_neg off]
  · rw [enqueue_pending, (addQueue_perm _ _).countP_eq, countP_cons, ← queued.count]
    unfold Sem.enqueue
    split
    next sop one =>
      rw [show call.queue.sops = [sop] from one]
      simp
    next other =>
      have complex : call.queue.sops.length ≠ 1 := fun length =>
        (length_eq_one_iff.mp length).elim other
      simp [complex]
  · rw [enqueue_pending] at inside
    rcases mem_addQueue.mp inside with rfl | old
    · exact sleepable
    · exact queued.sleepable queue old
  · rw [enqueue_pending]
    unfold addQueue
    split
    next alters =>
      rw [pairwise_append]
      refine ⟨queued.order, pairwise_singleton _ _, fun _ _ queue last _ => ?_⟩
      rw [mem_singleton.mp last]
      exact alters
    next reads => exact pairwise_cons.mpr ⟨fun _ _ alters => absurd alters reads, queued.order⟩
  · rw [enqueue_semval]
    exact queued.nonneg num

variable (settled : Settled sma)

include settled

theorem Settled.enqueue (fresh : call.id ∉ sma.pending.map SemQueue.id) (asked : call.sops ≠ [])
    (sleeps : (tryAtomicSemop sma call.sops call.undo call.pid).2 = .sleep) :
    Settled (enqueue sma call) := by
  have sleepable := sleepable_of_sleep settled.queued.nonneg asked sleeps
  refine ⟨settled.queued.enqueue fresh sleepable, fun queue inside => ?_⟩
  have before : Blocked sma queue := by
    rw [enqueue_pending] at inside
    rcases mem_addQueue.mp inside with rfl | old
    · exact sleeps
    · exact settled.quiescent queue old
  exact before.congr (enqueue_semval call) (enqueue_semadj call)

theorem semtimedop_settled (semopm : Nat) (fresh : call.id ∉ sma.pending.map SemQueue.id)
    (now : Nat) :
    ∃ next, (semtimedop sma semopm call now).map Prod.fst = some next ∧ Settled next := by
  unfold semtimedop
  split
  · exact ⟨_, rfl, settled⟩
  next short =>
  iterate 4
    split
    · exact ⟨_, rfl, settled⟩
  cases result : tryAtomicSemop sma call.sops call.undo call.pid with
  | mk next answer =>
    cases answer with
    | done =>
      simp only
      split
      · obtain ⟨last, pt, update, after⟩ := doSmartUpdate_sops settled result true now
        rw [update]
        exact ⟨_, rfl, after⟩
      next reads =>
        have made := tryAtomicSemop_made result
        have zeros : ∀ sop ∈ call.sops, sop.semOp = 0 := by
          intro sop inside
          simp only [SemCall.alter, Bool.not_eq_true, List.any_eq_false] at reads
          simpa using reads sop inside
        refine ⟨_, rfl, settled.congr made.queues (fun num => ?_) (made.semadj_eq zeros)⟩
        rw [made.values, opSum_zero num zeros, add_zero]
    | failed err =>
      obtain rfl := tryAtomicSemop_not_done result nofun
      exact ⟨_, rfl, settled⟩
    | sleep =>
      obtain rfl := tryAtomicSemop_not_done result nofun
      refine ⟨_, rfl, settled.enqueue fresh ?_ (congrArg Prod.snd result)⟩
      rintro empty
      rw [empty] at short
      exact short zero_lt_one

theorem giveUp_settled (id : Nat) : Settled (giveUp sma id) := by
  unfold giveUp
  split
  · exact settled
  next queue found =>
    have member := mem_of_find?_eq_some found
    refine ⟨settled.queued.unlink member, fun other inside => ?_⟩
    rw [unlinkQueue_pending] at inside
    exact (settled.quiescent other (mem_of_mem_filter inside)).congr
      (fun _ => unlinkQueue_semval) unlinkQueue_semadj

theorem setval_settled (num : Nat) (value : Int) (pid now : Nat) :
    ∃ next, (setval sma num value pid now).map Prod.fst = some next ∧ Settled next := by
  unfold setval
  split
  · exact ⟨_, rfl, settled⟩
  split
  · exact ⟨_, rfl, settled⟩
  next range =>
  rw [not_or, not_lt] at range
  have queued : Queued { (sma.setSemval num value).setSempid num pid with
      semadj := fun undo other => if other = num then 0 else sma.semadj undo other
      ctime := now } := by
    refine settled.queued.congr ⟨rfl, rfl, rfl⟩ fun other => ?_
    show 0 ≤ ((sma.setSemval num value).setSempid num pid).semval other
    rw [semval_setSempid, semval_setSemval]
    split
    · exact not_lt.mp range.2
    · exact settled.queued.nonneg other
  obtain ⟨next, pt, update, after⟩ := doSmartUpdate_all queued false now
  simp only [update, map_some]
  exact ⟨_, rfl, after⟩

theorem setall_settled (values : Nat → Nat) (now : Nat) :
    ∃ next, (setall sma values now).map Prod.fst = some next ∧ Settled next := by
  unfold setall
  split
  · exact ⟨_, rfl, settled⟩
  have queued : Queued { sma with
      base := fun num => if num < sma.nsems then { sma.base num with semval := values num }
        else sma.base num
      semadj := fun undo num => if num < sma.nsems then 0 else sma.semadj undo num
      ctime := now } := by
    refine settled.queued.congr ⟨rfl, rfl, rfl⟩ fun other => ?_
    show 0 ≤ (if other < sma.nsems then { sma.base other with semval := values other }
      else sma.base other).semval
    split
    · exact Int.natCast_nonneg _
    · exact settled.queued.nonneg other
  obtain ⟨next, pt, update, after⟩ := doSmartUpdate_all queued false now
  simp only [update, map_some]
  exact ⟨_, rfl, after⟩

theorem exitSem_settled (un pid now : Nat) :
    ∃ next, (exitSem sma un pid now).map Prod.fst = some next ∧ Settled next := by
  have queued : Queued (exitAdjust sma un pid) := by
    refine settled.queued.congr ⟨rfl, rfl, rfl⟩ fun num => ?_
    show 0 ≤ (if num < sma.nsems ∧ (sma.semadj un num).toInt ≠ 0 then
      (⟨max 0 (min semvmx (sma.semval num + (sma.semadj un num).toInt)), pid⟩ : Semaphore)
      else sma.base num).semval
    split
    · exact le_max_left 0 _
    · exact settled.queued.nonneg num
  obtain ⟨next, pt, update, after⟩ := doSmartUpdate_all queued true now
  exact ⟨next, congrArg _ update, after⟩

end Calls

/-! ### Runs -/

/-- What happens to an array: calls, sleepers that give up, `SETVAL`, `SETALL`, and the exit of a
process. -/
inductive SemOp
  | semop (semopm : Nat) (call : SemCall) (now : Nat)
  | giveUp (id : Nat)
  | setval (num : Nat) (value : Int) (pid now : Nat)
  | setall (values : Nat → Nat) (now : Nat)
  | exitSem (un pid now : Nat)

/-- The queue entry of a call is on the stack of the caller: no sleeper has the same one. -/
def SemOp.possible (sma : SemArray) : SemOp → Prop
  | .semop _ call _ => call.id ∉ sma.pending.map SemQueue.id
  | _ => True

instance decidablePossible (sma : SemArray) (op : SemOp) : Decidable (op.possible sma) := by
  cases op <;> unfold SemOp.possible <;> infer_instance

def semStep (sma : SemArray) (op : SemOp) : Option SemArray :=
  if op.possible sma then
    match op with
    | .semop semopm call now => (semtimedop sma semopm call now).map Prod.fst
    | .giveUp id => some (giveUp sma id)
    | .setval num value pid now => (setval sma num value pid now).map Prod.fst
    | .setall values now => (setall sma values now).map Prod.fst
    | .exitSem un pid now => (exitSem sma un pid now).map Prod.fst
  else none

theorem semStep_settled (settled : Settled sma) {op : SemOp} (possible : op.possible sma) :
    ∃ next, semStep sma op = some next ∧ Settled next := by
  unfold semStep
  rw [if_pos possible]
  cases op with
  | semop semopm call now => exact semtimedop_settled settled semopm possible now
  | giveUp id => exact ⟨_, rfl, giveUp_settled settled id⟩
  | setval num value pid now => exact setval_settled settled num value pid now
  | setall values now => exact setall_settled settled values now
  | exitSem un pid now => exact exitSem_settled settled un pid now

/-- An array nobody waits for yet. -/
structure Unused (sma : SemArray) : Prop where
  pending : sma.pending = []
  simple : ∀ num, sma.simple num = []
  complexCount : sma.complexCount = 0
  nonneg : ∀ num, 0 ≤ sma.semval num

theorem Unused.settled (unused : Unused sma) : Settled sma := by
  obtain ⟨nsems, base, pending, simple, complexCount, semadj, otime, ctime⟩ := sma
  obtain ⟨rfl, simple, rfl, nonneg⟩ := unused
  exact ⟨⟨nodup_nil, simple, rfl, fun _ => nofun, .nil, nonneg⟩, fun _ => nofun⟩

/-- **No operation sleeps that could be done**: in every state of a run each call that sleeps would
have to sleep again, and the next call returns. -/
theorem sem_quiescent {start last : SemArray} (unused : Unused start) {ops : List SemOp}
    (run : exec semStep start ops = some last) :
    (∀ queue ∈ last.pending,
      (tryAtomicSemop last queue.sops queue.undo queue.pid).2 = .sleep) ∧
    ∀ op : SemOp, op.possible last → (semStep last op).isSome := by
  have settled : Settled last := by
    refine exec_invariant Settled (fun sma op next settled taken => ?_) unused.settled run
    have possible : op.possible sma := by
      by_contra impossible
      unfold semStep at taken
      rw [if_neg impossible] at taken
      cases taken
    obtain ⟨next', taken', after⟩ := semStep_settled settled possible
    rwa [← some.inj (taken'.symm.trans taken)]
  refine ⟨settled.quiescent, fun op possible => ?_⟩
  obtain ⟨next, taken, -⟩ := semStep_settled settled possible
  exact isSome_iff_exists.mpr ⟨next, taken⟩

def twoSems : SemArray := ⟨2, fun _ => ⟨0, 0⟩, [], fun _ => [], 0, fun _ _ => 0, 0, 0⟩

/-- Two decrements and a complex operation sleep; an increment lets one decrement through. -/
def sleepers : List SemOp :=
  [.semop 32 ⟨1, [⟨0, -1, false, true⟩], 5, 5, none, none⟩ 0,
    .semop 32 ⟨2, [⟨0, -2, false, false⟩], 6, 6, none, none⟩ 0,
    .semop 32 ⟨3, [⟨0, -1, false, false⟩, ⟨1, 1, false, false⟩], 7, 7, none, none⟩ 0,
    .semop 32 ⟨4, [⟨0, 1, false, false⟩], 8, 8, none, none⟩ 1]

theorem sem_quiescent_sleepers : ∃ last, exec semStep twoSems sleepers = some last ∧
    last.pending.map SemQueue.id = [2, 3] ∧ ∀ queue ∈ last.pending,
      (tryAtomicSemop last queue.sops queue.undo queue.pid).2 = .sleep := by
  have ends : (exec semStep twoSems sleepers).map (fun last => last.pending.map SemQueue.id) =
      some [2, 3] := by decide +kernel
  obtain ⟨last, run, ids⟩ := map_eq_some_iff.mp ends
  have unused : Unused twoSems := ⟨rfl, fun _ => rfl, rfl, fun _ => le_refl 0⟩
  exact ⟨last, run, ids, (sem_quiescent unused run).1⟩

end KernelImx.Sem
