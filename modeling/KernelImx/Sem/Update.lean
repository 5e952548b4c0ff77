/-
**A search for operations that can be completed** (`update_queue`).

A search walks over a queue and completes what it can. It starts again only when `check_restart` says
so, and that rests on the order of the queues.

* **`updateQueue_all`**, **`updateQueue_one`**: nobody in the list could go on after a search.
-/

import KernelImx.Sem.Semop

namespace KernelImx.Sem

open List Nat

/-! ### The queues -/

/-- What is known of a call that sleeps: a single operation is a decrement or waits for zero. -/
structure Sleepable (queue : SemQueue) : Prop where
  alters : queue.alter = queue.sops.any fun sop => sop.semOp ≠ 0
  nonempty : queue.sops ≠ []
  single : ∀ sop, queue.sops = [sop] → sop.semOp ≤ 0 ∧ sop.nowait = false

/-- **The invariant of the queues.** -/
structure Queued (sma : SemArray) : Prop where
  ids : (sma.pending.map SemQueue.id).Nodup
  lists : ∀ num, sma.simple num = sma.pending.filter (SemQueue.on num)
  count : sma.complexCount = sma.pending.countP fun queue => queue.sops.length ≠ 1
  sleepable : ∀ queue ∈ sma.pending, Sleepable queue
  order : sma.pending.Pairwise fun first second => first.alter = true → second.alter = true
  nonneg : ∀ num, 0 ≤ sma.semval num

def Blocked (sma : SemArray) (queue : SemQueue) : Prop :=
  (tryAtomicSemop sma queue.sops queue.undo queue.pid).2 = .sleep

variable {next sma : SemArray} {queue : SemQueue} {semnum : Option Nat} {num : Nat} {sop : Sembuf}
  {kept walk : List SemQueue}

theorem Blocked.congr (blocked : Blocked sma queue) (values : ∀ num, next.semval num = sma.semval num)
    (adj : next.semadj = sma.semadj) : Blocked next queue :=
  (tryAtomicSemop_congr values adj).trans blocked

theorem on_iff : queue.on num = true ↔ ∃ sop, queue.sops = [sop] ∧ sop.semNum = num := by
  unfold SemQueue.on
  split
  next sop eq => simp [eq]
  next other =>
    simp only [Bool.false_eq_true, false_iff, not_exists, not_and]
    intro sop eq
    exact absurd eq (other sop)

theorem Sleepable.alter_iff (sleepable : Sleepable queue) (one : queue.sops = [sop]) :
    queue.alter = true ↔ sop.semOp < 0 := by
  rw [sleepable.alters, one]
  have low := (sleepable.single sop one).1
  simp only [any_cons, any_nil, Bool.or_false, decide_eq_true_eq]
  omega

theorem Sleepable.blocked_iff (sleepable : Sleepable queue) (one : queue.sops = [sop]) :
    Blocked sma queue ↔ (sop.semOp = 0 ∧ sma.semval sop.semNum ≠ 0) ∨
      sma.semval sop.semNum + sop.semOp < 0 := by
  unfold Blocked
  rw [one, tryAtomicSemop_single, (sleepable.single sop one).2]
  simp

section

variable (queued : Queued sma)

include queued

theorem Queued.mem_simple : queue ∈ sma.simple num ↔
    queue ∈ sma.pending ∧ ∃ sop, queue.sops = [sop] ∧ sop.semNum = num := by
  rw [queued.lists, mem_filter, on_iff]

theorem Queued.mem_pendingList (member : queue ∈ pendingList sma semnum) : queue ∈ sma.pending := by
  cases semnum with
  | none => exact member
  | some num => exact (queued.mem_simple.mp member).1

theorem Queued.pendingList_sublist (semnum : Option Nat) :
    (pendingList sma semnum).Sublist sma.pending := by
  cases semnum with
  | none => exact Sublist.refl _
  | some num =>
    show (sma.simple num).Sublist sma.pending
    rw [queued.lists]
    exact filter_sublist

theorem Queued.single (simple : sma.complexCount = 0) (member : queue ∈ sma.pending) :
    ∃ sop, queue.sops = [sop] := by
  rw [queued.count, countP_eq_zero] at simple
  have one := simple queue member
  simp only [decide_not, Bool.not_eq_true', decide_eq_false_iff_not, not_not] at one
  exact length_eq_one_iff.mp one

theorem Queued.congr (same : SameQueues sma next) (nonneg : ∀ num, 0 ≤ next.semval num) :
    Queued next := by
  obtain ⟨nsems, base, pending, simple, complexCount, semadj, otime, ctime⟩ := next
  obtain ⟨rfl, rfl, rfl⟩ := same
  exact { queued with nonneg }

end

/-! ### A call leaves the queues -/

theorem filter_id {list front back : List SemQueue} (ids : (list.map SemQueue.id).Nodup)
    (parts : list = front ++ queue :: back) :
    (list.filter fun other => other.id ≠ queue.id) = front ++ back := by
  subst parts
  rw [map_append, map_cons] at ids
  have others := nodup_middle.mp ids
  rw [nodup_cons, mem_append] at others
  have keep : ∀ part : List SemQueue, queue.id ∉ part.map SemQueue.id →
      (part.filter fun other => other.id ≠ queue.id) = part := by
    intro part absent
    refine filter_eq_self.mpr fun other member => decide_eq_true fun same => absent ?_
    exact same ▸ mem_map_of_mem member
  rw [filter_append, filter_cons_of_neg (by simp), keep front fun h => others.1 (.inl h),
    keep back fun h => others.1 (.inr h)]

@[simp] theorem unlinkQueue_pending : (unlinkQueue sma queue).pending =
    sma.pending.filter fun other => other.id ≠ queue.id := by
  unfold unlinkQueue
  split <;> rfl

@[simp] theorem unlinkQueue_semval : (unlinkQueue sma queue).semval num = sma.semval num := by
  unfold unlinkQueue
  split <;> rfl

@[simp] theorem unlinkQueue_semadj : (unlinkQueue sma queue).semadj = sma.semadj := by
  unfold unlinkQueue
  split <;> rfl

theorem Queued.unlink (queued : Queued sma) (member : queue ∈ sma.pending) :
    Queued (unlinkQueue sma queue) := by
  obtain ⟨front, back, parts⟩ := append_of_mem member
  have rest := filter_id queued.ids parts
  have pending : (unlinkQueue sma queue).pending = front ++ back := by rw [unlinkQueue_pending, rest]
  have sub : (front ++ back).Sublist sma.pending := by
    rw [parts]
    exact (Sublist.refl front).append (sublist_cons_self queue back)
  have count := queued.count
  refine ⟨?_, fun num => ?_, ?_, fun other inside => ?_, ?_, fun num => ?_⟩
  · rw [pending]
    exact queued.ids.sublist (sub.map _)
  · rw [pending]
    unfold unlinkQueue
    split
    · show (sma.simple num).filter _ = _
      rw [queued.lists, ← rest, filter_comm]
    next complex =>
      have off : ¬ queue.on num = true := by
        rw [on_iff]
        rintro ⟨sop, one, -⟩
        exact complex (by rw [one]; rfl)
      rw [queued.lists, parts, filter_append, filter_cons_of_neg off, filter_append]
  · rw [pending]
    rw [parts, countP_append, countP_cons] at count
    unfold unlinkQueue
    split
    next one =>
      rw [count, countP_append]
      simp [one]
    next complex =>
      rw [count, countP_append]
      simp [complex]
  · rw [pending] at inside
    exact queued.sleepable other (sub.subset inside)
  · rw [pending]
    exact queued.order.sublist sub
  · rw [unlinkQueue_semval]
    exact queued.nonneg num

theorem Queued.pendingList_unlink (queued : Queued sma)
    (list : pendingList sma semnum = kept ++ queue :: walk) :
    pendingList (unlinkQueue sma queue) semnum = kept ++ walk := by
  have ids := queued.ids.sublist ((queued.pendingList_sublist semnum).map SemQueue.id)
  have rest := filter_id ids list
  cases semnum with
  | none =>
    show (unlinkQueue sma queue).pending = kept ++ walk
    rw [unlinkQueue_pending]
    exact rest
  | some num =>
    have member : queue ∈ sma.simple num := by
      show queue ∈ pendingList sma (some num)
      rw [list]
      exact mem_append_right _ mem_cons_self
    obtain ⟨-, sop, one, -⟩ := queued.mem_simple.mp member
    unfold unlinkQueue
    rw [if_pos (by rw [one]; rfl)]
    exact rest

/-! ### `check_restart` -/

variable {waiter : SemQueue}

theorem Queued.completed (queued : Queued sma) (member : queue ∈ sma.pending)
    (success : tryAtomicSemop sma queue.sops queue.undo queue.pid = (next, .done)) :
    Queued next ∧ Queued (unlinkQueue next queue) ∧ SameQueues sma next := by
  have made := tryAtomicSemop_made success
  have after := queued.congr made.queues fun num => made.nonneg num (queued.nonneg num)
  exact ⟨after, after.unlink (by rw [made.queues.pending]; exact member), made.queues⟩

theorem Queued.alter_of_head (queued : Queued sma) {head : SemQueue} {tail : List SemQueue}
    (list : sma.simple num = head :: tail) (alters : head.alter = true)
    (inside : queue ∈ sma.simple num) : queue.alter = true := by
  have order := queued.order.sublist (queued.pendingList_sublist (some num))
  rw [show pendingList sma (some num) = head :: tail from list, pairwise_cons] at order
  rw [list] at inside
  rcases mem_cons.mp inside with rfl | later
  · exact alters
  · exact order.1 queue later alters

/-- **What `check_restart` relies on**: no `BUG_ON` fires, and without a restart whoever was blocked
still is. -/
theorem checkRestart_spec (queued : Queued sma) (member : queue ∈ sma.pending)
    (success : tryAtomicSemop sma queue.sops queue.undo queue.pid = (next, .done)) :
    ∃ restart, checkRestart (unlinkQueue next queue) queue = some restart ∧
      (restart = false → ∀ waiter ∈ (unlinkQueue next queue).pending, Blocked sma waiter →
        Blocked (unlinkQueue next queue) waiter) := by
  have sleepable := queued.sleepable queue member
  obtain ⟨-, after, -⟩ := queued.completed member success
  have made := tryAtomicSemop_made success
  have values := made.values
  unfold checkRestart
  split
  · -- nothing was altered
    next reads =>
      rw [sleepable.alters, any_eq_false] at reads
      have zeros : ∀ sop ∈ queue.sops, sop.semOp = 0 := fun sop inside => by
        simpa using reads sop inside
      refine ⟨false, rfl, fun _ waiter _ blocked => blocked.congr (fun num => ?_) ?_⟩
      · rw [unlinkQueue_semval, values, opSum_zero num zeros, add_zero]
      · rw [unlinkQueue_semadj]
        exact made.semadj_eq zeros
  next alters =>
  split
  · exact ⟨true, rfl, fun no => Bool.noConfusion no⟩
  next simple =>
  split
  · exact ⟨true, rfl, fun no => Bool.noConfusion no⟩
  next short =>
  obtain ⟨sop, one⟩ : ∃ sop, queue.sops = [sop] := by
    rcases shape : queue.sops with _ | ⟨sop, _ | ⟨next, rest⟩⟩
    · exact absurd shape sleepable.nonempty
    · exact ⟨sop, rfl⟩
    · rw [shape] at short
      simp at short
  have decrement := (sleepable.alter_iff one).mp (by simpa using alters)
  have value : (unlinkQueue next queue).semval sop.semNum = sma.semval sop.semNum + sop.semOp := by
    rw [unlinkQueue_semval, values, one, opSum, opSum, if_pos rfl, add_zero]
  -- only the waiters for the same semaphore may go on
  have elsewhere : (∀ waiter ∈ (unlinkQueue next queue).simple sop.semNum, Blocked sma waiter →
      Blocked (unlinkQueue next queue) waiter) → ∀ waiter ∈ (unlinkQueue next queue).pending,
        Blocked sma waiter → Blocked (unlinkQueue next queue) waiter := by
    intro here waiter inside blocked
    obtain ⟨waiting, only⟩ := after.single (by simpa using simple) inside
    by_cases same : waiting.semNum = sop.semNum
    · exact here waiter (after.mem_simple.mpr ⟨inside, waiting, only, same⟩) blocked
    rw [(after.sleepable waiter inside).blocked_iff only] at blocked ⊢
    rwa [unlinkQueue_semval, values, one, opSum, opSum, if_neg (Ne.symm same), add_zero, add_zero]
  rw [one]
  dsimp only
  split
  next empty => exact ⟨false, rfl, fun _ => elsewhere (by rw [empty]; exact forall_mem_nil _)⟩
  next head tail list =>
  split
  next nonzero =>
    rw [if_neg (not_le.mpr decrement)]
    refine ⟨false, rfl, fun _ => elsewhere fun waiter listed blocked => ?_⟩
    obtain ⟨inside, waiting, only, same⟩ := after.mem_simple.mp listed
    rw [(after.sleepable waiter inside).blocked_iff only, same] at blocked ⊢
    rcases blocked with ⟨zero, -⟩ | less
    · exact .inl ⟨zero, nonzero⟩
    · exact .inr (by omega)
  next zero =>
    have here : head ∈ (unlinkQueue next queue).simple sop.semNum := by
      rw [list]
      exact mem_cons_self
    obtain ⟨isPending, first, single, num⟩ := after.mem_simple.mp here
    rw [single]
    simp only [num, ne_eq, not_true_eq_false, if_false]
    refine ⟨_, rfl, fun restart => elsewhere fun waiter listed _ => ?_⟩
    have waits := after.sleepable head isPending
    have alter := (waits.alter_iff single).mpr
      (lt_of_le_of_ne (waits.single first single).1 (of_decide_eq_false restart))
    obtain ⟨inside, waiting, only, same⟩ := after.mem_simple.mp listed
    have takes := ((after.sleepable waiter inside).alter_iff only).mp
      (after.alter_of_head list alter listed)
    refine ((after.sleepable waiter inside).blocked_iff only).mpr (.inr ?_)
    rw [same]
    omega

/-! ### A search -/

section Search

/-- What a search leaves alone: calls only leave the queues, and other semaphores do not change. -/
structure Progress (semnum : Option Nat) (start sma : SemArray) : Prop where
  sub : sma.pending.Sublist start.pending
  others : ∀ num ∈ semnum, ∀ other, other ≠ num → sma.semval other = start.semval other

theorem Progress.refl (sma : SemArray) : Progress semnum sma sma :=
  ⟨Sublist.refl _, fun _ _ _ _ => rfl⟩

variable {start : SemArray}

theorem Progress.unlink (progress : Progress semnum start sma) (queued : Queued sma)
    (listed : queue ∈ pendingList sma semnum) (same : SameQueues sma next)
    (values : ∀ num, next.semval num = sma.semval num ∨ ∃ sop ∈ queue.sops, sop.semNum = num) :
    Progress semnum start (unlinkQueue next queue) := by
  refine ⟨?_, fun num is other differ => ?_⟩
  · rw [unlinkQueue_pending, same.pending]
    exact filter_sublist.trans progress.sub
  rw [unlinkQueue_semval]
  rcases values other with kept | ⟨changed, inside, here⟩
  · exact kept.trans (progress.others num is other differ)
  · obtain rfl : semnum = some num := is
    obtain ⟨-, sop, one, at_⟩ := queued.mem_simple.mp listed
    rw [one, mem_singleton] at inside
    exact absurd (here.symm.trans (inside ▸ at_)) differ

theorem Queued.blocked_of_zero (queued : Queued sma)
    (list : pendingList sma semnum = kept ++ queue :: walk)
    (stop : ((semnum.any fun num => sma.semval num = 0) && queue.alter) = true)
    (ahead : waiter ∈ queue :: walk) : Blocked sma waiter := by
  obtain ⟨zero, alters⟩ := Bool.and_eq_true_iff.mp stop
  cases semnum with
  | none => cases zero
  | some num =>
    have value : sma.semval num = 0 := by simpa using zero
    have inside : waiter ∈ sma.simple num := by
      show waiter ∈ pendingList sma (some num)
      rw [list]
      exact mem_append_right _ ahead
    obtain ⟨isPending, sop, one, rfl⟩ := queued.mem_simple.mp inside
    have order := queued.order.sublist (queued.pendingList_sublist (some sop.semNum))
    rw [list, pairwise_append, pairwise_cons] at order
    have waits := queued.sleepable waiter isPending
    have alter : waiter.alter = true := by
      rcases mem_cons.mp ahead with rfl | later
      · exact alters
      · exact order.2.1.1 waiter later alters
    refine (waits.blocked_iff one).mpr (.inr ?_)
    rw [value, zero_add]
    exact (waits.alter_iff one).mp alter

/-- **The walk over the list.** Those it has passed are blocked. -/
theorem updateWalk_spec {rounds : Nat} {walk : List SemQueue} {up : SemUpdate} {kept : List SemQueue}
    (queued : Queued up.sma) (progress : Progress semnum start up.sma)
    (short : up.sma.pending.length ≤ rounds) (list : pendingList up.sma semnum = kept ++ walk)
    (blocked : ∀ queue ∈ kept, Blocked up.sma queue) :
    ∃ next again, updateWalk semnum up walk = some (next, again) ∧ Queued next.sma ∧
      Progress semnum start next.sma ∧
      (again = false → ∀ queue ∈ pendingList next.sma semnum, Blocked next.sma queue) ∧
      (again = true → next.sma.pending.length < rounds) := by
  induction walk generalizing up kept with
  | nil =>
    refine ⟨up, false, rfl, queued, progress, fun _ queue member => ?_, nofun⟩
    rw [list, append_nil] at member
    exact blocked queue member
  | cons queue walk ih =>
    have listed : queue ∈ pendingList up.sma semnum := by
      rw [list]
      exact mem_append_right _ mem_cons_self
    have member := queued.mem_pendingList listed
    have shorter : ∀ {next : SemArray}, SameQueues up.sma next →
        (unlinkQueue next queue).pending.length < rounds := by
      intro next same
      rw [unlinkQueue_pending, same.pending]
      exact (length_filter_lt_length_iff_exists.mpr ⟨queue, member, by simp⟩).trans_le short
    unfold updateWalk
    split
    · -- the semaphore is zero, and only decrements follow
      next stop =>
        refine ⟨up, false, rfl, queued, progress, fun _ waiter inside => ?_, nofun⟩
        rw [list] at inside
        rcases mem_append.mp inside with passed | ahead
        · exact blocked waiter passed
        · exact queued.blocked_of_zero list stop ahead
    cases result : tryAtomicSemop up.sma queue.sops queue.undo queue.pid with
    | mk after answer =>
      cases answer with
      | sleep =>
        obtain rfl := tryAtomicSemop_not_done result nofun
        refine @ih up (kept ++ [queue]) queued progress short (by rw [list, append_assoc]; rfl) ?_
        exact forall_mem_append.mpr
          ⟨blocked, forall_mem_singleton.mpr (congrArg Prod.snd result)⟩
      | failed err =>
        obtain rfl := tryAtomicSemop_not_done result nofun
        exact @ih ⟨unlinkQueue up.sma queue, up.pt ++ [(queue, .failed err)], up.completed⟩ kept
          (queued.unlink member) (progress.unlink queued listed (.refl _) fun _ => .inl rfl)
          (shorter (.refl _)).le (queued.pendingList_unlink list) fun waiter inside =>
            (blocked waiter inside).congr (fun _ => unlinkQueue_semval) unlinkQueue_semadj
      | done =>
        obtain ⟨queuedNext, queuedAfter, same⟩ := queued.completed member result
        have further : Progress semnum start (unlinkQueue after queue) := by
          refine progress.unlink queued listed same fun num => ?_
          by_cases here : ∃ sop ∈ queue.sops, sop.semNum = num
          · exact .inr here
          · exact .inl (by rw [(tryAtomicSemop_made result).values, opSum_absent num here, add_zero])
        have lists : pendingList after semnum = kept ++ queue :: walk := by
          rw [← list]
          cases semnum with
          | none => exact same.pending
          | some num => exact congrFun same.simple num
        obtain ⟨restart, check, stays⟩ := checkRestart_spec queued member result
        simp only [check]
        cases restart with
        | true => exact ⟨_, true, rfl, queuedAfter, further, nofun, fun _ => shorter same⟩
        | false =>
          have list' := queuedNext.pendingList_unlink lists
          exact @ih ⟨unlinkQueue after queue, up.pt ++ [(queue, .done)], true⟩ kept queuedAfter
            further (shorter same).le list' fun waiter inside =>
              stays rfl waiter (queuedAfter.mem_pendingList
                (by rw [list']; exact mem_append_left _ inside)) (blocked waiter inside)

/-- **The rounds of a search** end, and nobody in the list could go on. -/
theorem updateRounds_spec {rounds : Nat} {up : SemUpdate} (queued : Queued up.sma)
    (progress : Progress semnum start up.sma) (short : up.sma.pending.length < rounds) :
    ∃ next, updateRounds semnum rounds up = some next ∧ Queued next.sma ∧
      Progress semnum start next.sma ∧
      ∀ queue ∈ pendingList next.sma semnum, Blocked next.sma queue := by
  induction rounds generalizing up with
  | zero =>
    exact absurd short (not_lt_zero _)
  | succ rounds ih =>
    obtain ⟨next, again, walked, after, progress, quiet, shorter⟩ :=
      @updateWalk_spec semnum _ rounds (pendingList up.sma semnum) up [] queued progress
        (le_of_lt_succ short) rfl nofun
    unfold updateRounds
    rw [walked]
    cases again with
    | false => exact ⟨next, rfl, after, progress, quiet rfl⟩
    | true => exact ih after progress (shorter rfl)

theorem Queued.complexCount_eq_zero (before : Queued sma) (after : Queued next)
    (sub : next.pending.Sublist sma.pending) (simple : sma.complexCount = 0) :
    next.complexCount = 0 := by
  have fewer : next.complexCount ≤ sma.complexCount := by
    rw [before.count, after.count]
    exact sub.countP_le
  rw [simple] at fewer
  exact le_zero.mp fewer

theorem updateQueue_all (queued : Queued sma) (pt : List (SemQueue × SemResult)) :
    ∃ next, updateQueue sma none pt = some next ∧ Queued next.sma ∧
      ∀ queue ∈ next.sma.pending, Blocked next.sma queue := by
  unfold updateQueue
  rw [ite_self]
  obtain ⟨next, run, after, -, quiet⟩ :=
    @updateRounds_spec none sma (sma.pending.length + 1) ⟨sma, pt, false⟩ queued (.refl _)
      (lt_succ_self _)
  exact ⟨next, run, after, quiet⟩

/-- **A search of the list of a semaphore**, without complex operations. -/
theorem updateQueue_one (queued : Queued sma) (simple : sma.complexCount = 0) (num : Nat)
    (pt : List (SemQueue × SemResult)) :
    ∃ next, updateQueue sma (some num) pt = some next ∧ Queued next.sma ∧
      Progress (some num) sma next.sma ∧ ∀ queue ∈ next.sma.simple num, Blocked next.sma queue := by
  unfold updateQueue
  rw [if_neg (not_not.mpr simple)]
  exact @updateRounds_spec (some num) sma (sma.pending.length + 1) ⟨sma, pt, false⟩ queued (.refl _)
    (lt_succ_self _)

end Search

end KernelImx.Sem
