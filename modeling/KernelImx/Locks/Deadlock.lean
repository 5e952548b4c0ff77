/-
**Deadlock detection for record locks** (`posix_locks_deadlock`).

Before a request goes to sleep, the kernel follows the chain of waiters from the owner of the lock in
its way and refuses the request when the chain comes back to the caller. It gives up after
`MAX_DEADLK_ITERATIONS`.

Main result: `posix_locks_acyclic`.
-/

import KernelImx.Lib.Acyclic
import KernelImx.Locks.Waiters

namespace KernelImx.Locks

open List KernelImx.Lib Relation Option

variable {Owner : Type}

/-- The owner of a blocked request waits for the owner of its blocker. -/
def WaitsFor (blocked : List (Blocked Owner)) (waiter holder : Owner) : Prop :=
  ∃ entry ∈ blocked, entry.waiter.flOwner = waiter ∧ entry.nextOwner = holder

instance decidableWaitsFor [DecidableEq Owner] (blocked : List (Blocked Owner)) (waiter holder : Owner) :
    Decidable (WaitsFor blocked waiter holder) :=
  inferInstanceAs (Decidable (∃ entry ∈ blocked, _))

def waitingOwners (blocked : List (Blocked Owner)) : List Owner :=
  blocked.map fun entry => entry.waiter.flOwner

variable [DecidableEq Owner]

/-! ### The search -/

section Search

variable {blocked : List (Blocked Owner)} {caller block : Owner}

theorem whatOwnerIsWaitingFor_eq (single : (waitingOwners blocked).Nodup) {next : Owner}
    (waits : WaitsFor blocked block next) : whatOwnerIsWaitingFor blocked block = some next := by
  obtain ⟨entry, member, rfl, rfl⟩ := waits
  unfold whatOwnerIsWaitingFor
  cases found : blocked.find? fun other => other.waiter.flOwner = entry.waiter.flOwner with
  | none =>
    have other := find?_eq_none.mp found entry member
    simp at other
  | some other =>
    have same : other.waiter.flOwner = entry.waiter.flOwner := by
      simpa using find?_some found
    have here := mem_of_find?_eq_some found
    rw [inj_on_of_nodup_map single here member same]
    rfl

/-- The search gives up: it would go on, but it has compared enough owners. -/
def givesUp (blocked : List (Blocked Owner)) (caller : Owner) : Nat → Owner → Bool
  | 0, block => (whatOwnerIsWaitingFor blocked block).isSome
  | left + 1, block =>
    match whatOwnerIsWaitingFor blocked block with
    | none => false
    | some next => if caller = next then false else givesUp blocked caller left next

/-- **A search that does not give up sees everyone the blocker waits for.** -/
theorem posixLocksDeadlock_sound (single : (waitingOwners blocked).Nodup) {left : Nat}
    {block : Owner} (clear : posixLocksDeadlockLoop blocked caller left block = false)
    (ends : givesUp blocked caller left block = false) :
    ¬ TransGen (WaitsFor blocked) block caller := by
  induction left generalizing block with
  | zero =>
    intro way
    obtain ⟨next, first, -⟩ := TransGen.head'_iff.mp way
    simp [givesUp, whatOwnerIsWaitingFor_eq single first] at ends
  | succ left ih =>
    intro way
    obtain ⟨next, first, rest⟩ := TransGen.head'_iff.mp way
    simp only [posixLocksDeadlockLoop, givesUp, whatOwnerIsWaitingFor_eq single first] at clear ends
    split at clear
    · cases clear
    next differ =>
      rw [if_neg differ] at ends
      rcases reflTransGen_iff_eq_or_transGen.mp rest with same | further
      · exact differ same
      · exact ih clear ends further

end Search

/-! ### Runs -/

/-- The owner of a request that has to wait does not wait for another lock already. -/
def OneAtATime (state : LockState Owner) : LockOp Owner → Prop
  | .lock inode request alloc alloc2 =>
    (posixLockFile state inode request alloc alloc2).2.1 = .deferred →
      request.flOwner ∉ waitingOwners state.blockedList
  | .deleteBlock _ => True

def SearchEnds (state : LockState Owner) : LockOp Owner → Prop
  | .lock inode request _ _ =>
    ∀ fl ∈ conflicting (state.flock inode) request, request.sleep = true →
      givesUp state.blockedList request.flOwner (maxDeadlkIterations + 1) fl.flOwner = false
  | .deleteBlock _ => True

instance decidableOneAtATime (state : LockState Owner) (op : LockOp Owner) :
    Decidable (OneAtATime state op) := by
  cases op <;> unfold OneAtATime <;> infer_instance

instance decidableSearchEnds (state : LockState Owner) (op : LockOp Owner) :
    Decidable (SearchEnds state op) := by
  cases op <;> unfold SearchEnds <;> infer_instance

/-- The invariant: one wait for each owner, and no cycle. -/
structure NoDeadlock (blocked : List (Blocked Owner)) : Prop where
  single : (waitingOwners blocked).Nodup
  acyclic : Acyclic (WaitsFor blocked)

section Step

variable {blocked : List (Blocked Owner)}

omit [DecidableEq Owner] in
theorem NoDeadlock.filter (clear : NoDeadlock blocked) (stays : Blocked Owner → Bool) :
    NoDeadlock (blocked.filter stays) := by
  refine ⟨clear.single.sublist (filter_sublist.map _), clear.acyclic.mono ?_⟩
  rintro a b ⟨entry, member, owners⟩
  exact ⟨entry, mem_of_mem_filter member, owners⟩

theorem NoDeadlock.cons (clear : NoDeadlock blocked) {request : LockRequest Owner} {holder : Owner}
    (differ : request.flOwner ≠ holder) (awake : request.flOwner ∉ waitingOwners blocked)
    (search : posixLocksDeadlock blocked request.flOwner holder = false)
    (ends : givesUp blocked request.flOwner (maxDeadlkIterations + 1) holder = false) :
    NoDeadlock (⟨request, holder⟩ :: blocked) := by
  refine ⟨nodup_cons.mpr ⟨awake, clear.single⟩, ?_⟩
  have noWay : ¬ ReflTransGen (WaitsFor blocked) holder request.flOwner := by
    intro way
    rcases reflTransGen_iff_eq_or_transGen.mp way with same | further
    · exact differ same
    · exact posixLocksDeadlock_sound clear.single search ends further
  refine (clear.acyclic.insert noWay).mono ?_
  rintro a b ⟨entry, member, rfl, rfl⟩
  rcases mem_cons.mp member with rfl | old
  · exact .inr ⟨rfl, rfl⟩
  · exact .inl ⟨entry, old, rfl, rfl⟩

theorem lockStep_noDeadlock (state : LockState Owner) (op : LockOp Owner) (next : LockState Owner)
    (clear : NoDeadlock state.blockedList) (good : OneAtATime state op ∧ SearchEnds state op)
    (taken : lockStep state op = some next) : NoDeadlock next.blockedList := by
  obtain ⟨single, ends⟩ := good
  cases op with
  | deleteBlock id =>
    cases taken
    exact clear.filter _
  | lock inode request alloc alloc2 =>
    unfold lockStep at taken
    simp only at taken
    split at taken
    · cases taken
      unfold OneAtATime posixLockFile at single
      unfold posixLockFile
      cases found : conflicting (state.flock inode) request with
      | none =>
        simp only
        split
        · exact clear
        · exact clear.filter _
      | some fl =>
        simp only [found] at single ⊢
        by_cases sleeps : request.sleep = true
        · cases search : posixLocksDeadlock state.blockedList request.flOwner fl.flOwner with
          | true => simpa [sleeps] using clear
          | false =>
            have conflicts : posixLocksConflict request fl = true := by
              unfold conflicting at found
              split at found
              · cases found
              · exact find?_some found
            have awake := single (by simp [sleeps, search])
            have after := clear.cons (posixLocksConflict_iff.mp conflicts).2.1 awake search
              (ends fl found sleeps)
            simpa [sleeps] using after
        · simpa [sleeps] using clear
    · cases taken

end Step

/-- **No run makes a cycle** in the waits-for relation, when each owner waits for one lock at a time
and no search for a deadlock gives up. -/
theorem posix_locks_acyclic (start last : LockState Owner) (ops : List (LockOp Owner))
    (unlocked : Unlocked start)
    (along : Along lockStep (fun state op => OneAtATime state op ∧ SearchEnds state op) start ops)
    (run : exec lockStep start ops = some last) : Acyclic (WaitsFor last.blockedList) := by
  have clear : NoDeadlock start.blockedList := by
    rw [unlocked.awake]
    refine ⟨nodup_nil, fun a cycle => ?_⟩
    obtain ⟨b, ⟨entry, member, -⟩, -⟩ := TransGen.head'_iff.mp cycle
    cases member
  exact (exec_invariant_along (fun state => NoDeadlock state.blockedList) lockStep_noDeadlock clear
    along run).acyclic

def askFor (id owner : Nat) (byte : Int) : LockOp Nat :=
  .lock 0 ⟨id, owner, .wrlck, byte, byte, false, true, false⟩ true true

/-- Each of the owners `0` to `count` locks a byte and then, the last one first, asks for the byte
of the next one; the last asks for that of the first. -/
def ring (count : Nat) : List (LockOp Nat) :=
  ((range (count + 1)).map fun owner => askFor owner owner owner) ++
    ((range count).reverse.map fun owner => askFor (100 + owner) owner (owner + 1)) ++
    [askFor (100 + count) count 0]

def noLocks : LockState Nat := ⟨fun _ => [], []⟩

theorem noLocks_unlocked : Unlocked noLocks := ⟨fun _ => nodup_nil, fun _ _ => nofun, rfl⟩

/-- Three owners: the last request is refused, and two of them wait. -/
theorem posix_locks_acyclic_three : ∃ last, exec lockStep noLocks (ring 2) = some last ∧
    last.blockedList.length = 2 ∧ Acyclic (WaitsFor last.blockedList) := by
  have enabled : (exec lockStep noLocks (ring 2)).map (fun last => last.blockedList.length) =
      some 2 := by
    decide +kernel
  obtain ⟨last, run, waiting⟩ := map_eq_some_iff.mp enabled
  exact ⟨last, run, waiting,
    posix_locks_acyclic noLocks last (ring 2) noLocks_unlocked (by decide +kernel) run⟩

/-- **A ring of thirteen owners is not found**: the search gives up before it comes to the caller.
-/
theorem long_cycle_undetected : Along lockStep OneAtATime noLocks (ring 12) ∧
    ∃ last, exec lockStep noLocks (ring 12) = some last ∧ ¬ Acyclic (WaitsFor last.blockedList) := by
  refine ⟨by decide +kernel, ?_⟩
  have ends : (exec lockStep noLocks (ring 12)).map (fun last =>
      decide (∀ owner ∈ range 13, WaitsFor last.blockedList owner ((owner + 1) % 13))) =
      some true := by
    decide +kernel
  obtain ⟨last, run, waits⟩ := map_eq_some_iff.mp ends
  have edge : ∀ owner < 13, WaitsFor last.blockedList owner ((owner + 1) % 13) :=
    fun owner small => of_decide_eq_true waits owner (mem_range.mpr small)
  refine ⟨last, run, fun acyclic => acyclic 0 ?_⟩
  have way : ∀ owner < 12, TransGen (WaitsFor last.blockedList) 0 (owner + 1) := by
    intro owner small
    induction owner with
    | zero => exact .single (edge 0 (by decide))
    | succ owner ih =>
      have next := edge (owner + 1) (by omega)
      rw [Nat.mod_eq_of_lt (by omega)] at next
      exact (ih (by omega)).tail next
  exact (way 11 (by decide)).tail (edge 12 (by decide))

end KernelImx.Locks
