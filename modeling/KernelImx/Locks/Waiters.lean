/-
**Waiters for record locks.**

Over whole runs of `__posix_lock_file`, by any owners on any inodes, the locks of two owners exclude
each other and nobody sleeps without reason.

Main results: `failed_lock_changes_nothing`, `posix_test_lock_iff`, `posix_lock_waiters`.
-/

import KernelImx.Lib.Runs
import KernelImx.Locks.ByteMap

set_option linter.unusedSectionVars false

namespace KernelImx.Locks

open List KernelImx.Lib Function

variable {Owner : Type} {flType : LockType} {list locks after front own new back : List (FileLock Owner)}
  {owner : Owner} {added : Bool} {left newFl2 newFl : Option Nat} {flStart flEnd : Int} {inode : Nat}
  {scan : LockScan Owner} {fl first second : FileLock Owner} {request waiter : LockRequest Owner}
  {state : LockState Owner} {blocked : List (Blocked Owner)} {woken : List (LockRequest Owner)}

/-! ### A request that fails -/

section Failed

variable (pass : Pass owner flType flStart flEnd added left list scan)

include pass

theorem Pass.goes_on (set : added = true) (after : ∀ fl ∈ list, flStart ≤ fl.flStart)
    (outside : ∀ fl ∈ list, left ≠ some fl.id) :
    ¬ (scan.added = false ∨ scan.right.isSome ∧ scan.left = scan.right) := by
  rw [pass.stays_added set, (pass.left_kept after).2]
  rintro (nothing | ⟨found, same⟩)
  · cases nothing
  obtain ⟨id, found⟩ := Option.isSome_iff_exists.mp found
  refine (pass.ne_of_apart fun fl member is => outside fl member ?_).1 found
  rw [same, found, is]

/-- **The pass only walked along the list** when it has added nothing, or when a lock is to be
broken in two. -/
theorem Pass.untouched (locks : OwnLocks owner list) (outside : ∀ fl ∈ list, left ≠ some fl.id)
    (stops : scan.added = false ∨ scan.right.isSome ∧ scan.left = scan.right) :
    scan.done ++ scan.rest = list ∧ scan.woken = [] := by
  induction pass with
  | stop | right => exact ⟨rfl, rfl⟩
  | before _ _ ih =>
    obtain ⟨rfl, quiet⟩ := ih locks.tail (forall_mem_cons.mp outside).2 stops
    exact ⟨rfl, quiet⟩
  | left _ _ _ _ _ ih =>
    obtain ⟨rfl, quiet⟩ := ih locks.tail
      (fun other member found => locks.apart other member (Option.some.inj found).symm) stops
    exact ⟨rfl, quiet⟩
  | delete _ _ rest | claim _ _ _ _ _ rest =>
    refine absurd stops (rest.goes_on rfl (fun other member => ?_) (forall_mem_cons.mp outside).2)
    have := locks.head.range.ordered
    have := locks.later other member
    omega

end Failed

/-- **A request that fails changes nothing** and wakes nobody up. -/
theorem setLock_failed [DecidableEq Owner] (wf : WellFormed list)
    (failed : (setLock request newFl newFl2 list).2.1 ≠ .granted) :
    (setLock request newFl newFl2 list).1 = list ∧ (setLock request newFl newFl2 list).2.2 = [] := by
  obtain ⟨front, own, back, scan, rfl, -, locks, pass, call⟩ := wf.pass request
  have kept (stops : scan.added = false ∨ scan.right.isSome ∧ scan.left = scan.right) :
      front ++ (scan.done ++ (scan.rest ++ back)) = front ++ (own ++ back) ∧ scan.woken = [] := by
    obtain ⟨rfl, quiet⟩ := pass.untouched locks (fun _ _ => nofun) stops
    exact ⟨by rw [append_assoc], quiet⟩
  rw [call] at failed ⊢
  rcases finishLock_cases request newFl newFl2 front (scan.extend back) with
    ⟨_, result, stops, -⟩ | ⟨-, -, result⟩
  · rw [result]
    exact kept stops
  · rw [result] at failed
    exact absurd rfl failed

/-- **A request that fails leaves the state as it was.** -/
theorem failed_lock_changes_nothing [DecidableEq Owner] {state : LockState Owner} {inode : Nat}
    {alloc alloc2 : Bool} {err : Errno} (wf : WellFormed (state.flock inode))
    (failed : (posixLockFile state inode request alloc alloc2).2.1 = .failed err) :
    (posixLockFile state inode request alloc alloc2).1 = state := by
  unfold posixLockFile at failed ⊢
  cases conflict : conflicting (state.flock inode) request with
  | some fl =>
    rw [conflict] at failed
    dsimp only at failed ⊢
    split_ifs at failed ⊢
    · rfl
    · rfl
  | none =>
    rw [conflict] at failed
    dsimp only at failed ⊢
    by_cases asks : request.access = true
    · rw [if_pos asks]
    rw [if_neg asks] at failed ⊢
    obtain ⟨locks, woken⟩ := setLock_failed wf fun granted => by
      cases granted.symm.trans failed
    have same : state.setFlock inode (state.flock inode) = state :=
      congrArg (LockState.mk · _) (funext fun other => ite_eq_right_iff.mpr fun here => here ▸ rfl)
    have quiet : unblock state.blockedList [] = state.blockedList := filter_eq_self.mpr fun _ _ => rfl
    rw [locks, woken, same, quiet]

theorem failed_lock_changes_nothing_split :
    (posixLockFile wholeFile 0 unlockMiddle true false).2.1 = .failed .enolck ∧
      (posixLockFile wholeFile 0 unlockMiddle true false).1 = wholeFile := by
  have failed : (posixLockFile wholeFile 0 unlockMiddle true false).2.1 = .failed .enolck := by
    decide +kernel
  exact ⟨failed, failed_lock_changes_nothing
    (wellFormed_singleton ⟨⟨by decide, by decide, by decide⟩, nofun⟩) failed⟩

/-! ### A waiter stays or is woken up -/

/-- Somebody who waited for the lock still waits for it, among the locks given. -/
def StillWaits (fl : FileLock Owner) (waiter : LockRequest Owner) (locks : List (FileLock Owner)) :
    Prop :=
  ∃ after ∈ locks, after.kind = fl.kind ∧ after.flOwner = fl.flOwner ∧ waiter ∈ after.flBlock

theorem StillWaits.mono (waits : StillWaits fl waiter locks) (more : ∀ after ∈ locks, after ∈ list) :
    StillWaits fl waiter list := by
  obtain ⟨after, member, same⟩ := waits
  exact ⟨after, more after member, same⟩

theorem StillWaits.refl (member : fl ∈ list) (waits : waiter ∈ fl.flBlock) : StillWaits fl waiter list :=
  ⟨fl, member, rfl, rfl, waits⟩

theorem stillWaits_cons (kept : waiter ∈ woken ∨ StillWaits fl waiter locks) :
    waiter ∈ woken ∨ StillWaits fl waiter (first :: locks) :=
  kept.imp_right fun waits => waits.mono fun _ => mem_cons_of_mem _

theorem Pass.waiters (pass : Pass owner flType flStart flEnd added left list scan) :
    ∀ fl ∈ list, ∀ waiter ∈ fl.flBlock,
      waiter ∈ scan.woken ∨ StillWaits fl waiter (scan.done ++ scan.rest) := by
  induction pass with
  | stop | right => exact fun fl member waiter waits => .inr (.refl member waits)
  | before _ _ ih | left _ _ _ _ _ ih =>
    refine forall_mem_cons.mpr ⟨fun waiter waits => ?_, fun fl member waiter waits => ?_⟩
    · exact .inr (.refl mem_cons_self waits)
    · exact stillWaits_cons (ih fl member waiter waits)
  | delete _ _ _ ih =>
    refine forall_mem_cons.mpr ⟨fun waiter waits => ?_, fun fl member waiter waits => ?_⟩
    · exact .inl (mem_append_left _ waits)
    · exact (ih fl member waiter waits).imp_left (mem_append_right _)
  | claim _ _ _ _ kept _ ih =>
    refine forall_mem_cons.mpr ⟨fun waiter waits => ?_, fun fl member waiter waits => ?_⟩
    · rcases kept with ⟨same, -⟩ | ⟨same, -⟩
      · exact .inr ⟨_, mem_cons_self, rfl, rfl, same ▸ waits⟩
      · exact .inl (mem_append_left _ (same ▸ waits))
    · exact stillWaits_cons ((ih fl member waiter waits).imp_left (mem_append_right _))

theorem mem_waitersOf {id : Option Nat} (member : fl ∈ list) (same : id = some fl.id)
    (waits : waiter ∈ fl.flBlock) : waiter ∈ waitersOf list id :=
  mem_flatMap.mpr ⟨fl, mem_filter.mpr ⟨member, decide_eq_true same⟩, waits⟩

theorem trim_waiter (newFl2 : Option Nat) (member : fl ∈ list) (waits : waiter ∈ fl.flBlock) :
    waiter ∈ (scan.trim newFl2 fl).flBlock ∨
      waiter ∈ waitersOf list scan.right ++ waitersOf list (scan.newLeft newFl2) := by
  by_cases isRight : scan.right = some fl.id
  · exact .inr (mem_append_left _ (mem_waitersOf member isRight waits))
  · by_cases isLeft : scan.newLeft newFl2 = some fl.id
    · exact .inr (mem_append_right _ (mem_waitersOf member isLeft waits))
    · exact .inl (by rwa [trim_of_ne isRight isLeft])

/-- **A waiter stays on its lock or is woken up**, whatever the request returns. -/
theorem setLock_waiter [DecidableEq Owner] (request : LockRequest Owner) (newFl newFl2 : Option Nat)
    (member : fl ∈ list) (waits : waiter ∈ fl.flBlock) :
    waiter ∈ (setLock request newFl newFl2 list).2.2 ∨
      StillWaits fl waiter (setLock request newFl newFl2 list).1 := by
  have pass := ownLocks_pass request.flOwner request.flType request.flStart request.flEnd false
    none (list.dropWhile (skipped request.flOwner))
  unfold setLock
  generalize ownLocks request.flOwner request.flType request.flStart request.flEnd false none
    (list.dropWhile (skipped request.flOwner)) = scan at pass ⊢
  have kept : waiter ∈ scan.woken ∨ StillWaits fl waiter
      (list.takeWhile (skipped request.flOwner) ++ (scan.done ++ scan.rest)) := by
    rw [← takeWhile_append_dropWhile (p := skipped request.flOwner) (l := list)] at member
    rcases mem_append.mp member with front | own
    · exact .inr (.refl (mem_append_left _ front) waits)
    · exact (pass.waiters fl own waiter waits).imp_right fun waits =>
        waits.mono fun _ => mem_append_right _
  rcases finishLock_cases request newFl newFl2 (list.takeWhile (skipped request.flOwner)) scan with
    ⟨_, result, -, -⟩ | ⟨-, -, result⟩ <;> rw [result]
  · exact kept
  rcases kept with woken | ⟨after, inside, kind, owner, waits⟩
  · exact .inl (mem_append_left _ (mem_append_left _ woken))
  have here : after ∈ list.takeWhile (skipped request.flOwner) ++
      scan.locks request newFl newFl2 := by
    simp only [LockScan.locks, mem_append] at inside ⊢
    tauto
  rcases trim_waiter newFl2 here waits with stays | woken
  · have same := (Grown.refl after).trim scan newFl2
    exact .inr ⟨_, mem_map_of_mem here, same.kind.trans kind,
      same.owner.trans owner, stays⟩
  · rw [append_assoc]
    exact .inl (mem_append_right _ woken)

/-! ### Exclusion -/

variable [DecidableEq Owner]

theorem posixLocksConflict_iff : posixLocksConflict request fl = true ↔
    fl.kind = .posix ∧ request.flOwner ≠ fl.flOwner ∧
      (fl.flStart ≤ request.flEnd ∧ request.flStart ≤ fl.flEnd) ∧
      (fl.flType = .wrlck ∨ request.flType = .wrlck) := by
  have overlap : locksOverlap request fl = true ↔
      fl.flStart ≤ request.flEnd ∧ request.flStart ≤ fl.flEnd := by simp [locksOverlap]
  have conflict : locksConflict request.flType fl.flType = true ↔
      fl.flType = .wrlck ∨ request.flType = .wrlck := by simp [locksConflict]
  unfold posixLocksConflict
  rw [← overlap, ← conflict]
  split
  next other => simp; tauto
  next same =>
    rw [not_or, not_not] at same
    by_cases meets : locksOverlap request fl = true
    · simp [meets, same.1, same.2]
    · simp [meets]

theorem lockMap_eq_iff (wf : WellFormed list) {byte : Int} (locks : flType ≠ .unlck) :
    lockMap list owner byte = flType ↔
      ∃ fl ∈ list, fl.kind = .posix ∧ fl.flOwner = owner ∧ fl.flType = flType ∧
        fl.flStart ≤ byte ∧ byte ≤ fl.flEnd := by
  have found : lockMap list owner byte = flType ↔ tagAt (extentsOf list owner) byte = some flType := by
    unfold lockMap
    cases tagAt (extentsOf list owner) byte with
    | none => simp [locks.symm]
    | some other => simp
  rw [found, (wf.laid owner).tagAt_eq_some_iff]
  constructor
  · rintro ⟨extent, member, rfl, lower, upper⟩
    obtain ⟨fl, inside, rfl⟩ := mem_map.mp member
    obtain ⟨inList, held⟩ := mem_filter.mp inside
    exact ⟨fl, inList, (heldBy_iff.mp held).1, (heldBy_iff.mp held).2, rfl, lower, upper⟩
  · rintro ⟨fl, member, posix, owns, rfl, lower, upper⟩
    exact ⟨fl.extent, mem_map_of_mem (mem_filter.mpr ⟨member, heldBy_iff.mpr ⟨posix, owns⟩⟩),
      rfl, lower, upper⟩

/-- Nobody else holds a byte on which an owner has a write lock. -/
def Exclusive (list : List (FileLock Owner)) : Prop :=
  ∀ owner other byte, owner ≠ other → lockMap list owner byte = .wrlck →
    lockMap list other byte = .unlck

theorem not_conflicting (free : conflicting list request = none) (locks : request.flType ≠ .unlck)
    (member : fl ∈ list) : ¬ posixLocksConflict request fl = true := by
  rw [conflicting, if_neg locks, find?_eq_none] at free
  exact free fl member

/-- **A granted request keeps the exclusion**: nothing of another owner conflicts with it. -/
theorem Exclusive.granted (exclusive : Exclusive list) (wf : WellFormed list)
    (free : conflicting list request = none)
    (map : ∀ owner byte, lockMap after owner byte =
      if owner = request.flOwner ∧ request.flStart ≤ byte ∧ byte ≤ request.flEnd then request.flType
      else lockMap list owner byte) : Exclusive after := by
  intro owner other byte differ writes
  rw [map] at writes ⊢
  split at writes
  next mine =>
    rw [if_neg fun both => differ (mine.1.trans both.1.symm)]
    by_contra held
    obtain ⟨fl, member, posix, owns, -, lower, upper⟩ := (lockMap_eq_iff wf held).mp rfl
    refine not_conflicting free (by simp [writes]) member (posixLocksConflict_iff.mpr ?_)
    exact ⟨posix, mine.1 ▸ owns ▸ differ, ⟨lower.trans mine.2.2, mine.2.1.trans upper⟩,
      .inr writes⟩
  · split
    next mine =>
      by_contra locks
      obtain ⟨fl, member, posix, owns, type, lower, upper⟩ :=
        (lockMap_eq_iff wf (by decide : LockType.wrlck ≠ .unlck)).mp
        writes
      refine not_conflicting free locks member (posixLocksConflict_iff.mpr ?_)
      exact ⟨posix, mine.1 ▸ owns ▸ differ.symm, ⟨lower.trans mine.2.2, mine.2.1.trans upper⟩,
        .inl type⟩
    · exact exclusive owner other byte differ writes

theorem Exclusive.not_wrlck (exclusive : Exclusive list) (wf : WellFormed list)
    (firstIn : first ∈ list) (secondIn : second ∈ list)
    (firstPosix : first.kind = .posix) (secondPosix : second.kind = .posix)
    (differ : first.flOwner ≠ second.flOwner)
    (overlap : first.flStart ≤ second.flEnd ∧ second.flStart ≤ first.flEnd) :
    first.flType ≠ .wrlck := by
  intro writes
  have firstValid := wf.valid first firstIn firstPosix
  have secondValid := wf.valid second secondIn secondPosix
  have holds : lockMap list second.flOwner (max first.flStart second.flStart) = second.flType := by
    refine (lockMap_eq_iff wf secondValid.typed).mpr ⟨second, secondIn, secondPosix, rfl, rfl,
      le_max_right _ _, max_le overlap.1 secondValid.range.ordered⟩
  refine secondValid.typed (holds.symm.trans (exclusive first.flOwner _ _ differ ?_))
  exact (lockMap_eq_iff wf (by decide)).mpr ⟨first, firstIn, firstPosix, rfl, writes, le_max_left _ _,
    max_le firstValid.range.ordered overlap.2⟩

/-- **`F_GETLK` finds no lock** exactly when nobody else holds a byte of the range in a way that
excludes the request. -/
theorem posix_test_lock_iff (wf : WellFormed list) (locks : request.flType ≠ .unlck)
    (ordered : request.flStart ≤ request.flEnd) : posixTestLock request list = none ↔
      ∀ other ≠ request.flOwner, ∀ byte, request.flStart ≤ byte → byte ≤ request.flEnd →
        lockMap list other byte = .unlck ∨
          (lockMap list other byte = .rdlck ∧ request.flType = .rdlck) := by
  rw [posixTestLock, find?_eq_none]
  constructor
  · intro free other differ byte lower upper
    by_contra held
    rw [not_or, not_and] at held
    obtain ⟨fl, member, posix, own, type, first, final⟩ := (lockMap_eq_iff wf held.1).mp rfl
    refine free fl member (decide_eq_true ⟨posix, posixLocksConflict_iff.mpr
      ⟨posix, own ▸ differ.symm, ⟨first.trans upper, lower.trans final⟩, ?_⟩⟩)
    rw [← type] at held
    revert held locks
    cases fl.flType <;> cases request.flType <;> simp
  · intro compatible fl member taken
    obtain ⟨posix, differ, ⟨lower, upper⟩, writes⟩ :=
      posixLocksConflict_iff.mp (of_decide_eq_true taken).2
    have valid := wf.valid fl member posix
    have holds := (lockMap_eq_iff wf valid.typed).mpr ⟨fl, member, posix, rfl, rfl,
      le_max_left _ request.flStart, max_le valid.range.ordered upper⟩
    have held := compatible fl.flOwner differ.symm _ (le_max_right _ _) (max_le lower ordered)
    rw [holds] at held
    rcases held with free | ⟨reads, asks⟩
    · exact valid.typed free
    · simp [reads, asks] at writes

/-- The lock of another owner is found, and its own one is not. -/
theorem posix_test_lock_other :
    posixTestLock ⟨2, 8, .rdlck, 5, 9, false, false, false⟩ (wholeFile.flock 0) ≠ none ∧
      lockMap (wholeFile.flock 0) 8 5 = .unlck := by
  have wf : WellFormed (wholeFile.flock 0) :=
    wellFormed_singleton ⟨⟨by decide, by decide, by decide⟩, nofun⟩
  refine ⟨fun free => ?_, ?_⟩
  · have held := (posix_test_lock_iff wf (by decide) (by decide)).mp free 7 (by decide) 5 (by decide)
      (by decide)
    revert held
    decide
  · exact ((@posix_test_lock_iff _ _ ⟨2, 7, .wrlck, 0, 9, false, false, false⟩ _ wf nofun
      (by decide)).mp rfl 8 (by decide) 5 (by decide) (by decide)).resolve_right nofun

/-! ### Runs -/

/-- What happens to the locks: a call of `__posix_lock_file`, or a waiter that gives up. -/
inductive LockOp (Owner : Type)
  | lock (inode : Nat) (request : LockRequest Owner) (alloc alloc2 : Bool)
  | deleteBlock (id : Nat)

def LockState.waiting (state : LockState Owner) (id : Nat) : Bool :=
  state.blockedList.any fun entry => entry.waiter.id = id

/-- One operation. A request that already waits is a `BUG_ON` of `locks_insert_block`. -/
def lockStep (state : LockState Owner) : LockOp Owner → Option (LockState Owner)
  | .lock inode request alloc alloc2 =>
    if 0 ≤ request.flStart ∧ request.flStart ≤ request.flEnd ∧ request.flEnd ≤ offsetMax ∧
        ¬ ((posixLockFile state inode request alloc alloc2).2.1 = .deferred ∧
          state.waiting request.id = true) then
      some (posixLockFile state inode request alloc alloc2).1
    else none
  | .deleteBlock id => some (locksDeleteBlock id state)

def WaitersConflict (list : List (FileLock Owner)) : Prop :=
  ∀ fl ∈ list, fl.kind = .posix → ∀ waiter ∈ fl.flBlock, posixLocksConflict waiter fl = true

/-- **The invariant of the lock lists.** -/
structure Settled (state : LockState Owner) : Prop where
  wellFormed : ∀ inode, WellFormed (state.flock inode)
  exclusive : ∀ inode, Exclusive (state.flock inode)
  conflict : ∀ inode, WaitersConflict (state.flock inode)
  asleep : ∀ entry ∈ state.blockedList, ∃ inode, ∃ fl ∈ state.flock inode,
    fl.kind = .posix ∧ fl.flOwner = entry.nextOwner ∧ entry.waiter ∈ fl.flBlock

/-- The change touches nothing but the waiters of a lock. -/
structure OnlyWaiters (change : FileLock Owner → FileLock Owner) : Prop where
  same : ∀ fl, change fl = { fl with flBlock := (change fl).flBlock }

namespace OnlyWaiters

variable {change : FileLock Owner → FileLock Owner} (only : OnlyWaiters change)

include only

theorem heldBy_eq (owner : Owner) (fl : FileLock Owner) :
    heldBy owner (change fl) = heldBy owner fl := by
  rw [only.same fl]
  rfl

theorem extentsOf_map (owner : Owner) :
    extentsOf (list.map change) owner = extentsOf list owner := by
  unfold extentsOf
  rw [filter_map, map_map]
  have held : heldBy owner ∘ change = heldBy owner := funext (only.heldBy_eq owner)
  rw [held]
  refine map_congr_left fun fl _ => ?_
  rw [comp_apply, only.same fl]
  rfl

theorem lockMap_map : lockMap (list.map change) = lockMap list := by
  funext owner byte
  rw [lockMap, lockMap, only.extentsOf_map]

theorem wellFormed (wf : WellFormed list) : WellFormed (list.map change) where
  ids := by
    rw [map_map]
    have ids : FileLock.id ∘ change = FileLock.id := funext fun fl => by
      rw [comp_apply, only.same fl]
    rw [ids]
    exact wf.ids
  posixLast := by
    refine pairwise_map.mpr (wf.posixLast.imp fun {first second} last => ?_)
    rw [only.same first, only.same second]
    exact last
  contiguous := fun owner => by
    obtain ⟨front, own, back, rfl, before, members, after⟩ := wf.contiguous owner
    refine ⟨front.map change, own.map change, back.map change, by simp, ?_, ?_, ?_⟩
    · simpa [only.heldBy_eq owner] using before
    · simpa [only.heldBy_eq owner] using members
    · simpa [only.heldBy_eq owner] using after
  valid := fun fl member posix => by
    obtain ⟨old, inside, rfl⟩ := mem_map.mp member
    rw [only.same old] at posix ⊢
    have valid := wf.valid old inside posix
    exact ⟨valid.range, valid.typed⟩
  laid := fun owner => by
    rw [only.extentsOf_map]
    exact wf.laid owner

theorem conflict_eq (waiter : LockRequest Owner) (fl : FileLock Owner) :
    posixLocksConflict waiter (change fl) = posixLocksConflict waiter fl := by
  rw [only.same fl]
  rfl

end OnlyWaiters

theorem onlyWaiters_insertBlock (blocker : Nat) (request : LockRequest Owner) :
    OnlyWaiters (locksInsertBlock blocker request) := by
  refine ⟨fun fl => ?_⟩
  unfold locksInsertBlock
  split <;> rfl

/-- **The locks of one inode change**: whoever still sleeps waits for one of the new locks. -/
theorem Settled.replace (settled : Settled state) (wf : WellFormed list)
    (exclusive : Exclusive list) (conflict : WaitersConflict list)
    (asleep : ∀ entry ∈ blocked,
      (∃ fl ∈ list, fl.kind = .posix ∧ fl.flOwner = entry.nextOwner ∧ entry.waiter ∈ fl.flBlock) ∨
        (entry ∈ state.blockedList ∧ ∀ fl ∈ state.flock inode, entry.waiter ∈ fl.flBlock →
          StillWaits fl entry.waiter list)) :
    Settled { state.setFlock inode list with blockedList := blocked } := by
  have here : ∀ {holds : List (FileLock Owner) → Prop}, holds list →
      (∀ other, holds (state.flock other)) →
      ∀ other, holds ((state.setFlock inode list).flock other) := fun new old other => by
    unfold LockState.setFlock
    simp only
    split
    · exact new
    · exact old other
  refine ⟨here wf settled.wellFormed, here exclusive settled.exclusive,
    here conflict settled.conflict, fun entry member => ?_⟩
  rcases asleep entry member with ⟨fl, inside, waits⟩ | ⟨old, stays⟩
  · exact ⟨inode, fl, by simpa [LockState.setFlock] using inside, waits⟩
  obtain ⟨other, fl, inside, posix, owner, waits⟩ := settled.asleep entry old
  by_cases same : other = inode
  · subst same
    obtain ⟨after, stillIn, kind, sameOwner, stillWaits⟩ := stays fl inside waits
    exact ⟨other, after, by simpa [LockState.setFlock] using stillIn, kind.trans posix,
      sameOwner.trans owner, stillWaits⟩
  · exact ⟨other, fl, by simpa [LockState.setFlock, same] using inside, posix, owner, waits⟩

theorem Settled.insertBlock (settled : Settled state) (member : fl ∈ state.flock inode)
    (conflicts : posixLocksConflict request fl = true) :
    Settled { state.setFlock inode ((state.flock inode).map (locksInsertBlock fl.id request)) with
      blockedList := ⟨request, fl.flOwner⟩ :: state.blockedList } := by
  have only := onlyWaiters_insertBlock fl.id request
  have wf := settled.wellFormed inode
  refine settled.replace (only.wellFormed wf) ?_ ?_ ?_
  · unfold Exclusive
    rw [only.lockMap_map]
    exact settled.exclusive inode
  · intro after inside posix waiter waits
    obtain ⟨old, inList, rfl⟩ := mem_map.mp inside
    rw [only.conflict_eq]
    have old_posix : old.kind = .posix := by
      rw [only.same old] at posix
      exact posix
    unfold locksInsertBlock at waits
    split at waits
    next blocker =>
      rcases mem_append.mp waits with waits | new
      · exact settled.conflict inode old inList old_posix waiter waits
      · obtain rfl := mem_singleton.mp new
        obtain rfl := inj_on_of_nodup_map wf.ids inList member blocker
        exact conflicts
    · exact settled.conflict inode old inList old_posix waiter waits
  · intro entry inside
    rcases mem_cons.mp inside with rfl | old
    · refine .inl ⟨_, mem_map_of_mem member, ?_, ?_, ?_⟩
      · rw [only.same fl]
        exact (posixLocksConflict_iff.mp conflicts).1
      · rw [only.same fl]
      · simp [locksInsertBlock]
    refine .inr ⟨old, fun other inList waits => ⟨_, mem_map_of_mem inList, ?_, ?_, ?_⟩⟩
    · rw [only.same other]
    · rw [only.same other]
    · unfold locksInsertBlock
      split
      · exact mem_append_left _ waits
      · exact waits

theorem Settled.deleteBlock (settled : Settled state) (id : Nat) :
    Settled (locksDeleteBlock id state) := by
  have only : OnlyWaiters fun fl : FileLock Owner =>
      { fl with flBlock := fl.flBlock.filter fun waiter => waiter.id ≠ id } := ⟨fun fl => rfl⟩
  refine ⟨fun inode => only.wellFormed (settled.wellFormed inode), fun inode => ?_, ?_, ?_⟩
  · have same : lockMap ((locksDeleteBlock id state).flock inode) = lockMap (state.flock inode) :=
      only.lockMap_map
    unfold Exclusive
    rw [same]
    exact settled.exclusive inode
  · intro inode after inside posix waiter waits
    obtain ⟨old, inList, rfl⟩ := mem_map.mp inside
    exact settled.conflict inode old inList posix waiter (mem_filter.mp waits).1
  · intro entry inside
    obtain ⟨old, stays⟩ := mem_filter.mp inside
    obtain ⟨inode, fl, inList, posix, owner, waits⟩ := settled.asleep entry old
    exact ⟨inode, _, mem_map_of_mem inList, posix, owner, mem_filter.mpr ⟨waits, stays⟩⟩

theorem Grown.conflict {old : FileLock Owner} (grown : Grown old fl) (waits : waiter ∈ fl.flBlock)
    (conflicts : waiter ∈ old.flBlock → posixLocksConflict waiter old = true) :
    posixLocksConflict waiter fl = true := by
  rcases grown.block with none | ⟨block, type, lower, upper⟩
  · rw [none] at waits
    cases waits
  · obtain ⟨posix, differ, ⟨ends, starts⟩, writes⟩ :=
      posixLocksConflict_iff.mp (conflicts (block ▸ waits))
    exact posixLocksConflict_iff.mpr ⟨grown.kind.trans posix, by rwa [grown.owner],
      ⟨lower.trans ends, starts.trans upper⟩, by rwa [type]⟩

theorem Regroups.conflict (regroups : Regroups request front own new back)
    (conflict : WaitersConflict (front ++ (own ++ back))) :
    WaitersConflict (front ++ (new ++ back)) := by
  intro fl member posix waiter waits
  rcases mem_append.mp member with inFront | member
  · exact conflict fl (mem_append_left _ inFront) posix waiter waits
  rcases mem_append.mp member with inNew | inBack
  · rcases regroups.grown fl inNew with none | ⟨before, inOwn, grown⟩
    · rw [none] at waits
      cases waits
    · refine grown.conflict waits fun waited => conflict before ?_ ?_ waiter waited
      · exact mem_append_right _ (mem_append_left _ inOwn)
      · exact (heldBy_iff.mp (regroups.members before inOwn)).1
  · exact conflict fl (mem_append_right _ (mem_append_right _ inBack)) posix waiter waits

theorem mem_unblock {entry : Blocked Owner} (member : entry ∈ unblock blocked woken) :
    entry ∈ blocked ∧ entry.waiter ∉ woken := by
  obtain ⟨inside, stays⟩ := mem_filter.mp member
  refine ⟨inside, fun wakes => ?_⟩
  simp only [Bool.not_eq_true', any_eq_false] at stays
  exact stays entry.waiter wakes (decide_eq_true rfl)

theorem Settled.setLock (settled : Settled state) (range : InFile request.flStart request.flEnd)
    (free : conflicting (state.flock inode) request = none)
    (new : NewIds (state.flock inode) newFl newFl2) :
    Settled { state.setFlock inode (setLock request newFl newFl2 (state.flock inode)).1 with
      blockedList := unblock state.blockedList
        (Locks.setLock request newFl newFl2 (state.flock inode)).2.2 } := by
  have wf := settled.wellFormed inode
  let result := Locks.setLock request newFl newFl2 (state.flock inode)
  have asleep : ∀ entry ∈ unblock state.blockedList result.2.2,
      entry ∈ state.blockedList ∧ ∀ fl ∈ state.flock inode, entry.waiter ∈ fl.flBlock →
        StillWaits fl entry.waiter result.1 := by
    intro entry member
    obtain ⟨inside, sleeps⟩ := mem_unblock member
    exact ⟨inside, fun fl inList waits =>
      (setLock_waiter request newFl newFl2 inList waits).resolve_left sleeps⟩
  by_cases granted : result.2.1 = .granted
  · obtain ⟨front, own, news, back, parts, after, regroups⟩ := setLock_granted wf range new granted
    rw [after]
    simp only [result, after] at asleep
    have conflict := settled.conflict inode
    have exclusive := settled.exclusive inode
    rw [parts] at wf conflict exclusive free
    exact settled.replace (regroups.wellFormed wf range)
      (exclusive.granted wf free (regroups.lockMap_eq wf)) (regroups.conflict conflict)
      fun entry member => .inr (asleep entry member)
  · obtain ⟨same, -⟩ := setLock_failed wf granted
    rw [same]
    simp only [result, same] at asleep
    exact settled.replace wf (settled.exclusive inode) (settled.conflict inode)
      fun entry member => .inr (asleep entry member)

theorem Settled.posixLockFile (settled : Settled state) (inode : Nat)
    (range : InFile request.flStart request.flEnd) (alloc alloc2 : Bool) :
    Settled (posixLockFile state inode request alloc alloc2).1 := by
  unfold Locks.posixLockFile
  split
  next fl found =>
    split
    · exact settled
    split
    · exact settled
    unfold conflicting at found
    split at found
    · cases found
    · exact settled.insertBlock (mem_of_find?_eq_some found) (find?_some found)
  next free =>
    split
    · exact settled
    · exact settled.setLock range free (newIds_freshId _ _ _)

theorem lockStep_settled (state : LockState Owner) (op : LockOp Owner) (next : LockState Owner)
    (settled : Settled state) (taken : lockStep state op = some next) : Settled next := by
  cases op with
  | lock inode request alloc alloc2 =>
    unfold lockStep at taken
    simp only at taken
    split at taken
    next enabled =>
      obtain ⟨lower, ordered, upper, -⟩ := enabled
      cases taken
      exact settled.posixLockFile inode ⟨lower, ordered, upper⟩ alloc alloc2
    · cases taken
  | deleteBlock id =>
    cases taken
    exact settled.deleteBlock id

/-- Before the first POSIX lock: leases and `flock` locks only, and nobody waits. -/
structure Unlocked (state : LockState Owner) : Prop where
  ids : ∀ inode, ((state.flock inode).map FileLock.id).Nodup
  kinds : ∀ inode, ∀ fl ∈ state.flock inode, fl.kind ≠ .posix
  awake : state.blockedList = []

theorem Unlocked.settled (unlocked : Unlocked state) : Settled state := by
  have notHeld : ∀ inode owner, ∀ fl ∈ state.flock inode, ¬ heldBy owner fl = true :=
    fun inode owner fl member held => unlocked.kinds inode fl member (heldBy_iff.mp held).1
  have none : ∀ inode owner, extentsOf (state.flock inode) owner = [] := fun inode owner => by
    rw [extentsOf, filter_none (notHeld inode owner), map_nil]
  refine ⟨fun inode => ⟨unlocked.ids inode, ?_, fun owner => ?_, fun fl member posix => ?_,
    fun owner => ?_⟩, fun inode owner other byte differ _ => ?_, fun inode fl member posix => ?_,
    fun entry member => ?_⟩
  · exact pairwise_of_forall_mem_list fun first member second _ posix =>
      (unlocked.kinds inode first member posix).elim
  · exact ⟨state.flock inode, [], [], by simp, notHeld inode owner, by simp, by simp⟩
  · exact (unlocked.kinds inode fl member posix).elim
  · rw [none]
    exact Laid.nil
  · rw [lockMap, none]
    rfl
  · exact (unlocked.kinds inode fl member posix).elim
  · rw [unlocked.awake] at member
    cases member

/-- **In every state of a run** no write lock overlaps a lock of another owner, every waiter
conflicts with the lock it waits for, and whoever was not woken up still waits. -/
theorem posix_lock_waiters (start last : LockState Owner) (ops : List (LockOp Owner))
    (unlocked : Unlocked start) (run : exec lockStep start ops = some last) :
    (∀ inode, ∀ first ∈ last.flock inode, ∀ second ∈ last.flock inode,
      first.kind = .posix → second.kind = .posix → first.flOwner ≠ second.flOwner →
      first.flStart ≤ second.flEnd → second.flStart ≤ first.flEnd →
      first.flType ≠ .wrlck ∧ second.flType ≠ .wrlck) ∧
    (∀ inode, ∀ fl ∈ last.flock inode, fl.kind = .posix → ∀ waiter ∈ fl.flBlock,
      posixLocksConflict waiter fl = true) ∧
    ∀ entry ∈ last.blockedList, ∃ inode, ∃ fl ∈ last.flock inode,
      fl.flOwner = entry.nextOwner ∧ entry.waiter ∈ fl.flBlock ∧
        posixLocksConflict entry.waiter fl = true := by
  have settled : Settled last := exec_invariant Settled lockStep_settled unlocked.settled run
  refine ⟨fun inode first firstIn second secondIn firstPosix secondPosix differ lower upper => ?_,
    settled.conflict, fun entry member => ?_⟩
  · have wf := settled.wellFormed inode
    have exclusive := settled.exclusive inode
    exact ⟨exclusive.not_wrlck wf firstIn secondIn firstPosix secondPosix differ ⟨lower, upper⟩,
      exclusive.not_wrlck wf secondIn firstIn secondPosix firstPosix differ.symm ⟨upper, lower⟩⟩
  · obtain ⟨inode, fl, inside, posix, owner, waits⟩ := settled.asleep entry member
    exact ⟨inode, fl, inside, owner, waits, settled.conflict inode fl inside posix _ waits⟩

/-- An owner locks ten bytes, another one waits for some of them, and the first one locks more. -/
def contention : List (LockOp Nat) :=
  [.lock 0 ⟨1, 7, .wrlck, 0, 9, false, true, false⟩ true true,
    .lock 0 ⟨2, 8, .rdlck, 5, 14, false, true, false⟩ true true,
    .lock 0 ⟨3, 7, .wrlck, 10, 12, false, true, false⟩ true true]

theorem posix_lock_waiters_contention : ∃ last,
    exec lockStep (⟨fun _ => [], []⟩ : LockState Nat) contention = some last ∧
      last.blockedList.length = 1 ∧ ∀ entry ∈ last.blockedList, ∃ inode, ∃ fl ∈ last.flock inode,
        fl.flOwner = entry.nextOwner ∧ entry.waiter ∈ fl.flBlock ∧
          posixLocksConflict entry.waiter fl = true := by
  have enabled : (exec lockStep (⟨fun _ => [], []⟩ : LockState Nat) contention).map
      (fun last => last.blockedList.length) = some 1 := by
    decide +kernel
  obtain ⟨last, run, waiting⟩ := Option.map_eq_some_iff.mp enabled
  have unlocked : Unlocked (⟨fun _ => [], []⟩ : LockState Nat) :=
    ⟨fun _ => nodup_nil, fun _ _ => nofun, rfl⟩
  exact ⟨last, run, waiting, (posix_lock_waiters _ last contention unlocked run).2.2⟩

end KernelImx.Locks
