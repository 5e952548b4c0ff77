/-
**POSIX record locks** (`fs/locks.c`).

The locks of an inode hang on `i_flock`: leases, then `flock` locks, then POSIX locks, those of one
owner together. A request that has to wait hangs on the `fl_block` list of the lock that blocks it.

A `struct file_lock` is named by its address `id`. Owners are compared by `posix_same_owner`, which
is taken as equality on a type of owners. `loff_t` is a signed word of 64 bits.
-/

import KernelImx.Errno

namespace KernelImx.Locks

/-! ### Locks and requests -/

inductive LockType
  | rdlck
  | wrlck
  | unlck
  deriving DecidableEq, Repr

/-- `FL_POSIX`, `FL_FLOCK` and `FL_LEASE`. -/
inductive LockKind
  | posix
  | flock
  | lease
  deriving DecidableEq, Repr

/-- The `struct file_lock` of a caller, with the flags `FL_ACCESS`, `FL_SLEEP` and `FL_EXISTS`. -/
structure LockRequest (Owner : Type) where
  id : Nat
  flOwner : Owner
  flType : LockType
  flStart : Int
  flEnd : Int
  access : Bool
  sleep : Bool
  exists_ : Bool
  deriving DecidableEq, Repr

/-- A `struct file_lock` on the list of an inode; `flBlock` holds the requests waiting for it. -/
structure FileLock (Owner : Type) where
  id : Nat
  kind : LockKind
  flOwner : Owner
  flType : LockType
  flStart : Int
  flEnd : Int
  flBlock : List (LockRequest Owner)
  deriving DecidableEq, Repr

/-- An entry of `blocked_list`: a waiting request, and the owner of its `fl_next`. -/
structure Blocked (Owner : Type) where
  waiter : LockRequest Owner
  nextOwner : Owner
  deriving DecidableEq, Repr

def offsetMax : Int := 2 ^ 63 - 1

/-- Arithmetic on `loff_t`. -/
def loff (value : Int) : Int := value.bmod (2 ^ 64)

variable {Owner : Type} [DecidableEq Owner]

def locksOverlap (fl1 : LockRequest Owner) (fl2 : FileLock Owner) : Bool :=
  fl2.flStart ≤ fl1.flEnd && fl1.flStart ≤ fl2.flEnd

def locksConflict (caller sys : LockType) : Bool := sys = .wrlck || caller = .wrlck

def posixLocksConflict (caller : LockRequest Owner) (sys : FileLock Owner) : Bool :=
  if sys.kind ≠ .posix ∨ caller.flOwner = sys.flOwner then false
  else if locksOverlap caller sys then locksConflict caller.flType sys.flType
  else false

/-! ### Deadlock detection -/

/-- The owner of the lock that the owner of `block` is blocking on. -/
def whatOwnerIsWaitingFor (blocked : List (Blocked Owner)) (block : Owner) : Option Owner :=
  (blocked.find? fun entry => entry.waiter.flOwner = block).map Blocked.nextOwner

/-- The loop of `posix_locks_deadlock`, with the number of owners it still compares. -/
def posixLocksDeadlockLoop (blocked : List (Blocked Owner)) (caller : Owner) : Nat → Owner → Bool
  | 0, _ => false
  | left + 1, block =>
    match whatOwnerIsWaitingFor blocked block with
    | none => false
    | some next => if caller = next then true else posixLocksDeadlockLoop blocked caller left next

def maxDeadlkIterations : Nat := 10

def posixLocksDeadlock (blocked : List (Blocked Owner)) (caller block : Owner) : Bool :=
  posixLocksDeadlockLoop blocked caller (maxDeadlkIterations + 1) block

/-! ### The pass over the locks of the owner -/

/-- Where the pass stops: the locks passed, the list from `*before` on, the range of the request,
and who was woken up. -/
structure LockScan (Owner : Type) where
  done : List (FileLock Owner)
  rest : List (FileLock Owner)
  flStart : Int
  flEnd : Int
  added : Bool
  left : Option Nat
  right : Option Nat
  woken : List (LockRequest Owner)

/-- `before = &fl->fl_next`. -/
def LockScan.pass (fl : FileLock Owner) (scan : LockScan Owner) : LockScan Owner :=
  { scan with done := fl :: scan.done }

/-- `request = fl`: what the rest of the pass writes to the request it writes to `fl`. -/
def LockScan.alias (fl : FileLock Owner) (scan : LockScan Owner) : LockScan Owner :=
  { scan with done := { fl with flStart := scan.flStart, flEnd := scan.flEnd } :: scan.done }

def LockScan.wake (fl : FileLock Owner) (scan : LockScan Owner) : LockScan Owner :=
  { scan with woken := fl.flBlock ++ scan.woken }

/-- The loop "Process locks with this owner", for a request of type `flType` whose range has become
`flStart` to `flEnd`. -/
def ownLocks (owner : Owner) (flType : LockType) :
    Int → Int → Bool → Option Nat → List (FileLock Owner) → LockScan Owner
  | flStart, flEnd, added, left, [] => ⟨[], [], flStart, flEnd, added, left, none, []⟩
  | flStart, flEnd, added, left, fl :: tail =>
    if fl.flOwner ≠ owner then ⟨[], fl :: tail, flStart, flEnd, added, left, none, []⟩
    else if flType = fl.flType then
      if fl.flEnd < loff (flStart - 1) then
        (ownLocks owner flType flStart flEnd added left tail).pass fl
      else if loff (fl.flStart - 1) > flEnd then
        ⟨[], fl :: tail, flStart, flEnd, added, left, none, []⟩
      else
        -- one lock from the lower start to the higher end
        let lower := if fl.flStart > flStart then flStart else fl.flStart
        let higher := if fl.flEnd < flEnd then flEnd else fl.flEnd
        if added then (ownLocks owner flType lower higher true left tail).wake fl
        else (ownLocks owner flType lower higher true left tail).alias fl
    else
      if fl.flEnd < flStart then (ownLocks owner flType flStart flEnd added left tail).pass fl
      else if fl.flStart > flEnd then ⟨[], fl :: tail, flStart, flEnd, added, left, none, []⟩
      else
        let added := added || flType = .unlck
        let left := if fl.flStart < flStart then some fl.id else left
        if fl.flEnd > flEnd then ⟨[], fl :: tail, flStart, flEnd, added, left, some fl.id, []⟩
        else if fl.flStart ≥ flStart then
          if added then (ownLocks owner flType flStart flEnd true left tail).wake fl
          else
            -- replaced in place, its waiters are woken up
            ((ownLocks owner flType flStart flEnd true left tail).alias
              { fl with flType := flType, flBlock := [] }).wake fl
        else (ownLocks owner flType flStart flEnd added left tail).pass fl

/-! ### After the pass -/

/-- What `__posix_lock_file` returns. -/
inductive LockResult
  | granted
  | deferred
  | failed (err : Errno)
  deriving DecidableEq, Repr

/-- `right->fl_start = request->fl_end + 1` and its wake-up. -/
def trimRight (right : Option Nat) (flEnd : Int) (fl : FileLock Owner) : FileLock Owner :=
  if right = some fl.id then { fl with flStart := loff (flEnd + 1), flBlock := [] } else fl

/-- `left->fl_end = request->fl_start - 1` and its wake-up. -/
def trimLeft (left : Option Nat) (flStart : Int) (fl : FileLock Owner) : FileLock Owner :=
  if left = some fl.id then { fl with flEnd := loff (flStart - 1), flBlock := [] } else fl

def waitersOf (list : List (FileLock Owner)) (id : Option Nat) : List (LockRequest Owner) :=
  (list.filter fun fl => id = some fl.id).flatMap FileLock.flBlock

variable (scan : LockScan Owner)

/-- The new lock breaks the old one in two pieces: the copy of `right`, the lock the pass stopped at,
that becomes `left`. -/
def LockScan.broken (newFl2 : Option Nat) : List (FileLock Owner) :=
  if scan.right.isSome ∧ scan.left = scan.right then
    match newFl2, scan.rest with
    | some id, right :: _ => [{ right with id := id, flBlock := [] }]
    | _, _ => []
  else []

variable (request : LockRequest Owner)

/-- The copy of the request that is inserted when no old lock has become the request. -/
def LockScan.inserted (newFl : Option Nat) : List (FileLock Owner) :=
  if scan.added then []
  else newFl.toList.map fun id =>
    ⟨id, .posix, request.flOwner, request.flType, scan.flStart, scan.flEnd, []⟩

/-- The lock `left` points to when it is trimmed. -/
def LockScan.newLeft (newFl2 : Option Nat) : Option Nat :=
  if scan.right.isSome ∧ scan.left = scan.right then newFl2 else scan.left

def LockScan.trim (newFl2 : Option Nat) (fl : FileLock Owner) : FileLock Owner :=
  trimLeft (scan.newLeft newFl2) scan.flStart (trimRight scan.right scan.flEnd fl)

/-- The locks from the first one of the owner on, with those inserted. -/
def LockScan.locks (newFl newFl2 : Option Nat) : List (FileLock Owner) :=
  scan.done ++ (scan.broken newFl2 ++ (scan.inserted request newFl ++ scan.rest))

/-- The list, the result and the requests woken up after the pass. `front`: the locks before the
owner's; `newFl`, `newFl2`: the locks allocated in advance. -/
def finishLock (newFl newFl2 : Option Nat) (front : List (FileLock Owner)) (scan : LockScan Owner) :
    List (FileLock Owner) × LockResult × List (LockRequest Owner) :=
  let unchanged := front ++ (scan.done ++ scan.rest)
  if scan.right.isSome ∧ scan.left = scan.right ∧ newFl2 = none then
    (unchanged, .failed .enolck, scan.woken)
  else if scan.added = false ∧ request.flType = .unlck then
    (unchanged, if request.exists_ then .failed .enoent else .granted, scan.woken)
  else if scan.added = false ∧ newFl = none then (unchanged, .failed .enolck, scan.woken)
  else
    let list := front ++ scan.locks request newFl newFl2
    (list.map (scan.trim newFl2), .granted,
      scan.woken ++ waitersOf list scan.right ++ waitersOf list (scan.newLeft newFl2))

/-! ### The call -/

/-- The lock lists of the inodes and `blocked_list`. -/
structure LockState (Owner : Type) where
  flock : Nat → List (FileLock Owner)
  blockedList : List (Blocked Owner)

def freshId (list : List (FileLock Owner)) : Nat := list.foldr (fun fl id => max (fl.id + 1) id) 0

/-- Takes the woken requests off `blocked_list`. -/
def unblock (blocked : List (Blocked Owner)) (woken : List (LockRequest Owner)) :
    List (Blocked Owner) :=
  blocked.filter fun entry => !woken.any fun request => request.id = entry.waiter.id

/-- `locks_insert_block`. -/
def locksInsertBlock (blocker : Nat) (request : LockRequest Owner) (fl : FileLock Owner) :
    FileLock Owner :=
  if fl.id = blocker then { fl with flBlock := fl.flBlock ++ [request] } else fl

/-- `locks_delete_block`: the waiter leaves the lock it waits for and `blocked_list`. -/
def locksDeleteBlock (id : Nat) (state : LockState Owner) : LockState Owner where
  flock := fun inode => (state.flock inode).map fun fl =>
    { fl with flBlock := fl.flBlock.filter fun waiter => waiter.id ≠ id }
  blockedList := state.blockedList.filter fun entry => entry.waiter.id ≠ id

/-- "In some cases we can be sure, that no new locks will be needed." -/
def needsNewLocks : Bool :=
  !request.access &&
    (request.flType ≠ .unlck || request.flStart ≠ 0 || request.flEnd ≠ offsetMax)

/-- The lock the request conflicts with; unlocking never conflicts. -/
def conflicting (list : List (FileLock Owner)) (request : LockRequest Owner) :
    Option (FileLock Owner) :=
  if request.flType = .unlck then none else list.find? (posixLocksConflict request)

/-- `posix_test_lock`, with nothing for its `F_UNLCK` -/
def posixTestLock (list : List (FileLock Owner)) : Option (FileLock Owner) :=
  list.find? fun cfl => cfl.kind = .posix ∧ posixLocksConflict request cfl

def LockState.setFlock (state : LockState Owner) (inode : Nat) (list : List (FileLock Owner)) :
    LockState Owner :=
  { state with flock := fun other => if other = inode then list else state.flock other }

/-- Is the lock passed over by the search for the first lock of the owner? -/
def skipped (owner : Owner) (fl : FileLock Owner) : Bool := fl.kind ≠ .posix || fl.flOwner ≠ owner

def setLock (newFl newFl2 : Option Nat) (list : List (FileLock Owner)) :
    List (FileLock Owner) × LockResult × List (LockRequest Owner) :=
  finishLock request newFl newFl2 (list.takeWhile (skipped request.flOwner))
    (ownLocks request.flOwner request.flType request.flStart request.flEnd false none
      (list.dropWhile (skipped request.flOwner)))

/-- `__posix_lock_file`: the state, the result and the copy to `conflock`. `alloc` and `alloc2` say
whether the allocations in advance succeed. -/
def posixLockFile (state : LockState Owner) (inode : Nat) (request : LockRequest Owner)
    (alloc alloc2 : Bool) : LockState Owner × LockResult × Option (FileLock Owner) :=
  match conflicting (state.flock inode) request with
  | some fl =>
    if !request.sleep then (state, .failed .eagain, some fl)
    else if posixLocksDeadlock state.blockedList request.flOwner fl.flOwner then
      (state, .failed .edeadlk, some fl)
    else
      ({ state.setFlock inode
          ((state.flock inode).map (locksInsertBlock fl.id request)) with
          blockedList := ⟨request, fl.flOwner⟩ :: state.blockedList }, .deferred, some fl)
  | none =>
    if request.access then (state, .granted, none)
    else
      let id := freshId (state.flock inode)
      let newFl := if needsNewLocks request && alloc then some id else none
      let newFl2 := if needsNewLocks request && alloc2 then some (id + 1) else none
      let (list, result, woken) := setLock request newFl newFl2 (state.flock inode)
      ({ state.setFlock inode list with blockedList := unblock state.blockedList woken },
        result, none)

end KernelImx.Locks
