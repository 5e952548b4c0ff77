/-
**System V semaphores** (`ipc/sem.c`).

An operation that cannot be done at once sleeps on `sem_pending`; one that names a single semaphore
is also on the list of that semaphore. Whoever changes the array completes what has become possible.

A `struct sem_queue` is named by its address `id`. `none` stands for a `BUG_ON` of `check_restart` or
for a search that does not end.
-/

import Mathlib.Data.BitVec
import KernelImx.Errno

namespace KernelImx.Sem

/-! ### The array -/

/-- `struct sembuf` with the flags `IPC_NOWAIT` and `SEM_UNDO`. -/
structure Sembuf where
  semNum : Nat
  semOp : Int
  nowait : Bool
  undo : Bool
  deriving DecidableEq, Repr

/-- `struct sem` without its list. -/
structure Semaphore where
  semval : Int
  sempid : Nat
  deriving DecidableEq, Repr

/-- `struct sem_queue`: a sleeping call. `undo` names the undo structure of its process; it is read
only for operations with `SEM_UNDO`. -/
structure SemQueue where
  id : Nat
  sops : List Sembuf
  undo : Nat
  pid : Nat
  alter : Bool
  deriving DecidableEq, Repr

/-- `struct sem_array`: the semaphores, `sem_pending`, the lists of the single semaphores, and the
`short` adjustments of each undo structure. -/
structure SemArray where
  nsems : Nat
  base : Nat → Semaphore
  pending : List SemQueue
  simple : Nat → List SemQueue
  complexCount : Nat
  semadj : Nat → Nat → BitVec 16
  otime : Nat
  ctime : Nat

def semvmx : Int := 32767

def semaem : Int := semvmx

def SemArray.semval (sma : SemArray) (num : Nat) : Int := (sma.base num).semval

variable (sma : SemArray)

def SemArray.setSemval (num : Nat) (value : Int) : SemArray :=
  { sma with base := fun other =>
      if other = num then { sma.base num with semval := value } else sma.base other }

def SemArray.setSempid (num pid : Nat) : SemArray :=
  { sma with base := fun other =>
      if other = num then { sma.base num with sempid := pid } else sma.base other }

/-- `un->semadj[sem_num] -= sem_op`, on a `short`. -/
def SemArray.adjust (un num : Nat) (op : Int) : SemArray :=
  { sma with semadj := fun undo other =>
      if undo = un ∧ other = num then sma.semadj un num - BitVec.ofInt 16 op
      else sma.semadj undo other }

/-! ### One call -/

/-- What `try_atomic_semop` returns: 0, 1 or an error. -/
inductive SemResult
  | done
  | sleep
  | failed (err : Errno)
  deriving DecidableEq, Repr

/-- `would_block` -/
def wouldBlock (sop : Sembuf) : SemResult := if sop.nowait then .failed .eagain else .sleep

/-- The first loop; `done` are the operations already made, the last one first. -/
def semopLoop (un : Nat) : SemArray → List Sembuf → List Sembuf → SemArray × List Sembuf × SemResult
  | sma, done, [] => (sma, done, .done)
  | sma, done, sop :: rest =>
    let result := sma.semval sop.semNum
    if sop.semOp = 0 ∧ result ≠ 0 then (sma, done, wouldBlock sop)
    else
      let result := result + sop.semOp
      if result < 0 then (sma, done, wouldBlock sop)
      else if result > semvmx then (sma, done, .failed .erange)
      else
        let undo := (sma.semadj un sop.semNum).toInt - sop.semOp
        if sop.undo ∧ (undo < -semaem - 1 ∨ undo > semaem) then (sma, done, .failed .erange)
        else semopLoop un (sma.setSemval sop.semNum result) (sop :: done) rest

/-- The loop after success: the process and its adjustments are noted. -/
def commitLoop (un pid : Nat) : SemArray → List Sembuf → SemArray
  | sma, [] => sma
  | sma, sop :: rest =>
    let sma := sma.setSempid sop.semNum pid
    commitLoop un pid (if sop.undo then sma.adjust un sop.semNum sop.semOp else sma) rest

/-- The loop at `undo` -/
def undoLoop : SemArray → List Sembuf → SemArray
  | sma, [] => sma
  | sma, sop :: rest =>
    undoLoop (sma.setSemval sop.semNum (sma.semval sop.semNum - sop.semOp)) rest

/-- All the operations of a call, or none. -/
def tryAtomicSemop (sops : List Sembuf) (un pid : Nat) : SemArray × SemResult :=
  match semopLoop un sma [] sops with
  | (sma, done, .done) => (commitLoop un pid sma done, .done)
  | (sma, done, result) => (undoLoop sma done, result)

/-! ### The queues -/

def SemQueue.on (num : Nat) (queue : SemQueue) : Bool :=
  match queue.sops with
  | [sop] => sop.semNum = num
  | _ => false

def unlinkQueue (queue : SemQueue) : SemArray :=
  let sma := { sma with pending := sma.pending.filter fun other => other.id ≠ queue.id }
  if queue.sops.length = 1 then
    { sma with simple := fun num => (sma.simple num).filter fun other => other.id ≠ queue.id }
  else { sma with complexCount := sma.complexCount - 1 }

def checkRestart (queue : SemQueue) : Option Bool :=
  if queue.alter = false then some false
  else if sma.complexCount ≠ 0 then some true
  else if queue.sops.length > 1 then some true
  else
    match queue.sops with
    | [] => none
    | sop :: _ =>
      match sma.simple sop.semNum with
      | [] => some false
      | head :: _ =>
        if sma.semval sop.semNum ≠ 0 then
          -- `BUG_ON(q->sops[0].sem_op >= 0)`
          if sop.semOp ≥ 0 then none else some false
        else
          match head.sops with
          | [first] => if first.semNum ≠ sop.semNum then none else some (first.semOp = 0)
          | _ => none

/-- The array during a search, with the list `pt` of those to be woken up, and whether one was
completed. -/
structure SemUpdate where
  sma : SemArray
  pt : List (SemQueue × SemResult)
  completed : Bool

def pendingList : Option Nat → List SemQueue
  | none => sma.pending
  | some num => sma.simple num

/-- The loop of `update_queue` from `walk` on; at the end whether to start `again`. -/
def updateWalk (semnum : Option Nat) : SemUpdate → List SemQueue → Option (SemUpdate × Bool)
  | up, [] => some (up, false)
  | up, queue :: walk =>
    if (semnum.any fun num => up.sma.semval num = 0) && queue.alter then some (up, false)
    else
      match tryAtomicSemop up.sma queue.sops queue.undo queue.pid with
      | (sma, .sleep) => updateWalk semnum { up with sma := sma } walk
      | (sma, .failed err) =>
        updateWalk semnum
          ⟨unlinkQueue sma queue, up.pt ++ [(queue, .failed err)], up.completed⟩ walk
      | (sma, .done) =>
        match checkRestart (unlinkQueue sma queue) queue with
        | none => none
        | some true => some (⟨unlinkQueue sma queue, up.pt ++ [(queue, .done)], true⟩, true)
        | some false =>
          updateWalk semnum ⟨unlinkQueue sma queue, up.pt ++ [(queue, .done)], true⟩ walk

/-- `again:`, with a bound on the number of rounds. -/
def updateRounds (semnum : Option Nat) : Nat → SemUpdate → Option SemUpdate
  | 0, _ => none
  | rounds + 1, up =>
    match updateWalk semnum up (pendingList up.sma semnum) with
    | none => none
    | some (up, false) => some up
    | some (up, true) => updateRounds semnum rounds up

/-- `update_queue`; `none` for `semnum` is -1. Every round but the last one removes a call. -/
def updateQueue (semnum : Option Nat) (pt : List (SemQueue × SemResult)) : Option SemUpdate :=
  updateRounds (if sma.complexCount ≠ 0 then none else semnum) (sma.pending.length + 1)
    ⟨sma, pt, false⟩

/-- The loop of `do_smart_update` over the operations that were performed. -/
def smartLoop : SemUpdate → List Sembuf → Option SemUpdate
  | up, [] => some up
  | up, sop :: rest =>
    if sop.semOp > 0 ∨ (sop.semOp < 0 ∧ up.sma.semval sop.semNum = 0) then
      match updateQueue up.sma (some sop.semNum) up.pt with
      | none => none
      | some next => smartLoop { next with completed := up.completed || next.completed } rest
    else smartLoop up rest

/-- `do_smart_update`: the array and those to be woken up; `sops` is `none` for `NULL`. -/
def doSmartUpdate (sops : Option (List Sembuf)) (otime : Bool) (now : Nat) :
    Option (SemArray × List (SemQueue × SemResult)) :=
  let update := match sops with
    | none => updateQueue sma none []
    | some sops =>
      if sma.complexCount ≠ 0 then updateQueue sma none [] else smartLoop ⟨sma, [], false⟩ sops
  update.map fun up =>
    (if otime || up.completed then { up.sma with otime := now } else up.sma, up.pt)

/-! ### The calls -/

/-- The arguments of `semtimedop`, the address of its `struct sem_queue`, and the errors of the
environment: `refused` before the array is found, `denied` by the permission checks. -/
structure SemCall where
  id : Nat
  sops : List Sembuf
  undo : Nat
  pid : Nat
  refused : Option Errno
  denied : Option Errno
  deriving DecidableEq, Repr

def SemCall.alter (call : SemCall) : Bool := call.sops.any fun sop => sop.semOp ≠ 0

def SemCall.queue (call : SemCall) : SemQueue := ⟨call.id, call.sops, call.undo, call.pid, call.alter⟩

/-- `list_add_tail` for a call that alters the array, `list_add` for the others. -/
def addQueue (queue : SemQueue) (list : List SemQueue) : List SemQueue :=
  if queue.alter then list ++ [queue] else queue :: list

def enqueue (call : SemCall) : SemArray :=
  let sma := { sma with pending := addQueue call.queue sma.pending }
  match call.sops with
  | [sop] => { sma with simple := fun num =>
    if num = sop.semNum then addQueue call.queue (sma.simple num) else sma.simple num }
  | _ => { sma with complexCount := sma.complexCount + 1 }

/-- `semtimedop` until it returns or sleeps. -/
def semtimedop (semopm : Nat) (call : SemCall) (now : Nat) :
    Option (SemArray × SemResult × List (SemQueue × SemResult)) :=
  if call.sops.length < 1 then some (sma, .failed .einval, [])
  else if call.sops.length > semopm then some (sma, .failed .e2big, [])
  else
    match call.refused, call.denied with
    | some err, _ => some (sma, .failed err, [])
    | none, denied =>
      if call.sops.any fun sop => sop.semNum ≥ sma.nsems then some (sma, .failed .efbig, [])
      else
        match denied with
        | some err => some (sma, .failed err, [])
        | none =>
          match tryAtomicSemop sma call.sops call.undo call.pid with
          | (sma, .done) =>
            if call.alter then
              (doSmartUpdate sma (some call.sops) true now).map fun (sma, pt) => (sma, .done, pt)
            else some (sma, .done, [])
          | (sma, .failed err) => some (sma, .failed err, [])
          | (sma, .sleep) => some (enqueue sma call, .sleep, [])

/-- A sleeper is interrupted or its time is over. -/
def giveUp (id : Nat) : SemArray :=
  match sma.pending.find? fun queue => queue.id = id with
  | none => sma
  | some queue => unlinkQueue sma queue

/-- `SETVAL` -/
def setval (num : Nat) (value : Int) (pid now : Nat) :
    Option (SemArray × SemResult × List (SemQueue × SemResult)) :=
  if num ≥ sma.nsems then some (sma, .failed .einval, [])
  else if value > semvmx ∨ value < 0 then some (sma, .failed .erange, [])
  else
    let sma := { (sma.setSemval num value).setSempid num pid with
      semadj := fun undo other => if other = num then 0 else sma.semadj undo other
      ctime := now }
    (doSmartUpdate sma none false now).map fun (sma, pt) => (sma, .done, pt)

/-- `SETALL`; the values are unsigned. -/
def setall (values : Nat → Nat) (now : Nat) :
    Option (SemArray × SemResult × List (SemQueue × SemResult)) :=
  if (List.range sma.nsems).any fun num => (values num : Int) > semvmx then
    some (sma, .failed .erange, [])
  else
    let sma := { sma with
      base := fun num => if num < sma.nsems then { sma.base num with semval := values num }
        else sma.base num
      semadj := fun undo num => if num < sma.nsems then 0 else sma.semadj undo num
      ctime := now }
    (doSmartUpdate sma none false now).map fun (sma, pt) => (sma, .done, pt)

/-- "perform adjustments registered in un"; the structure is freed. -/
def exitAdjust (un pid : Nat) : SemArray :=
  let adj := fun num => (sma.semadj un num).toInt
  { sma with
    base := fun num =>
      if num < sma.nsems ∧ adj num ≠ 0 then ⟨max 0 (min semvmx (sma.semval num + adj num)), pid⟩
      else sma.base num
    semadj := fun undo num => if undo = un then 0 else sma.semadj undo num }

def exitSem (un pid now : Nat) : Option (SemArray × List (SemQueue × SemResult)) :=
  doSmartUpdate (exitAdjust sma un pid) none true now

end KernelImx.Sem
