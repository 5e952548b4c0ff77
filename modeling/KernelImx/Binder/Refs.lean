/-
**Nodes and references of binder** (`drivers/staging/android/binder.c`).

A `binder_node` is an object of a process, a `binder_ref` is what another process holds of it. A
reference is on the two trees of its process and on the list of its node, so one heap of references
stands for all of them; where the source takes a reference off the list of its node between two
steps, so does the model.

Counts are C integers of 32 bits. A function returns `none` where the source runs into `BUG()` or
uses a node that was freed. `freed` records each node at its `kfree`.
-/

import Mathlib.Data.List.Sort
import KernelImx.Errno
import KernelImx.Lib.Heap

namespace KernelImx.Binder

open KernelImx.Lib

/-! ### Nodes and references -/

/-- A C `int`. -/
abbrev CInt := BitVec 32

/-- The `todo` list a work entry is on. -/
inductive TodoList where
  | thread (addr : Nat)
  | proc (addr : Nat)
  deriving DecidableEq, Repr

/-- `struct binder_node`; `work` is the list its work entry is on. -/
structure BinderNode where
  proc : Option Nat
  ptr : Nat
  cookie : Nat
  internalStrongRefs : CInt
  localWeakRefs : CInt
  localStrongRefs : CInt
  hasStrongRef : Bool
  hasWeakRef : Bool
  work : Option TodoList
  deriving DecidableEq, Repr

/-- `struct binder_ref` -/
structure BinderRef where
  proc : Nat
  node : Nat
  desc : Nat
  strong : CInt
  weak : CInt
  deriving DecidableEq, Repr

/-- The functions that free a node. -/
inductive FreedBy where
  | decNode
  | nodeWork
  | procRelease
  deriving DecidableEq, Repr

/-- A node at its `kfree`, with the number of references on its list. -/
structure FreedNode where
  freedBy : FreedBy
  node : BinderNode
  refs : Nat

/-- The nodes and the references of all processes; `nextAddr` is an address never used before. -/
structure RefState where
  nodes : Heap BinderNode
  refs : Heap BinderRef
  contextMgrNode : Option Nat
  nextAddr : Nat
  freed : List FreedNode

variable (st : RefState)

def RefState.setNode (addr : Nat) (node : BinderNode) : RefState :=
  { st with nodes := st.nodes.set addr node }

def RefState.setRef (addr : Nat) (ref : BinderRef) : RefState :=
  { st with refs := st.refs.set addr ref }

/-- The number of references on `node->refs`. -/
def RefState.nodeRefs (addr : Nat) : Nat := st.refs.count fun ref => ref.node = addr

/-- `kfree` of a node -/
def RefState.freeNode (freedBy : FreedBy) (addr : Nat) (node : BinderNode) : RefState :=
  { st with nodes := st.nodes.free addr, freed := ⟨freedBy, node, st.nodeRefs addr⟩ :: st.freed }

/-! ### Nodes -/

def binderGetNode (proc ptr : Nat) : Option Nat :=
  st.nodes.find fun node => node.proc = some proc ∧ node.ptr = ptr

/-- `binder_new_node`; `memory` says whether `kzalloc` succeeds. -/
def binderNewNode (memory : Bool) (proc ptr cookie : Nat) : RefState × Option Nat :=
  match binderGetNode st proc ptr with
  | some _ => (st, none)
  | none =>
    if memory then
      ({ st with
          nodes := st.nodes.set st.nextAddr ⟨some proc, ptr, cookie, 0, 0, 0, false, false, none⟩
          nextAddr := st.nextAddr + 1 }, some st.nextAddr)
    else (st, none)

/-- `binder_inc_node` on the node itself. -/
def BinderNode.inc (node : BinderNode) (isContextMgr strong internal : Bool)
    (targetList : Option TodoList) : BinderNode × Option Errno :=
  if strong then
    if internal && targetList.isNone && node.internalStrongRefs = 0 &&
        !(isContextMgr && node.hasStrongRef) then (node, some .einval)
    else
      let node := if internal then { node with internalStrongRefs := node.internalStrongRefs + 1 }
        else { node with localStrongRefs := node.localStrongRefs + 1 }
      if !node.hasStrongRef && targetList.isSome then ({ node with work := targetList }, none)
      else (node, none)
  else
    let node := if internal then node else { node with localWeakRefs := node.localWeakRefs + 1 }
    if !node.hasWeakRef && node.work.isNone then
      match targetList with
      | none => (node, some .einval)
      | some list => ({ node with work := some list }, none)
    else (node, none)

def binderIncNode (addr : Nat) (strong internal : Bool) (targetList : Option TodoList) :
    Option (RefState × Option Errno) :=
  (st.nodes.get addr).map fun node =>
    let (node, error) := node.inc (st.contextMgrNode = some addr) strong internal targetList
    (st.setNode addr node, error)

/-- The count that `binder_dec_node` takes down. -/
def BinderNode.dec (node : BinderNode) (strong internal : Bool) : BinderNode :=
  if strong then
    if internal then { node with internalStrongRefs := node.internalStrongRefs - 1 }
    else { node with localStrongRefs := node.localStrongRefs - 1 }
  else if internal then node
  else { node with localWeakRefs := node.localWeakRefs - 1 }

/-- Is the count that was taken down still held by others? -/
def BinderNode.held (node : BinderNode) (strong : Bool) (refs : Nat) : Bool :=
  if strong then node.localStrongRefs ≠ 0 || node.internalStrongRefs ≠ 0
  else node.localWeakRefs ≠ 0 || refs ≠ 0

def binderDecNode (addr : Nat) (strong internal : Bool) : Option RefState :=
  (st.nodes.get addr).map fun node =>
    let node := node.dec strong internal
    if node.held strong (st.nodeRefs addr) then st.setNode addr node
    else if node.proc.isSome && (node.hasStrongRef || node.hasWeakRef) then
      st.setNode addr
        (if node.work.isNone then { node with work := node.proc.map TodoList.proc } else node)
    else if st.nodeRefs addr = 0 && node.localStrongRefs = 0 && node.localWeakRefs = 0 then
      st.freeNode .decNode addr node
    else st.setNode addr node

/-! ### References -/

/-- The descriptors of a process in the order of `refs_by_desc`. -/
def refsByDesc (proc : Nat) : List Nat :=
  ((st.refs.records.entries.filter fun entry => entry.2.proc = proc).map
    fun entry => entry.2.desc).insertionSort (· ≤ ·)

/-- The loop over `refs_by_desc` that looks for a descriptor. -/
def newDesc : Nat → List Nat → Nat
  | desc, [] => desc
  | desc, first :: rest => if first > desc then desc else newDesc (first + 1) rest

def freeDesc (proc node : Nat) : Nat :=
  newDesc (if st.contextMgrNode = some node then 0 else 1) (refsByDesc st proc)

/-- `binder_get_ref_for_node`; `memory` says whether `kzalloc` succeeds. -/
def binderGetRefForNode (memory : Bool) (proc node : Nat) : Option (RefState × Option Nat) :=
  match st.refs.find fun ref => ref.proc = proc ∧ ref.node = node with
  | some addr => some (st, some addr)
  | none =>
    if !memory then some (st, none)
    else
      let desc := freeDesc st proc node
      -- BUG()
      if desc ∈ refsByDesc st proc then none
      else
        some ({ st with
            refs := st.refs.set st.nextAddr ⟨proc, node, desc, 0, 0⟩
            nextAddr := st.nextAddr + 1 }, some st.nextAddr)

def binderDeleteRef (addr : Nat) : Option RefState :=
  match st.refs.get addr with
  | none => none
  | some ref =>
    -- the reference is still on the list of its node here
    match if ref.strong ≠ 0 then binderDecNode st ref.node true true else some st with
    | none => none
    | some st => binderDecNode { st with refs := st.refs.free addr } ref.node false true

def BinderRef.count (ref : BinderRef) (strong : Bool) : CInt := if strong then ref.strong else ref.weak

def BinderRef.inc (ref : BinderRef) (strong : Bool) : BinderRef :=
  if strong then { ref with strong := ref.strong + 1 } else { ref with weak := ref.weak + 1 }

def BinderRef.dec (ref : BinderRef) (strong : Bool) : BinderRef :=
  if strong then { ref with strong := ref.strong - 1 } else { ref with weak := ref.weak - 1 }

def binderIncRef (addr : Nat) (strong : Bool) (targetList : Option TodoList) :
    Option (RefState × Option Errno) :=
  match st.refs.get addr with
  | none => none
  | some ref =>
    if ref.count strong = 0 then
      match binderIncNode st ref.node strong true targetList with
      | none => none
      | some (st, some error) => some (st, some error)
      | some (st, none) => some (st.setRef addr (ref.inc strong), none)
    else some (st.setRef addr (ref.inc strong), none)

def binderDecRef (addr : Nat) (strong : Bool) : Option (RefState × Option Errno) :=
  match st.refs.get addr with
  | none => none
  | some ref =>
    if ref.count strong = 0 then some (st, some .einval)
    else
      let st := st.setRef addr (ref.dec strong)
      match if strong ∧ (ref.dec strong).strong = 0 then binderDecNode st ref.node true true
        else some st with
      | none => none
      | some st =>
        if (ref.dec strong).strong = 0 ∧ (ref.dec strong).weak = 0 then
          (binderDeleteRef st addr).map fun st => (st, none)
        else some (st, none)

/-! ### Work for the process of a node -/

/-- The commands for the process of a node. -/
inductive NodeCmd where
  | noop
  | increfs
  | acquire
  | release
  | decrefs
  deriving DecidableEq, Repr

/-- `BINDER_WORK_NODE` in `binder_thread_read`; the work entry stays on its list until there is no
command left. -/
def nodeWork (addr : Nat) : Option (RefState × NodeCmd) :=
  (st.nodes.get addr).map fun node =>
    let strong := node.internalStrongRefs ≠ 0 || node.localStrongRefs ≠ 0
    let weak := st.nodeRefs addr ≠ 0 || node.localWeakRefs ≠ 0 || strong
    if weak && !node.hasWeakRef then
      (st.setNode addr { node with hasWeakRef := true, localWeakRefs := node.localWeakRefs + 1 },
        .increfs)
    else if strong && !node.hasStrongRef then
      (st.setNode addr { node with hasStrongRef := true, localStrongRefs := node.localStrongRefs + 1 },
        .acquire)
    else if !strong && node.hasStrongRef then
      (st.setNode addr { node with hasStrongRef := false }, .release)
    else if !weak && node.hasWeakRef then
      (st.setNode addr { node with hasWeakRef := false }, .decrefs)
    else if !weak && !strong then (st.freeNode .nodeWork addr node, .noop)
    else (st.setNode addr { node with work := none }, .noop)

/-- `binder_deferred_release` for one node of the process. -/
def releaseNode (addr : Nat) : Option RefState :=
  (st.nodes.get addr).map fun node =>
    let st := { st with
      contextMgrNode := if st.contextMgrNode = some addr then none else st.contextMgrNode }
    if st.nodeRefs addr = 0 then st.freeNode .procRelease addr { node with work := none }
    else
      st.setNode addr { node with proc := none, localStrongRefs := 0, localWeakRefs := 0, work := none }

/-- `BINDER_SET_CONTEXT_MGR`, for a user that may become the context manager. -/
def setContextMgr (memory : Bool) (proc : Nat) : RefState :=
  if st.contextMgrNode.isSome then st
  else
    match binderNewNode st memory proc 0 0 with
    | (st, none) => st
    | (st, some addr) =>
      match st.nodes.get addr with
      | none => st
      | some node =>
        { st.setNode addr { node with
            localWeakRefs := node.localWeakRefs + 1, localStrongRefs := node.localStrongRefs + 1
            hasStrongRef := true, hasWeakRef := true } with contextMgrNode := some addr }

end KernelImx.Binder
