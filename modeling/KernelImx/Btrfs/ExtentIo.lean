/-
**The extent state tree of btrfs.**

The model of `fs/btrfs/extent_io.c`: the states of a tree, how they are searched, merged, inserted
and split, and the loops of `clear_extent_bit` and `set_extent_bit`.
-/

import Mathlib.Data.BitVec

namespace KernelImx.Btrfs

/-! ### States -/

abbrev Bits := BitVec 32

def extentDirty : Bits := 0x1#32

def extentWriteback : Bits := 0x2#32

def extentLocked : Bits := 0x8#32

def extentBoundary : Bits := 0x200#32

def extentDoAccounting : Bits := 0x800#32

def extentFirstDelalloc : Bits := 0x1000#32

def extentIobits : Bits := extentLocked ||| extentWriteback

def extentCtlbits : Bits := extentDoAccounting ||| extentFirstDelalloc

def stateBits (bits : Bits) : Bits := bits &&& ~~~extentCtlbits

/-- An `extent_state`, from `start` to `stop` inclusive (`end` in the source). -/
structure ExtentState where
  start : BitVec 64
  stop : BitVec 64
  state : Bits
  deriving DecidableEq, Repr

/-- States with these bits are not merged, and they are the ones that are cached. -/
def kept (bits : Bits) : Bool := bits &&& (extentIobits ||| extentBoundary) != 0

/-- A state in the tree: the states before it, the nearest one first, and those after it. -/
structure Place where
  before : List ExtentState
  state : ExtentState
  after : List ExtentState

variable (place : Place)

def Place.states : List ExtentState :=
  place.before.reverse ++ place.state :: place.after

structure Tree where
  states : List ExtentState
  dirtyBytes : BitVec 64

inductive Fault
  | gone
  | nullPointer
  | bug
  deriving DecidableEq, Repr

/-! ### Search and insertion -/

/-- Goes on from a point of the list to the first state that ends at or after the offset. -/
def searchFrom (offset : BitVec 64) : List ExtentState → List ExtentState → Option Place
  | _, [] => none
  | before, state :: rest =>
    if state.stop < offset then searchFrom offset (state :: before) rest
    else some ⟨before, state, rest⟩

/-- **`tree_search`.** -/
def treeSearch (offset : BitVec 64) (states : List ExtentState) : Option Place :=
  searchFrom offset [] states

def insertFrom (offset : BitVec 64) (new : ExtentState) :
    List ExtentState → List ExtentState → Option Place
  | before, [] => some ⟨before, new, []⟩
  | before, entry :: rest =>
    if offset < entry.start then some ⟨before, new, entry :: rest⟩
    else if offset > entry.stop then insertFrom offset new (entry :: before) rest
    else none

/-- **`tree_insert`**: where the new state is linked, `none` when an entry holds the offset. -/
def treeInsert (offset : BitVec 64) (new : ExtentState) (states : List ExtentState) : Option Place :=
  insertFrom offset new [] states

/-! ### Merging and splitting -/

/-- What `merge_state` leaves: where the range of the state is now, and which states were taken
over. -/
structure Merged where
  place : Place
  lostPrev : Option ExtentState
  lostOwn : Option ExtentState

def mergePrev : Place × Option ExtentState :=
  match place.before with
  | [] => (place, none)
  | other :: before =>
    if other.stop = place.state.start - 1 ∧ other.state = place.state.state then
      (⟨before, { place.state with start := other.start }, place.after⟩, some other)
    else
      (place, none)

def mergeNext : Place × Option ExtentState :=
  match place.after with
  | [] => (place, none)
  | other :: after =>
    if other.start = place.state.stop + 1 ∧ other.state = place.state.state then
      (⟨place.before, { other with start := place.state.start }, after⟩, some place.state)
    else
      (place, none)

/-- **`merge_state`.** -/
def mergeState : Merged :=
  if kept place.state.state then
    ⟨place, none, none⟩
  else
    ⟨(mergeNext (mergePrev place).1).1, (mergePrev place).2, (mergeNext (mergePrev place).1).2⟩

/-- **`insert_state`**: the tree after it and `dirty_bytes`, `none` for `-EEXIST`. -/
def insertState (states : List ExtentState) (dirtyBytes : BitVec 64) (start stop : BitVec 64)
    (bits : Bits) : Option (Merged × BitVec 64) :=
  let dirtyBytes :=
    if stateBits bits &&& extentDirty ≠ 0 then dirtyBytes + (stop - start + 1) else dirtyBytes
  (treeInsert stop ⟨start, stop, stateBits bits⟩ states).map fun place =>
    (mergeState place, dirtyBytes)

/-- **`split_state`**: the place of the new first half, `none` for `-EEXIST`. -/
def splitState (split : BitVec 64) : Option Place :=
  let new : ExtentState := ⟨place.state.start, split - 1, place.state.state⟩
  treeInsert new.stop new
    ({ place with state := { place.state with start := split } } : Place).states

/-- **`set_state_bits`**: the state and `dirty_bytes`. -/
def setStateBits (bits : Bits) (state : ExtentState) (dirtyBytes : BitVec 64) :
    ExtentState × BitVec 64 :=
  ({ state with state := state.state ||| stateBits bits },
    if stateBits bits &&& extentDirty ≠ 0 ∧ state.state &&& extentDirty = 0 then
      dirtyBytes + (state.stop - state.start + 1)
    else
      dirtyBytes)

/-- **`clear_state_bit`**: the states before and after the point where the state was, and
`dirty_bytes`. -/
def clearStateBit (bits : Bits) (place : Place) (dirtyBytes : BitVec 64) :
    (List ExtentState × List ExtentState) × BitVec 64 :=
  let state := { place.state with state := place.state.state &&& ~~~stateBits bits }
  let dirtyBytes :=
    if stateBits bits &&& extentDirty ≠ 0 ∧ place.state.state &&& extentDirty ≠ 0 then
      dirtyBytes - (place.state.stop - place.state.start + 1)
    else
      dirtyBytes
  if state.state = 0 then
    ((place.before, place.after), dirtyBytes)
  else
    let merged := mergeState { place with state := state }
    match merged.lostOwn with
    | none => ((merged.place.state :: merged.place.before, merged.place.after), dirtyBytes)
    | some _ => ((merged.place.before, merged.place.state :: merged.place.after), dirtyBytes)

/-- **`cache_state`**: whether a later state may still be cached. -/
def cacheState (caching : Bool) (state : ExtentState) : Bool :=
  caching && !kept state.state

/-! ### Clearing -/

/-- The arguments of `clear_extent_bit` that the loop reads. -/
structure ClearCall where
  stop : BitVec 64
  bits : Bits
  wait : Bool

/-- The variables of the loop of `clear_extent_bit`. -/
structure ClearVars where
  start : BitVec 64
  dirtyBytes : BitVec 64
  prealloc : Bool
  set : Bits

/-- The loop of `clear_extent_bit`: before a search, at `hit_next`, or over. -/
inductive Clearing
  | again (states : List ExtentState) (vars : ClearVars)
  | hitNext (place : Place) (vars : ClearVars)
  | out (tree : Tree) (set : Bits)

/-- From `search_again`. -/
def clearAgain (call : ClearCall) (states : List ExtentState) (vars : ClearVars) : Clearing :=
  if vars.start > call.stop then .out ⟨states, vars.dirtyBytes⟩ vars.set else .again states vars

/-- The body of `clear_extent_bit` from `hit_next` on. -/
def clearHit (call : ClearCall) (needResched : Bool) (place : Place) (vars : ClearVars) :
    Except Fault Clearing :=
  let state := place.state
  if state.start > call.stop then
    .ok (.out ⟨place.states, vars.dirtyBytes⟩ vars.set)
  else if state.start < vars.start then
    match splitState place vars.start with
    | some ⟨before, new, second :: after⟩ =>
      let vars := { vars with prealloc := false }
      if second.stop ≤ call.stop then
        let cleared := clearStateBit call.bits ⟨new :: before, second, after⟩ vars.dirtyBytes
        let states := cleared.1.1.reverse ++ cleared.1.2
        let vars := { vars with
          dirtyBytes := cleared.2
          set := vars.set ||| (second.state &&& stateBits call.bits) }
        if state.stop = -1 then
          .ok (.out ⟨states, vars.dirtyBytes⟩ vars.set)
        else
          .ok (clearAgain call states { vars with start := state.stop + 1 })
      else
        .ok (clearAgain call (⟨before, new, second :: after⟩ : Place).states vars)
    | _ => .error .bug
  else if state.start ≤ call.stop ∧ state.stop > call.stop then
    match splitState place (call.stop + 1) with
    | some new =>
      let cleared := clearStateBit call.bits new vars.dirtyBytes
      .ok (.out ⟨cleared.1.1.reverse ++ cleared.1.2, cleared.2⟩
        (vars.set ||| (new.state.state &&& stateBits call.bits)))
    | none => .error .bug
  else
    let cleared := clearStateBit call.bits place vars.dirtyBytes
    let states := cleared.1.1.reverse ++ cleared.1.2
    let vars' := { vars with
      dirtyBytes := cleared.2
      set := vars.set ||| (state.state &&& stateBits call.bits)
      start := state.stop + 1 }
    if state.stop = -1 then
      .ok (.out ⟨states, vars'.dirtyBytes⟩ vars'.set)
    else if state.stop < call.stop ∧ vars.prealloc ∧ !needResched ∧
        vars'.start ≤ call.stop then
      match cleared.1.2 with
      | next :: after =>
        if next.start = vars'.start then .ok (.hitNext ⟨cleared.1.1, next, after⟩ vars')
        else .ok (clearAgain call states vars')
      | [] => .ok (clearAgain call states vars')
    else
      .ok (clearAgain call states vars')

def clearRound (call : ClearCall) (needResched : Bool) : Clearing → Except Fault Clearing
  | .again states vars =>
    let vars := { vars with prealloc := vars.prealloc || call.wait }
    match treeSearch vars.start states with
    | none => .ok (.out ⟨states, vars.dirtyBytes⟩ vars.set)
    | some place => clearHit call needResched place vars
  | .hitNext place vars => clearHit call needResched place vars
  | .out tree set => .ok (.out tree set)

def clearLoop (call : ClearCall) : List Bool → Clearing → Option (Except Fault (Tree × Bits))
  | _, .out tree set => some (.ok (tree, set))
  | [], _ => none
  | answer :: rest, loop =>
    match clearRound call answer loop with
    | .error fault => some (.error fault)
    | .ok loop => clearLoop call rest loop

/-- **`clear_extent_bit`**: the tree and the bits that were set before. -/
def clearExtentBit (answers : List Bool) (tree : Tree) (start stop : BitVec 64) (bits : Bits)
    (delete wait : Bool) : Option (Except Fault (Tree × Bits)) :=
  let bits := if delete then bits ||| ~~~extentCtlbits else bits
  clearLoop ⟨stop, bits ||| extentFirstDelalloc, wait⟩ answers
    (.again tree.states ⟨start, tree.dirtyBytes, false, 0⟩)

/-! ### Setting -/

/-- What `node` points to at `hit_next`: the state itself, or the state before it, from which the loop
went on. -/
inductive Node
  | here
  | back

structure SetCall where
  stop : BitVec 64
  bits : Bits
  wait : Bool

structure SetVars where
  start : BitVec 64
  dirtyBytes : BitVec 64
  prealloc : Bool
  caching : Bool

inductive Setting
  | again (states : List ExtentState) (vars : SetVars)
  | hitNext (node : Node) (place : Place) (vars : SetVars)
  | out (tree : Tree)

variable (call : SetCall)

def setAgain (states : List ExtentState) (vars : SetVars) : Setting :=
  if vars.start > call.stop then .out ⟨states, vars.dirtyBytes⟩ else .again states vars

/-- `rb_next(node)` after the state was merged: `node` may have left the tree. -/
def rbNext (node : Node) (merged : Merged) : Except Fault (Option Place) :=
  match node with
  | .here =>
    match merged.lostOwn, merged.place.after with
    | some _, _ => .error .gone
    | none, [] => .ok none
    | none, next :: after => .ok (some ⟨merged.place.state :: merged.place.before, next, after⟩)
  | .back =>
    match merged.lostPrev with
    | some _ => .error .gone
    | none => .ok (some merged.place)

def setMerged (place : Place) (vars : SetVars) : Merged × SetVars :=
  let set := setStateBits call.bits place.state vars.dirtyBytes
  (mergeState { place with state := set.1 },
    { vars with dirtyBytes := set.2, caching := cacheState vars.caching set.1 })

/-- The body of `set_extent_bit` from `hit_next` on, without exclusive bits. -/
def setHit (needResched : Bool) (node : Node) (place : Place) (vars : SetVars) :
    Except Fault Setting :=
  let state := place.state
  if state.start = vars.start ∧ state.stop ≤ call.stop then
    let merged := (setMerged call place vars).1
    let vars := (setMerged call place vars).2
    if state.stop = -1 then
      .ok (.out ⟨merged.place.states, vars.dirtyBytes⟩)
    else
      let vars := { vars with start := state.stop + 1 }
      if vars.start < call.stop ∧ vars.prealloc ∧ !needResched then
        match rbNext node merged with
        | .error fault => .error fault
        | .ok none => .ok (setAgain call merged.place.states vars)
        | .ok (some next) =>
          if next.state.start = vars.start then .ok (.hitNext .back next vars)
          else .ok (setAgain call merged.place.states vars)
      else
        .ok (setAgain call merged.place.states vars)
  else if state.start < vars.start then
    if !vars.prealloc then
      .error .nullPointer
    else
      match splitState place vars.start with
      | some ⟨before, new, second :: after⟩ =>
        let vars := { vars with prealloc := false }
        if second.stop ≤ call.stop then
          let merged := (setMerged call ⟨new :: before, second, after⟩ vars).1
          let vars := (setMerged call ⟨new :: before, second, after⟩ vars).2
          if state.stop = -1 then
            .ok (.out ⟨merged.place.states, vars.dirtyBytes⟩)
          else
            .ok (setAgain call merged.place.states { vars with start := state.stop + 1 })
        else
          .ok (setAgain call (⟨before, new, second :: after⟩ : Place).states vars)
      | _ => .error .bug
  else if state.start > vars.start then
    let thisEnd := if call.stop < state.start then call.stop else state.start - 1
    if !vars.prealloc then
      .error .nullPointer
    else
      match insertState place.states vars.dirtyBytes vars.start thisEnd call.bits with
      | none => .error .bug
      | some (merged, dirtyBytes) =>
        let vars := { vars with
          dirtyBytes := dirtyBytes
          prealloc := false
          start := thisEnd + 1 }
        match merged.lostOwn with
        | some _ =>
          -- `cache_state` is given the state that went into its successor
          if vars.caching then .error .gone
          else .ok (setAgain call merged.place.states vars)
        | none =>
          .ok (setAgain call merged.place.states
            { vars with caching := cacheState vars.caching merged.place.state })
  else if state.start ≤ call.stop ∧ state.stop > call.stop then
    if !vars.prealloc then
      .error .nullPointer
    else
      match splitState place (call.stop + 1) with
      | none => .error .bug
      | some new =>
        let merged := (setMerged call new vars).1
        .ok (.out ⟨merged.place.states, (setMerged call new vars).2.dirtyBytes⟩)
  else
    .ok (setAgain call place.states vars)

def setRound (needResched : Bool) : Setting → Except Fault Setting
  | .again states vars =>
    let vars := { vars with prealloc := vars.prealloc || call.wait }
    match treeSearch vars.start states with
    | some place => setHit call needResched .here place vars
    | none =>
      if !vars.prealloc then
        .error .nullPointer
      else
        match insertState states vars.dirtyBytes vars.start call.stop call.bits with
        | none => .error .bug
        | some (merged, dirtyBytes) => .ok (.out ⟨merged.place.states, dirtyBytes⟩)
  | .hitNext node place vars => setHit call needResched node place vars
  | .out tree => .ok (.out tree)

def setLoop (call : SetCall) : List Bool → Setting → Option (Except Fault Tree)
  | _, .out tree => some (.ok tree)
  | [], _ => none
  | answer :: rest, loop =>
    match setRound call answer loop with
    | .error fault => some (.error fault)
    | .ok loop => setLoop call rest loop

def setCall (stop : BitVec 64) (bits : Bits) (wait : Bool) : SetCall :=
  ⟨stop, bits ||| extentFirstDelalloc, wait⟩

/-- **`set_extent_bit`** without exclusive bits. -/
def setExtentBit (answers : List Bool) (tree : Tree) (start stop : BitVec 64) (bits : Bits)
    (caching wait : Bool) : Option (Except Fault Tree) :=
  setLoop (setCall stop bits wait) answers
    (.again tree.states ⟨start, tree.dirtyBytes, false, caching⟩)

end KernelImx.Btrfs
