/-
**The resource tree (`kernel/resource.c`).**

I/O ports and memory are handed out as nested ranges. A `struct resource` points to its parent, to
its first child and to its next sibling; here `child` is the list that starts at the child pointer
and goes on along the sibling pointers, and the parent pointers are kept beside it.

Addresses are 32 bits wide and wrap. A call is `none` where the source follows a null pointer or one
to freed memory; the loops that go down the tree take fuel.
-/

import Mathlib.Logic.Function.Basic

namespace KernelImx.Resource

open Function

/-- The identity of a `struct resource`. -/
abbrev Id := Nat

/-- The range and the flags of a resource, `stop` for the source's `end`. -/
structure Res where
  start : BitVec 32
  stop : BitVec 32
  flags : BitVec 32
deriving DecidableEq, Repr

/-- `IORESOURCE_MUXED`. -/
def ioresourceMuxed : BitVec 32 := 0x00400000

/-- `IORESOURCE_BUSY`. -/
def ioresourceBusy : BitVec 32 := 0x80000000

/-- All resources: their contents, their links, and which are allocated. -/
structure State where
  res : Id → Res
  parent : Id → Option Id
  child : Id → List Id
  live : Id → Bool

variable (s : State)

/-- The flag `IORESOURCE_BUSY` of a resource. -/
def State.busy (id : Id) : Bool :=
  (s.res id).flags &&& ioresourceBusy ≠ 0

/-! ### Requests -/

/-- The loop of `__request_resource`: the children with `new` among them, or the conflict. -/
def placeAmong (res : Id → Res) (new : Id) : List Id → Except Id (List Id)
  | [] => .ok [new]
  | tmp :: rest =>
    if (res tmp).start > (res new).stop then
      .ok (new :: tmp :: rest)
    else if (res tmp).stop < (res new).start then
      (placeAmong res new rest).map (tmp :: ·)
    else
      .error tmp

/-- **`__request_resource`**: the conflicting resource, or the tree with `new` in it. -/
def requestResource (root new : Id) : Except Id State :=
  if (s.res new).stop < (s.res new).start ∨ (s.res new).start < (s.res root).start ∨
      (s.res new).stop > (s.res root).stop then
    .error root
  else
    (placeAmong s.res new (s.child root)).map fun children =>
      { s with
        child := update s.child root children
        parent := update s.parent new (some root) }

/-- How a call comes back. -/
inductive Outcome where
  | success
  | failure
  /-- A request sleeps; it goes on with this parent. -/
  | waits (parent : Id)
deriving DecidableEq, Repr

/-- `__release_resource`, with the parent at hand. -/
def releaseLinked (parent old : Id) : Outcome × State :=
  if old ∈ s.child parent then
    (.success, { s with
      child := update s.child parent ((s.child parent).erase old)
      parent := update s.parent old none })
  else
    (.failure, s)

/-! ### Insertion -/

/-- The second loop of `__insert_resource`: the run of siblings inside `new` and what comes behind
it, or one that overlaps it partially. -/
def takeRun (res : Id → Res) (new : Id) : List Id → Except Id (List Id × List Id)
  | [] => .ok ([], [])
  | next :: rest =>
    if (res next).start < (res new).start ∨ (res next).stop > (res new).stop then
      .error next
    else
      match rest with
      | [] => .ok ([next], [])
      | sibling :: _ =>
        if (res sibling).start > (res new).stop then
          .ok ([next], rest)
        else
          (takeRun res new rest).map fun (run, back) => (next :: run, back)

/-- The end of `__insert_resource`: `new` takes the place of a run of children from `first` on. -/
def insertOver (parent first new : Id) : Outcome × State :=
  match takeRun s.res new ((s.child parent).dropWhile (· ≠ first)) with
  | .error _ => (.failure, s)
  | .ok (run, back) =>
    (.success, { s with
      child := update (update s.child new run) parent
        ((s.child parent).takeWhile (· ≠ first) ++ new :: back)
      parent := update (fun id => if id ∈ run then some new else s.parent id) new
        (some parent) })

/-- **`__insert_resource`.** -/
def insertLoop : Nat → State → Id → Id → Option (Outcome × State)
  | 0, _, _, _ => none
  | fuel + 1, s, parent, new =>
    match requestResource s parent new with
    | .ok s' => some (.success, s')
    | .error first =>
      if first = parent then
        some (.failure, s)
      else if (s.res first).start > (s.res new).start ∨
          (s.res first).stop < (s.res new).stop ∨
          ((s.res first).start = (s.res new).start ∧
            (s.res first).stop = (s.res new).stop) then
        some (insertOver s parent first new)
      else
        insertLoop fuel s first new

/-! ### Adjustment -/

def nextSibling (id : Id) : List Id → Option Id
  | one :: two :: rest => if one = id then some two else nextSibling id (two :: rest)
  | _ => none

def prevSibling (id : Id) : List Id → Option Id
  | one :: two :: rest => if two = id then some one else prevSibling id (two :: rest)
  | _ => none

/-- The last address of a range, computed as the source does. -/
def lastOf (start size : BitVec 32) : BitVec 32 :=
  start + size - 1

def State.setRange (id : Id) (start stop : BitVec 32) : State :=
  { s with res := update s.res id ⟨start, stop, (s.res id).flags⟩ }

/-- What `adjust_resource` compares before it writes. -/
def adjustFits (parent id : Id) (start stop : BitVec 32) : Bool :=
  !(start < (s.res parent).start || stop > (s.res parent).stop) &&
  (s.child id).all (fun tmp => !((s.res tmp).start < start || (s.res tmp).stop > stop)) &&
  (nextSibling id (s.child parent)).all (fun next => !(s.res next).start ≤ stop) &&
  (prevSibling id (s.child parent)).all (fun prev => !start ≤ (s.res prev).stop)

/-- **`adjust_resource`**, with the parent at hand. -/
def adjustLinked (parent id : Id) (start size : BitVec 32) : Outcome × State :=
  if adjustFits s parent id start (lastOf start size) then
    (.success, s.setRange id start (lastOf start size))
  else
    (.failure, s)

/-! ### Regions -/

/-- `kfree` of a resource. -/
def State.free (id : Id) : State :=
  { s with live := update s.live id false }

/-- `kzalloc` of a resource and the fields `__request_region` gives it. -/
def State.alloc (id : Id) (res : Res) : State where
  res := update s.res id res
  parent := update s.parent id none
  child := update s.child id []
  live := update s.live id true

/-- **The loop of `__request_region`.** -/
def regionLoop (flags : BitVec 32) : Nat → State → Id → Id → Option (Outcome × State)
  | 0, _, _, _ => none
  | fuel + 1, s, parent, new =>
    match requestResource s parent new with
    | .ok s' => some (.success, s')
    | .error conflict =>
      if conflict ≠ parent ∧ s.busy conflict = false then
        regionLoop flags fuel s conflict new
      else if (s.res conflict).flags &&& flags &&& ioresourceMuxed ≠ 0 then
        some (.waits conflict, s)
      else
        some (.failure, s.free new)

/-- What `__release_region` finds in one list of children. -/
inductive Found where
  | nothing
  | region (id : Id)
  | inside (id : Id)

/-- The walk of `__release_region` along one list of children. -/
def scanChildren (s : State) (start stop : BitVec 32) : List Id → Found
  | [] => .nothing
  | id :: rest =>
    if (s.res id).start ≤ start ∧ (s.res id).stop ≥ stop then
      if s.busy id = false then
        .inside id
      else if (s.res id).start ≠ start ∨ (s.res id).stop ≠ stop then
        .nothing
      else
        .region id
    else
      scanChildren s start stop rest

/-- **`__release_region`**: the region is unlinked and freed, or the source warns of it. -/
def releaseRegion (start stop : BitVec 32) : Nat → State → Id → Option (Outcome × State)
  | 0, _, _ => none
  | fuel + 1, s, parent =>
    match scanChildren s start stop (s.child parent) with
    | .nothing => some (.failure, s)
    | .inside id => releaseRegion start stop fuel s id
    | .region id =>
      some (.success, State.free { s with
        child := update s.child parent ((s.child parent).erase id) } id)

/-! ### Calls -/

/-- The calls. `requestRegion` is given the memory `kzalloc` found, if any. -/
inductive Call where
  | requestResource (root new : Id)
  | insertResource (parent new : Id)
  | releaseResource (old : Id)
  | adjustResource (id : Id) (start size : BitVec 32)
  | requestRegion (parent : Id) (start n flags : BitVec 32) (memory : Option Id)
  | resume (parent new : Id) (flags : BitVec 32)
  | releaseRegion (parent : Id) (start n : BitVec 32)

/-- A pointer that is followed must be to a resource that is allocated. -/
def State.deref (pointer : Option Id) : Option Id :=
  pointer.filter s.live

/-- **One call.** -/
def call (fuel : Nat) (s : State) : Call → Option (Outcome × State)
  | .requestResource root new => do
      let root ← s.deref (some root)
      match Resource.requestResource s root new with
      | .ok s' => some (.success, s')
      | .error _ => some (.failure, s)
  | .insertResource parent new => do
      let parent ← s.deref (some parent)
      insertLoop fuel s parent new
  | .releaseResource old => do
      let parent ← s.deref (s.parent old)
      some (releaseLinked s parent old)
  | .adjustResource id start size => do
      let parent ← s.deref (s.parent id)
      if id ∈ s.child parent then
        some (adjustLinked s parent id start size)
      else
        none
  | .requestRegion parent start n flags memory =>
    match memory with
    | none => some (.failure, s)
    | some new => do
        let parent ← s.deref (some parent)
        regionLoop flags fuel
          (s.alloc new ⟨start, lastOf start n, ioresourceBusy ||| flags⟩) parent new
  | .resume parent new flags => do
      let parent ← s.deref (some parent)
      regionLoop flags fuel s parent new
  | .releaseRegion parent start n => do
      let parent ← s.deref (some parent)
      Resource.releaseRegion start (lastOf start n) fuel s parent

end KernelImx.Resource
