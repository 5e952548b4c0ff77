/-
**Small id to pointer translation** (`lib/idr.c`).

An `idr` is a radix tree with 32 slots in each layer. A set bit in the bitmap of a leaf says that the
id is taken, a set bit above says that everything below is taken.

The tree has no sharing: a pointer to a layer is its path from the top, the indices on the way down.
An `int` is its word of 32 bits. `none` stands for a `BUG_ON`, the use of a `NULL` pointer or a search
that does not end.
-/

import Mathlib.Data.BitVec
import KernelImx.Errno

namespace KernelImx.Ids

/-! ### Layers -/

/-- A slot of `ary`: `NULL`, a pointer of the user in a leaf, or a `struct idr_layer`. -/
inductive Slot (α : Type)
  | null
  | user (ptr : α)
  | layer (bitmap : BitVec 32) (ary : Nat → Slot α) (count level : Nat)

/-- `struct idr`; the layers of the free list are all the same. -/
structure Idr (α : Type) where
  top : Slot α
  layers : Nat
  idFreeCnt : Nat

/-- `IDR_SIZE`, with `IDR_BITS` 5. -/
def idrSize : Nat := 32

/-- `MAX_LEVEL` -/
def maxLevel : Nat := 7

/-- `IDR_FREE_MAX` -/
def idrFreeMax : Nat := maxLevel + maxLevel

/-- `MAX_ID_BIT` -/
def maxIdBit : Nat := 2 ^ 31

/-- `(id >> (IDR_BITS*l)) & IDR_MASK` -/
def digit (id l : Nat) : Nat := id / idrSize ^ l % idrSize

def setBit (bitmap : BitVec 32) (n : Nat) : BitVec 32 := bitmap ||| BitVec.twoPow 32 n

def clearBit (bitmap : BitVec 32) (n : Nat) : BitVec 32 := bitmap &&& ~~~ BitVec.twoPow 32 n

/-- `IDR_FULL` -/
def idrFull : BitVec 32 := BitVec.allOnes 32

/-- `find_next_bit` on the complement of the bitmap. -/
def findNextZero (bitmap : BitVec 32) (n : Nat) : Nat :=
  ((List.range idrSize).find? fun m => n ≤ m && !bitmap.getLsbD m).getD idrSize

variable {α : Type}

def Slot.isNull : Slot α → Bool
  | .null => true
  | _ => false

/-- A pointer of the user as it is stored; it may be `NULL`. -/
def Slot.ofPtr : Option α → Slot α
  | none => .null
  | some ptr => .user ptr

def Slot.toPtr : Slot α → Option α
  | .user ptr => some ptr
  | _ => none

def emptyLayer (level : Nat) : Slot α := .layer 0 (fun _ => .null) 0 level

def setAry (ary : Nat → Slot α) (n : Nat) (slot : Slot α) : Nat → Slot α :=
  fun other => if other = n then slot else ary other

def Slot.at : List Nat → Slot α → Slot α
  | [], slot => slot
  | n :: rest, .layer _ ary _ _ => (ary n).at rest
  | _ :: _, _ => .null

def Slot.modify (change : Slot α → Slot α) : List Nat → Slot α → Slot α
  | [], slot => change slot
  | n :: rest, .layer bitmap ary count level =>
    .layer bitmap (setAry ary n ((ary n).modify change rest)) count level
  | _ :: _, slot => slot

/-! ### The search for a slot -/

/-- The array `pa` of the layers passed, by their distance from the leaves. -/
abbrev Passed := Nat → Option (List Nat)

def Passed.set (pa : Passed) (l : Nat) (p : Option (List Nat)) : Passed :=
  fun other => if other = l then p else pa other

/-- What `sub_alloc` returns: an id, -1, `IDR_NEED_TO_GROW` with the new start, or
`IDR_NOMORE_SPACE`. -/
inductive AllocResult
  | found (id : Nat)
  | noLayer
  | needToGrow (id : Nat)
  | noMoreSpace
  deriving DecidableEq, Repr

/-- The variables of `sub_alloc`. -/
structure Search (α : Type) where
  idr : Idr α
  id : Nat
  l : Nat
  p : List Nat
  pa : Passed

variable (idr : Idr α)

/-- `restart:` -/
def restart (id : Nat) (pa : Passed) : Search α :=
  ⟨idr, id, idr.layers - 1, [], pa.set idr.layers none⟩

/-- `new->layer = l-1; p->ary[m] = new; p->count++` -/
def addLayer (m l : Nat) : Slot α → Slot α
  | .layer bitmap ary count level => .layer bitmap (setAry ary m (emptyLayer l)) (count + 1) level
  | slot => slot

/-- The loop of `sub_alloc`, with a bound on its rounds. -/
def subAllocLoop : Nat → Search α → Option (Idr α × Passed × AllocResult)
  | 0, _ => none
  | rounds + 1, ⟨idr, id, l, p, pa⟩ =>
    match idr.top.at p with
    | .layer bitmap ary _ _ =>
      let n := digit id l
      let m := findNextZero bitmap n
      if m = idrSize then
        -- no space available go back to previous layer
        let oid := id
        let id := (id / idrSize ^ (l + 1) + 1) * idrSize ^ (l + 1) % 2 ^ 32
        if id < maxIdBit ∧ id ≥ idrSize ^ idr.layers then some (idr, pa, .needToGrow id)
        else
          match pa (l + 1) with
          | none => none
          | some p =>
            if oid / idrSize ^ (l + 2) = id / idrSize ^ (l + 2) then
              subAllocLoop rounds ⟨idr, id, l + 1, p, pa⟩
            else subAllocLoop rounds (restart idr id pa)
      else
        let id := if m ≠ n then (id / idrSize ^ l - n + m) * idrSize ^ l % 2 ^ 32 else id
        if id ≥ maxIdBit then some (idr, pa, .noMoreSpace)
        else
          match l with
          | 0 => some (idr, pa.set 0 (some p), .found id)
          | l + 1 =>
            if (ary m).isNull then
              if idr.idFreeCnt = 0 then some (idr, pa, .noLayer)
              else
                subAllocLoop rounds
                  ⟨{ idr with top := idr.top.modify (addLayer m l) p,
                              idFreeCnt := idr.idFreeCnt - 1 },
                    id, l, p ++ [m], pa.set (l + 1) (some p)⟩
            else subAllocLoop rounds ⟨idr, id, l, p ++ [m], pa.set (l + 1) (some p)⟩
    | _ => none

/-- Every round goes down or moves the id on, and there are fewer than eight layers. -/
def subAlloc (id : Nat) (pa : Passed) : Option (Idr α × Passed × AllocResult) :=
  subAllocLoop (8 * 2 ^ 31) (restart idr id pa)

/-! ### New layers at the top -/

/-- `new->ary[0] = p` -/
def raise (p : Slot α) (level : Nat) : Slot α :=
  match p with
  | .layer bitmap _ _ _ =>
    .layer (if bitmap = idrFull then setBit 0 0 else 0) (setAry (fun _ => .null) 0 p) 1 level
  | p => p

/-- The loop "Add a new layer to the top of the tree", from `layers` on: the top, the number of
layers and the free layers. `none`: a layer is missing, and the new ones go back to the free list.
-/
def growLoop (id : Nat) : Nat → Slot α → Nat → Nat → Option (Slot α × Nat × Nat)
  | 0, p, layers, free => some (p, layers, free)
  | left + 1, p, layers, free =>
    if id ≥ idrSize ^ layers then
      match p with
      | .layer bitmap ary 0 level => growLoop id left (.layer bitmap ary 0 (level + 1)) (layers + 1) free
      | p =>
        if free = 0 then none
        else growLoop id left (raise p layers) (layers + 1) (free - 1)
    else some (p, layers, free)

/-- `build_up:` up to the call of `sub_alloc`. -/
def buildUp (id : Nat) : Option (Idr α) :=
  if idr.top.isNull then
    if idr.idFreeCnt = 0 then none
    else
      (growLoop id (maxLevel - 2) (emptyLayer 0) 1 (idr.idFreeCnt - 1)).map fun (top, layers, free) =>
        ⟨top, layers, free⟩
  else
    (growLoop id (maxLevel - 1 - idr.layers) idr.top idr.layers idr.idFreeCnt).map
      fun (top, layers, free) => ⟨top, layers, free⟩

/-- `idr_get_empty_slot`, with a bound on the number of times the tree is built up. -/
def emptySlotLoop : Nat → Idr α → Nat → Passed → Option (Idr α × Passed × AllocResult)
  | 0, _, _, _ => none
  | rounds + 1, idr, id, pa =>
    match buildUp idr id with
    | none => some (idr, pa, .noLayer)
    | some idr =>
      match subAlloc idr id pa with
      | some (idr, pa, .needToGrow id) => emptySlotLoop rounds idr id pa
      | result => result

/-- The layers added at the top. -/
def idrGetEmptySlot (startingId : Nat) : Option (Idr α × Passed × AllocResult) :=
  emptySlotLoop (2 ^ 31) idr startingId fun _ => none

/-! ### The calls -/

/-- `rcu_assign_pointer(pa[0]->ary[id & IDR_MASK], ptr); pa[0]->count++` and the first `__set_bit` -/
def installPtr (id : Nat) (ptr : Option α) : Slot α → Slot α
  | .layer bitmap ary count level =>
    .layer (setBit bitmap (digit id 0)) (setAry ary (digit id 0) (.ofPtr ptr)) (count + 1) level
  | slot => slot

def Slot.mark (n : Nat) : Slot α → Slot α
  | .layer bitmap ary count level => .layer (setBit bitmap n) ary count level
  | slot => slot

def Slot.full : Slot α → Bool
  | .layer bitmap _ _ _ => bitmap = idrFull
  | _ => false

/-- The loop of `idr_mark_full`, from the layer `pa[l]`. -/
def markLoop (pa : Passed) (id : Nat) : Nat → Nat → List Nat → Slot α → Slot α
  | 0, _, _, top => top
  | left + 1, l, p, top =>
    if (top.at p).full then
      match pa (l + 1) with
      | none => top
      | some p => markLoop pa id left (l + 1) p (top.modify (Slot.mark (digit id (l + 1))) p)
    else top

/-- `idr_get_new_above`: the id, `-EAGAIN` or `-ENOSPC`. -/
def idrGetNewAbove (ptr : Option α) (startingId : Nat) : Option (Idr α × Except Errno Nat) :=
  match idrGetEmptySlot idr startingId with
  | none => none
  | some (idr, pa, .found id) =>
    match pa 0 with
    | none => none
    | some p =>
      some ({ idr with top := markLoop pa id maxLevel 0 p (idr.top.modify (installPtr id ptr) p) },
        .ok id)
  | some (idr, _, .noLayer) => some (idr, .error .eagain)
  | some (idr, _, _) => some (idr, .error .enospc)

/-- The loop of `idr_find`, `n` layers above what it returns. -/
def findLoop (id : Nat) : Nat → Slot α → Option (Slot α)
  | 0, p => some p
  | _ + 1, .null => some .null
  | n + 1, .layer _ ary _ level => if n ≠ level then none else findLoop id n (ary (digit id n))
  | _ + 1, .user _ => none

def idrFind (id : Nat) : Option (Option α) :=
  match idr.top with
  | .layer _ _ _ level =>
    let id := id % maxIdBit
    if id ≥ idrSize ^ (level + 1) then some none
    else (findLoop id (level + 1) idr.top).map Slot.toPtr
  | _ => some none

/-- The loop of `idr_replace`, from a layer on; `none` is `-ENOENT`. -/
def replaceLoop (id : Nat) (ptr : Option α) : Nat → Slot α → Option (Slot α × Option α)
  | 0, .layer bitmap ary count level =>
    if bitmap.getLsbD (digit id 0) then
      some (.layer bitmap (setAry ary (digit id 0) (.ofPtr ptr)) count level,
        (ary (digit id 0)).toPtr)
    else none
  | l + 1, .layer bitmap ary count level =>
    (replaceLoop id ptr l (ary (digit id (l + 1)))).map fun (child, old) =>
      (.layer bitmap (setAry ary (digit id (l + 1)) child) count level, old)
  | _, _ => none

def idrReplace (ptr : Option α) (id : Nat) : Idr α × Except Errno (Option α) :=
  match idr.top with
  | .layer _ _ _ level =>
    let id := id % maxIdBit
    if id ≥ idrSize ^ (level + 1) then (idr, .error .einval)
    else
      match replaceLoop id ptr level idr.top with
      | none => (idr, .error .enoent)
      | some (top, old) => ({ idr with top := top }, .ok old)
  | _ => (idr, .error .einval)

/-- `! --(p->count)`: a layer that holds nothing any more is freed. -/
def dropCount : Slot α → Slot α
  | .layer bitmap ary count level =>
    if count = 1 then .null else .layer bitmap ary (count - 1) level
  | slot => slot

/-- `sub_remove` from a layer on: the slot after it, and whether the id was found. -/
def subRemove (id : Nat) : Nat → Slot α → Slot α × Bool
  | 0, .layer bitmap ary count level =>
    if bitmap.getLsbD (digit id 0) then
      (dropCount (.layer (clearBit bitmap (digit id 0)) (setAry ary (digit id 0) .null) count level),
        true)
    else (.layer bitmap ary count level, false)
  | l + 1, .layer bitmap ary count level =>
    let n := digit id (l + 1)
    let (child, found) := subRemove id l (ary n)
    let p := .layer (clearBit bitmap n) (setAry ary n child) count level
    (if found && child.isNull then dropCount p else p, found)
  | _, slot => (slot, false)

/-- "Single child at leftmost slot: we can shrink the tree." -/
def shrink : Idr α :=
  match idr.top with
  | .layer _ ary 1 _ =>
    if idr.layers > 1 ∧ (ary 0).isNull = false then
      { idr with top := ary 0, layers := idr.layers - 1 }
    else idr
  | _ => idr

/-- `idr_remove`; the free list is cut to less than `IDR_FREE_MAX`. -/
def idrRemove (id : Nat) : Idr α :=
  let id := id % maxIdBit
  let (top, _) := subRemove id (idr.layers - 1) idr.top
  let idr := shrink { idr with top := top, layers := if top.isNull then 0 else idr.layers }
  { idr with idFreeCnt := min idr.idFreeCnt (idrFreeMax - 1) }

/-- `idr_pre_get`; `granted` is the number of layers that can be allocated. -/
def idrPreGet (granted : Nat) : Idr α × Bool :=
  let free := if idr.idFreeCnt < idrFreeMax then min idrFreeMax (idr.idFreeCnt + granted)
    else idr.idFreeCnt
  ({ idr with idFreeCnt := free }, idrFreeMax ≤ free)

end KernelImx.Ids
