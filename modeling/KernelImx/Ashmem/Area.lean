/-
**Ashmem areas and their unpinned ranges** (`mm/ashmem.c`).

The ranges of an area hang on `unpinned_list`, highest pages first; the ranges that were not purged
hang also on the LRU list of the module. `size_t`, `unsigned long` and `__u32` are 32 bits wide.
-/

import KernelImx.Errno

namespace KernelImx.Ashmem

/-! ### Ranges -/

/-- `struct ashmem_range`; `id` stands for the address of the object. -/
structure AshmemRange where
  id : Nat
  asma : Nat
  pgstart : Nat
  pgend : Nat
  /-- `ASHMEM_WAS_PURGED` -/
  purged : Bool
  deriving DecidableEq, Repr

/-- `struct ashmem_area`: `file` says that the backing file has been set up. -/
structure AshmemArea where
  unpinnedList : List AshmemRange
  file : Bool
  size : UInt32
  deriving DecidableEq, Repr

/-- `ashmem_lru_list` and `lru_count`, and the next object of the range cache. -/
structure AshmemLru where
  list : List (Nat × Nat)
  count : Nat
  nextId : Nat
  deriving DecidableEq, Repr

def add32 (a b : Nat) : Nat := (a + b) % 2 ^ 32

def sub32 (a b : Nat) : Nat := (a + 2 ^ 32 - b) % 2 ^ 32

variable (range : AshmemRange)

def rangeSize : Nat := add32 (sub32 range.pgend range.pgstart) 1

def rangeOnLru : Bool := !range.purged

def pageRangeSubsumesRange (pgstart pgend : Nat) : Bool :=
  pgstart ≤ range.pgstart && range.pgend ≤ pgend

def pageRangeSubsumedByRange (pgstart pgend : Nat) : Bool :=
  range.pgstart ≤ pgstart && pgend ≤ range.pgend

def pageInRange (page : Nat) : Bool :=
  range.pgstart ≤ page && page ≤ range.pgend

def pageRangeInRange (pgstart pgend : Nat) : Bool :=
  pageInRange range pgstart || pageInRange range pgend ||
    pageRangeSubsumesRange range pgstart pgend

def rangeBeforePage (page : Nat) : Bool := range.pgend < page

variable (lru : AshmemLru)

def lruAdd (range : AshmemRange) : AshmemLru :=
  { lru with
    list := lru.list ++ [(range.asma, range.id)]
    count := add32 lru.count (rangeSize range) }

def lruDel (range : AshmemRange) : AshmemLru :=
  { lru with
    list := lru.list.erase (range.asma, range.id)
    count := sub32 lru.count (rangeSize range) }

/-- The new range, which the caller links before `prev_range`; `none` is `-ENOMEM`. -/
def rangeAlloc (alloc : Bool) (asma : Nat) (purged : Bool) (pgstart pgend : Nat) :
    Option (AshmemRange × AshmemLru) :=
  if alloc then
    let range : AshmemRange := ⟨lru.nextId, asma, pgstart, pgend, purged⟩
    let lru := { lru with nextId := lru.nextId + 1 }
    some (range, if rangeOnLru range then lruAdd lru range else lru)
  else none

def rangeDel (range : AshmemRange) : AshmemLru :=
  if rangeOnLru range then lruDel lru range else lru

def rangeShrink (range : AshmemRange) (pgstart pgend : Nat) : AshmemRange × AshmemLru :=
  let shrunk := { range with pgstart := pgstart, pgend := pgend }
  (shrunk,
    if rangeOnLru shrunk then
      { lru with count := sub32 lru.count (sub32 (rangeSize range) (rangeSize shrunk)) }
    else lru)

/-! ### The walks over the list of an area -/

/-- The loop of `ashmem_pin` from a position of the list on; `ret` tells whether a range had been
purged. -/
def ashmemPin (alloc : Bool) (pgstart pgend : Nat) :
    List AshmemRange → AshmemLru → Bool → List AshmemRange × AshmemLru × Bool
  | [], lru, ret => ([], lru, ret)
  | range :: rest, lru, ret =>
    -- moved past last applicable page
    if rangeBeforePage range pgstart then (range :: rest, lru, ret)
    else if pageRangeInRange range pgstart pgend then
      let ret := ret || range.purged
      if pageRangeSubsumesRange range pgstart pgend then
        ashmemPin alloc pgstart pgend rest (rangeDel lru range) ret
      else if pgstart ≤ range.pgstart then
        let (shrunk, lru) := rangeShrink lru range (add32 pgend 1) range.pgend
        let (rest, lru, ret) := ashmemPin alloc pgstart pgend rest lru ret
        (shrunk :: rest, lru, ret)
      else if range.pgend ≤ pgend then
        let (shrunk, lru) := rangeShrink lru range range.pgstart (sub32 pgstart 1)
        let (rest, lru, ret) := ashmemPin alloc pgstart pgend rest lru ret
        (shrunk :: rest, lru, ret)
      else
        -- a hole in the middle: the result of `range_alloc` is not looked at
        match rangeAlloc lru alloc range.asma range.purged (add32 pgend 1) range.pgend with
        | some (upper, lru) =>
          let (shrunk, lru) := rangeShrink lru range range.pgstart (sub32 pgstart 1)
          (upper :: shrunk :: rest, lru, ret)
        | none =>
          let (shrunk, lru) := rangeShrink lru range range.pgstart (sub32 pgstart 1)
          (shrunk :: rest, lru, ret)
    else
      let (rest, lru, ret) := ashmemPin alloc pgstart pgend rest lru ret
      (range :: rest, lru, ret)

/-- Where one pass of `ashmem_unpin` over the list stops. -/
inductive UnpinScan
  | insertion (front back : List AshmemRange)
  | subsumed
  | overlap (front : List AshmemRange) (range : AshmemRange) (back : List AshmemRange)
  deriving DecidableEq, Repr

def UnpinScan.skip : UnpinScan → UnpinScan
  | .insertion front back => .insertion (range :: front) back
  | .subsumed => .subsumed
  | .overlap front other back => .overlap (range :: front) other back

def unpinScan (pgstart pgend : Nat) : List AshmemRange → UnpinScan
  | [] => .insertion [] []
  | range :: rest =>
    if rangeBeforePage range pgstart then .insertion [] (range :: rest)
    else if pageRangeSubsumedByRange range pgstart pgend then .subsumed
    else if pageRangeInRange range pgstart pgend then .overlap [] range rest
    else (unpinScan pgstart pgend rest).skip range

/-- `ashmem_unpin` from the label `restart` on. Every `goto restart` has one range less on the list.
-/
def ashmemUnpinLoop (asma : Nat) (alloc : Bool) :
    Nat → Nat → Nat → Bool → List AshmemRange → AshmemLru →
      List AshmemRange × AshmemLru × Except Errno Unit
  | 0, _, _, _, list, lru => (list, lru, .error .enomem)
  | fuel + 1, pgstart, pgend, purged, list, lru =>
    match unpinScan pgstart pgend list with
    | .subsumed => (list, lru, .ok ())
    | .overlap front range back =>
      ashmemUnpinLoop asma alloc fuel (min range.pgstart pgstart) (max range.pgend pgend)
        (purged || range.purged) (front ++ back) (rangeDel lru range)
    | .insertion front back =>
      match rangeAlloc lru alloc asma purged pgstart pgend with
      | some (range, lru) => (front ++ range :: back, lru, .ok ())
      | none => (list, lru, .error .enomem)

def ashmemUnpin (asma : Nat) (alloc : Bool) (pgstart pgend : Nat) (list : List AshmemRange)
    (lru : AshmemLru) : List AshmemRange × AshmemLru × Except Errno Unit :=
  ashmemUnpinLoop asma alloc (list.length + 1) pgstart pgend false list lru

/-- The values of `ASHMEM_GET_PIN_STATUS`. -/
inductive PinStatus
  | isUnpinned
  | isPinned
  deriving DecidableEq, Repr

def ashmemGetPinStatus (pgstart pgend : Nat) : List AshmemRange → PinStatus
  | [] => .isPinned
  | range :: rest =>
    if rangeBeforePage range pgstart then .isPinned
    else if pageRangeInRange range pgstart pgend then .isUnpinned
    else ashmemGetPinStatus pgstart pgend rest

/-! ### The ioctls -/

def pageSize : Nat := 4096

/-- `PAGE_ALIGN` on 32-bit words. -/
def pageAlign (size : Nat) : Nat := add32 size (pageSize - 1) / pageSize * pageSize

/-- `struct ashmem_pin`. -/
structure AshmemPin where
  offset : UInt32
  len : UInt32
  deriving DecidableEq

inductive PinCmd
  | pin
  | unpin
  | getPinStatus
  deriving DecidableEq, Repr

inductive PinRet
  | pin (purged : Bool)
  | unpin
  | getPinStatus (status : PinStatus)
  deriving DecidableEq, Repr

/-- `pin.len` once zero has been replaced by "everything onward". -/
def pinLen (size : UInt32) (pin : AshmemPin) : Nat :=
  if pin.len.toNat = 0 then sub32 (pageAlign size.toNat) pin.offset.toNat else pin.len.toNat

/-- The argument checks of `ashmem_pin_unpin`, and `pgstart` and `pgend`. -/
def pinPages (size : UInt32) (pin : AshmemPin) : Except Errno (Nat × Nat) :=
  let offset := pin.offset.toNat
  let len := pinLen size pin
  if offset % pageSize ≠ 0 ∨ len % pageSize ≠ 0 then .error .einval
  else if 2 ^ 32 - 1 - offset < len then .error .einval
  else if pageAlign size.toNat < add32 offset len then .error .einval
  else .ok (offset / pageSize, sub32 (add32 (offset / pageSize) (len / pageSize)) 1)

/-- `arg` is `none` when `copy_from_user` faults. -/
def ashmemPinUnpin (asma : Nat) (area : AshmemArea) (lru : AshmemLru) (alloc : Bool) (cmd : PinCmd)
    (arg : Option AshmemPin) : AshmemArea × AshmemLru × Except Errno PinRet :=
  if area.file then
    match arg with
    | none => (area, lru, .error .efault)
    | some pin =>
      match pinPages area.size pin with
      | .error err => (area, lru, .error err)
      | .ok (pgstart, pgend) =>
        match cmd with
        | .pin =>
          let (list, lru, ret) := ashmemPin alloc pgstart pgend area.unpinnedList lru false
          ({ area with unpinnedList := list }, lru, .ok (.pin ret))
        | .unpin =>
          let (list, lru, ret) := ashmemUnpin asma alloc pgstart pgend area.unpinnedList lru
          ({ area with unpinnedList := list }, lru, ret.map fun _ => .unpin)
        | .getPinStatus =>
          (area, lru, .ok (.getPinStatus (ashmemGetPinStatus pgstart pgend area.unpinnedList)))
  else (area, lru, .error .einval)

/-- `ASHMEM_SET_SIZE`. -/
def setSize (area : AshmemArea) (size : UInt32) : AshmemArea × Except Errno Unit :=
  if area.file then (area, .error .einval) else ({ area with size := size }, .ok ())

/-- `ashmem_mmap`: the protection bits match the mask or not, and setting up the backing file
succeeds or not. -/
def ashmemMmap (area : AshmemArea) (permitted setup : Bool) : AshmemArea × Except Errno Unit :=
  if area.size = 0 then (area, .error .einval)
  else if !permitted then (area, .error .eperm)
  else if area.file then (area, .ok ())
  else if setup then ({ area with file := true }, .ok ())
  else (area, .error .enomem)

/-! ### The areas of the module -/

/-- The open areas, by the address of their `struct ashmem_area`. -/
structure AshmemAreas where
  areas : Nat → Option AshmemArea
  lru : AshmemLru

/-- No area is open. -/
def AshmemAreas.init : AshmemAreas where
  areas := fun _ => none
  lru := ⟨[], 0, 0⟩

variable (ashmem : AshmemAreas)

def AshmemAreas.setArea (asma : Nat) (area : Option AshmemArea) : AshmemAreas :=
  { ashmem with areas := fun other => if other = asma then area else ashmem.areas other }

/-- `ashmem_open` when its allocation succeeds. -/
def ashmemOpen (asma : Nat) : AshmemAreas := ashmem.setArea asma (some ⟨[], false, 0⟩)

/-- `ashmem_release`. -/
def ashmemRelease (asma : Nat) (area : AshmemArea) : AshmemAreas :=
  { ashmem.setArea asma none with lru := area.unpinnedList.foldl rangeDel ashmem.lru }

def AshmemAreas.range? (entry : Nat × Nat) : Option AshmemRange :=
  (ashmem.areas entry.1).bind fun area => area.unpinnedList.find? fun range => range.id = entry.2

/-- `range->purged = ASHMEM_WAS_PURGED`. -/
def markPurged (id : Nat) (range : AshmemRange) : AshmemRange :=
  if range.id = id then { range with purged := true } else range

def AshmemAreas.purge (entry : Nat × Nat) : AshmemAreas :=
  match ashmem.areas entry.1 with
  | none => ashmem
  | some area =>
    ashmem.setArea entry.1
      (some { area with unpinnedList := area.unpinnedList.map (markPurged entry.2) })

/-- The loop of `ashmem_shrink` over the LRU list; `nr` is the `int` it counts down. -/
def ashmemShrinkLoop : List (Nat × Nat) → Int → AshmemAreas → AshmemAreas
  | [], _, ashmem => ashmem
  | entry :: rest, nr, ashmem =>
    match ashmem.range? entry with
    | none => ashmem
    | some range =>
      let purged := { ashmem.purge entry with lru := lruDel ashmem.lru range }
      let nr := Int.bmod (nr - rangeSize range) (2 ^ 32)
      if nr ≤ 0 then purged else ashmemShrinkLoop rest nr purged

/-- `ashmem_shrink`, with `fs` the bit `__GFP_FS` of the mask, and what it returns. -/
def ashmemShrink (nr : Int) (fs : Bool) : AshmemAreas × Int :=
  if nr ≠ 0 ∧ fs = false then (ashmem, -1)
  else if nr = 0 then (ashmem, Int.bmod ashmem.lru.count (2 ^ 32))
  else
    let after := ashmemShrinkLoop ashmem.lru.list nr ashmem
    (after, Int.bmod after.lru.count (2 ^ 32))

/-- `ASHMEM_PURGE_ALL_CACHES`. -/
def purgeAllCaches (capable : Bool) : AshmemAreas × Except Errno Int :=
  if capable then
    let (_, ret) := ashmemShrink ashmem 0 true
    let (after, _) := ashmemShrink ashmem ret true
    (after, .ok ret)
  else (ashmem, .error .eperm)

end KernelImx.Ashmem
