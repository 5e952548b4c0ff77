/-
**The page allocator.**

The model of the buddy allocator of `mm/page_alloc.c`: `__free_one_page`, `expand`,
`__rmqueue_smallest`, `move_freepages`, `__rmqueue_fallback` and `__rmqueue`.
-/

import Mathlib.Data.Nat.Bitwise

namespace KernelImx.PageAlloc

open Function

/-! ### Zones -/

inductive Migratetype
  | unmovable
  | reclaimable
  | movable
  | reserve
  | isolate
  deriving DecidableEq, Repr

def migratetypes : List Migratetype := [.unmovable, .reclaimable, .movable, .reserve, .isolate]

/-- The table `fallbacks`, with zero (`MIGRATE_UNMOVABLE`) where the source fills nothing. -/
def fallbacks : Migratetype → List Migratetype
  | .unmovable => [.reclaimable, .movable, .reserve, .unmovable]
  | .reclaimable => [.unmovable, .movable, .reserve, .unmovable]
  | .movable => [.reclaimable, .unmovable, .reserve, .unmovable]
  | .reserve => [.reserve, .reserve, .reserve, .unmovable]
  | .isolate => [.unmovable, .unmovable, .unmovable, .unmovable]

/-- What is fixed: the configuration and the span of the zone. -/
structure Zone where
  maxOrder : Nat
  pageblockOrder : Nat
  zoneStartPfn : Nat
  spannedPages : Nat
  pfnValidWithin : Nat → Bool
  pageZoneId : Nat → Nat
  zoneId : Nat
  /-- The pages of the span are those of the zone. -/
  spans : ∀ pfn, pageZoneId pfn = zoneId ↔
    zoneStartPfn ≤ pfn ∧ pfn < zoneStartPfn + spannedPages
  hasOrders : 0 < maxOrder

/-- What changes: the lists and counters of the zone, the pages, the types of the pageblocks. -/
structure State where
  freeList : Nat → Migratetype → List Nat
  nrFree : Nat → Int
  pageBuddy : Nat → Bool
  pagePrivate : Nat → Nat
  pageblockType : Nat → Migratetype

def State.empty : State :=
  ⟨fun _ _ => [], fun _ => 0, fun _ => false, fun _ => 0, fun _ => .movable⟩

variable (state : State)

namespace State

def blocks (order : Nat) : List Nat := migratetypes.flatMap (state.freeList order)

def setPageOrder (page order : Nat) : State :=
  { state with
    pageBuddy := update state.pageBuddy page true
    pagePrivate := update state.pagePrivate page order }

def rmvPageOrder (page : Nat) : State :=
  { state with
    pageBuddy := update state.pageBuddy page false
    pagePrivate := update state.pagePrivate page 0 }

def listDel (page : Nat) : State :=
  { state with freeList := fun order migratetype => (state.freeList order migratetype).erase page }

def setList (order : Nat) (migratetype : Migratetype) (list : List Nat) : State :=
  { state with
    freeList := update state.freeList order
      (update (state.freeList order) migratetype list) }

def listAdd (page order : Nat) (migratetype : Migratetype) : State :=
  state.setList order migratetype (page :: state.freeList order migratetype)

def listAddTail (page order : Nat) (migratetype : Migratetype) : State :=
  state.setList order migratetype (state.freeList order migratetype ++ [page])

/-- `nr_free` of an order changes. -/
def addFree (order : Nat) (change : Int) : State :=
  { state with nrFree := update state.nrFree order (state.nrFree order + change) }

end State

/-! ### Freeing -/

/-- `__page_find_buddy`. -/
def pageFindBuddy (page pageIdx order : Nat) : Nat :=
  let buddyIdx := pageIdx ^^^ (1 <<< order)
  (page + ((buddyIdx : Int) - pageIdx)).toNat

/-- `__find_combined_index`. -/
def findCombinedIndex (pageIdx order : Nat) : Nat := pageIdx.ldiff (1 <<< order)

variable (zone : Zone)

def pageIsBuddy (state : State) (page buddy order : Nat) : Bool :=
  zone.pfnValidWithin buddy && zone.pageZoneId page == zone.pageZoneId buddy &&
    (state.pageBuddy buddy && state.pagePrivate buddy == order)

/-- The page with another index in its block of `2 ^ MAX_ORDER` pages. -/
def pageAt (page pageIdx otherIdx : Nat) : Nat := (page + ((otherIdx : Int) - pageIdx)).toNat

/-- The loop of `__free_one_page` below `MAX_ORDER - 1`: the state, the page, its index and its
order. -/
def coalesce (zone : Zone) : Nat → State → Nat → Nat → Nat → State × Nat × Nat × Nat
  | 0, state, page, pageIdx, order => (state, page, pageIdx, order)
  | left + 1, state, page, pageIdx, order =>
    let buddy := pageFindBuddy page pageIdx order
    if pageIsBuddy zone state page buddy order then
      let state := ((state.listDel buddy).addFree order (-1)).rmvPageOrder buddy
      let combinedIdx := findCombinedIndex pageIdx order
      coalesce zone left state (pageAt page pageIdx combinedIdx) combinedIdx (order + 1)
    else (state, page, pageIdx, order)

/-- The page goes to the tail of its list if it is likely to be coalesced soon. -/
def addsAtTail (state : State) (page pageIdx order : Nat) : Bool :=
  order < zone.maxOrder - 1 && zone.pfnValidWithin (pageFindBuddy page pageIdx order) &&
    let combinedIdx := findCombinedIndex pageIdx order
    let higherPage := pageAt page pageIdx combinedIdx
    let higherBuddy := pageFindBuddy higherPage combinedIdx (order + 1)
    pageIsBuddy zone state higherPage higherBuddy (order + 1)

/-- `__free_one_page`. -/
def freeOnePage (state : State) (page order : Nat) (migratetype : Migratetype) : State :=
  let pageIdx := page &&& ((1 <<< zone.maxOrder) - 1)
  let (state, page, pageIdx, order) :=
    coalesce zone (zone.maxOrder - 1 - order) state page pageIdx order
  let state := state.setPageOrder page order
  let state :=
    if addsAtTail zone state page pageIdx order then state.listAddTail page order migratetype
    else state.listAdd page order migratetype
  state.addFree order 1

/-! ### Taking blocks -/

/-- `expand`: the upper halves go back, from `high` down to `low`. The number is `high - low`. -/
def expand (state : State) (page low : Nat) (migratetype : Migratetype) : Nat → State
  | 0 => state
  | steps + 1 =>
    let high := low + steps
    let half := page + 2 ^ high
    let state := ((state.listAdd half high migratetype).addFree high 1).setPageOrder half high
    expand state page low migratetype steps

/-- The loop of `__rmqueue_smallest` from `currentOrder` on, for the orders that are left. -/
def smallestFrom (state : State) (order : Nat) (migratetype : Migratetype) :
    Nat → Nat → Option (Nat × State)
  | 0, _ => none
  | left + 1, currentOrder =>
    match state.freeList currentOrder migratetype with
    | [] => smallestFrom state order migratetype left (currentOrder + 1)
    | page :: _ =>
      let state := ((state.listDel page).rmvPageOrder page).addFree currentOrder (-1)
      some (page, expand state page order migratetype (currentOrder - order))

/-- `__rmqueue_smallest`: the page, or NULL with nothing changed. -/
def rmqueueSmallest (state : State) (order : Nat) (migratetype : Migratetype) :
    Option (Nat × State) :=
  smallestFrom state order migratetype (zone.maxOrder - order) order

/-- The loop of `move_freepages` up to `endPage`: the number of pages that are moved. -/
def moveFreepages (zone : Zone) (migratetype : Migratetype) (endPage : Nat) :
    Nat → Nat → State → Nat × State
  | 0, _, state => (0, state)
  | rounds + 1, page, state =>
    if endPage < page then (0, state)
    else if !zone.pfnValidWithin page || !state.pageBuddy page then
      moveFreepages zone migratetype endPage rounds (page + 1) state
    else
      let order := state.pagePrivate page
      let (moved, state) := moveFreepages zone migratetype endPage rounds (page + 1 <<< order)
        ((state.listDel page).listAdd page order migratetype)
      (moved + 1 <<< order, state)

def moveFreepagesBlock (state : State) (page : Nat) (migratetype : Migratetype) : Nat × State :=
  let pageblockNrPages := 1 <<< zone.pageblockOrder
  let startPfn := page.ldiff (pageblockNrPages - 1)
  let endPfn := startPfn + pageblockNrPages - 1
  let startPage := if startPfn < zone.zoneStartPfn then page else startPfn
  if zone.zoneStartPfn + zone.spannedPages ≤ endPfn then (0, state)
  else moveFreepages zone migratetype endPfn (endPfn + 1 - startPage) startPage state

/-- `set_pageblock_migratetype`, with `page_group_by_mobility_disabled`. -/
def setPageblockMigratetype (disabled : Bool) (state : State) (page : Nat)
    (migratetype : Migratetype) : State :=
  { state with
    pageblockType := update state.pageblockType (page >>> zone.pageblockOrder)
      (if disabled then .unmovable else migratetype) }

/-- `change_pageblock_range`, for a number of pageblocks. -/
def changePageblockRange (zone : Zone) (disabled : Bool) (migratetype : Migratetype) :
    Nat → Nat → State → State
  | 0, _, state => state
  | left + 1, page, state =>
    changePageblockRange zone disabled migratetype left (page + 1 <<< zone.pageblockOrder)
      (setPageblockMigratetype zone disabled state page migratetype)

/-- A list of another type that `__rmqueue_fallback` takes a block of an order from, and its first
page. -/
def fallbackFrom (currentOrder : Nat) (startMigratetype : Migratetype) :
    Option (Migratetype × Nat) :=
  (fallbacks startMigratetype).findSome? fun migratetype =>
    if migratetype = .reserve then none
    else (state.freeList currentOrder migratetype).head?.map fun page => (migratetype, page)

/-- The pages of the pageblock are moved to the wanted type, if the block is large. -/
def stealBlock (disabled : Bool) (state : State) (page currentOrder : Nat)
    (startMigratetype migratetype : Migratetype) : State × Migratetype :=
  if zone.pageblockOrder >>> 1 ≤ currentOrder || startMigratetype == .reclaimable || disabled then
    let (pages, state) := moveFreepagesBlock zone state page startMigratetype
    let state :=
      if 1 <<< (zone.pageblockOrder - 1) ≤ pages || disabled then
        setPageblockMigratetype zone disabled state page startMigratetype
      else state
    (state, startMigratetype)
  else (state, migratetype)

/-- The body of `__rmqueue_fallback` for the block that is found. -/
def takeFallback (disabled : Bool) (state : State) (order currentOrder page : Nat)
    (startMigratetype migratetype : Migratetype) : State :=
  let (state, migratetype) := stealBlock zone disabled (state.addFree currentOrder (-1)) page
    currentOrder startMigratetype migratetype
  let state := (state.listDel page).rmvPageOrder page
  let state :=
    if zone.pageblockOrder ≤ currentOrder then
      changePageblockRange zone disabled startMigratetype
        (1 <<< (currentOrder - zone.pageblockOrder)) page state
    else state
  expand state page order migratetype (currentOrder - order)

/-- The loop of `__rmqueue_fallback` from the highest order down to `order`, for the orders left. -/
def fallbackDown (zone : Zone) (disabled : Bool) (state : State) (order : Nat)
    (startMigratetype : Migratetype) : Nat → Option (Nat × State)
  | 0 => none
  | left + 1 =>
    match fallbackFrom state (order + left) startMigratetype with
    | none => fallbackDown zone disabled state order startMigratetype left
    | some (migratetype, page) =>
      some (page, takeFallback zone disabled state order (order + left) page startMigratetype
        migratetype)

/-- `__rmqueue_fallback`. -/
def rmqueueFallback (disabled : Bool) (state : State) (order : Nat) (startMigratetype : Migratetype) :
    Option (Nat × State) :=
  fallbackDown zone disabled state order startMigratetype (zone.maxOrder - order)

/-- `__rmqueue`: the page, or NULL with nothing changed. -/
def rmqueue (disabled : Bool) (state : State) (order : Nat) (migratetype : Migratetype) :
    Option (Nat × State) :=
  match rmqueueSmallest zone state order migratetype with
  | some taken => some taken
  | none =>
    if migratetype = .reserve then none
    else
      match rmqueueFallback zone disabled state order migratetype with
      | some taken => some taken
      | none => rmqueueSmallest zone state order .reserve

end KernelImx.PageAlloc
