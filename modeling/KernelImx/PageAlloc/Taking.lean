/-
**Taking blocks out of a zone.**

Main result: `rmqueue_spec`.
-/

import KernelImx.PageAlloc.Blocks

namespace KernelImx.PageAlloc

open KernelImx.Lib.Dyadic Nat Option List Block

variable {zone : Zone} {state : State} {points : Nat → Prop} {page order currentOrder : Nat}
  {migratetype : Migratetype} {disabled : Bool}

/-! ### A part of a block -/

/-- A block of an order has been taken: it was free, and it is not free any more. -/
structure Allocated (zone : Zone) (points : Nat → Prop) (order page : Nat) (state : State) : Prop where
  aligned : 2 ^ order ∣ page
  wasFree : ∀ pfn, (Block.ofPoint order page).Holds pfn → points pfn
  kept : Kept zone state (fun pfn => points pfn ∧ ¬ (Block.ofPoint order page).Holds pfn)

section

variable (kept : Kept zone state points)

include kept

theorem Kept.order_lt (member : page ∈ state.blocks order) : order < zone.maxOrder := by
  have bounded : order ≤ zone.maxOrder - 1 := kept.tiles.bounded _ (kept.member member)
  have := zone.hasOrders
  omega

/-- **All but the first part of a block comes back.** -/
theorem expand_taken {taken : State} (member : page ∈ state.blocks currentOrder)
    (keptTaken : Kept zone taken (fun pfn => points pfn ∧ ¬ (Block.ofPoint currentOrder page).Holds pfn))
    (large : order ≤ currentOrder) (migratetype : Migratetype) :
    Allocated zone points order page
      (expand taken page order migratetype (currentOrder - order)) := by
  have aligned := kept.aligned currentOrder page member
  have sum : order + (currentOrder - order) = currentOrder := Nat.add_sub_cancel' large
  have free (pfn : Nat) : (Block.ofPoint currentOrder page).Holds pfn → points pfn :=
    kept.free member
  have nested (pfn : Nat) : (Block.ofPoint order page).Holds pfn →
      (Block.ofPoint currentOrder page).Holds pfn :=
    Block.within (ofPoint_holds order page) (ofPoint_holds currentOrder page) large
  have freeable : Freeable zone
      (fun pfn => points pfn ∧ ¬ (Block.ofPoint currentOrder page).Holds pfn) page
      (order + (currentOrder - order)) := by
    rw [sum]
    exact ⟨kept.order_lt member, aligned, fun pfn held =>
      ⟨kept.inside pfn (free pfn held), fun inside => inside.2 held⟩⟩
  have expanded := expand_kept order page migratetype _ _ _ keptTaken freeable
  rw [sum] at expanded
  refine ⟨dvd_trans (pow_dvd_pow 2 large) aligned, fun pfn held => free pfn (nested pfn held),
    expanded.congr fun pfn => ?_⟩
  tauto

/-! ### __rmqueue_smallest -/

/-- **The loop of `__rmqueue_smallest`.** By induction on the orders that are left. -/
theorem smallestFrom_spec (order : Nat) (migratetype : Migratetype) (left currentOrder : Nat)
    (large : order ≤ currentOrder) :
    match smallestFrom state order migratetype left currentOrder with
      | none => ∀ other, currentOrder ≤ other → other < currentOrder + left →
          state.freeList other migratetype = []
      | some (page, state') => Allocated zone points order page state' := by
  induction left generalizing currentOrder with
  | zero =>
    intro other low high
    omega
  | succ left ih =>
    rw [smallestFrom]
    cases list : state.freeList currentOrder migratetype with
    | nil =>
      have later := ih (currentOrder + 1) (by omega)
      cases result : smallestFrom state order migratetype left (currentOrder + 1) with
      | none =>
        rw [result] at later
        intro other low high
        by_cases same : other = currentOrder
        · rw [same]
          exact list
        · exact later other (by omega) (by omega)
      | some taken =>
        rw [result] at later
        exact later
    | cons page rest =>
      have member : page ∈ state.blocks currentOrder :=
        mem_blocks (list ▸ mem_cons_self)
      exact expand_taken kept member (kept.take member) large migratetype

end

/-! ### move_freepages -/

/-- Only lists have changed, and no block its order; the counters are as they were. -/
structure Rearranged (zone : Zone) (points : Nat → Prop) (counts : Nat → Int)
    (state state' : State) : Prop where
  kept : Kept zone { state' with nrFree := counts } points
  blocks : ∀ order page, page ∈ state'.blocks order ↔ page ∈ state.blocks order
  counters : state'.nrFree = state.nrFree

section Moves

variable {counts : Nat → Int}

theorem Rearranged.refl (kept : Kept zone { state with nrFree := counts } points) :
    Rearranged zone points counts state state :=
  ⟨kept, fun _ _ => Iff.rfl, rfl⟩

theorem Rearranged.trans {state' state'' : State} (one : Rearranged zone points counts state state')
    (two : Rearranged zone points counts state' state'') :
    Rearranged zone points counts state state'' :=
  ⟨two.kept, fun order page => (two.blocks order page).trans (one.blocks order page),
    two.counters.trans one.counters⟩

/-- **`move_freepages`.** By induction on the rounds: a page with `PG_buddy` is the head of a block of
the order it names. -/
theorem moveFreepages_kept (migratetype : Migratetype) {endPage : Nat}
    (ends : endPage < zone.zoneStartPfn + zone.spannedPages) :
    ∀ (rounds page : Nat) (state : State), Kept zone { state with nrFree := counts } points →
      zone.zoneStartPfn ≤ page → Rearranged zone points counts state
        (moveFreepages zone migratetype endPage rounds page state).2 := by
  intro rounds
  induction rounds with
  | zero => exact fun page state kept _ => .refl kept
  | succ rounds ih =>
    intro page state kept starts
    rw [moveFreepages]
    split
    · exact .refl kept
    case isFalse inRange =>
      split
      · exact ih _ state kept (by omega)
      case isFalse buddy =>
        simp only [Bool.or_eq_true, Bool.not_eq_true', not_or, Bool.not_eq_false] at buddy
        have here : zone.Has page := ⟨(zone.spans page).mpr ⟨starts, by omega⟩, buddy.1⟩
        have member := (kept.heads page (state.pagePrivate page) here).mp ⟨buddy.2, rfl⟩
        obtain ⟨moved, same⟩ := kept.move member migratetype
        have first : Rearranged zone points counts state
            ((state.listDel page).listAdd page (state.pagePrivate page) migratetype) :=
          ⟨moved, same, rfl⟩
        exact first.trans (ih _ _ moved (le_trans starts (le_add_right _ _)))

theorem moveFreepagesBlock_kept (kept : Kept zone { state with nrFree := counts } points)
    (here : zone.Has page) (migratetype : Migratetype) :
    Rearranged zone points counts state (moveFreepagesBlock zone state page migratetype).2 := by
  rw [moveFreepagesBlock]
  split
  · exact .refl kept
  case isFalse ends =>
    refine moveFreepages_kept migratetype (not_le.mp ends) _ _ state kept ?_
    split
    · exact ((zone.spans page).mp here.1).1
    · omega

end Moves

/-! ### __rmqueue_fallback -/

theorem setPageblockMigratetype_kept (kept : Kept zone state points) (page : Nat)
    (migratetype : Migratetype) :
    Kept zone (setPageblockMigratetype zone disabled state page migratetype) points :=
  kept.of_perm (fun _ => Perm.refl _) rfl rfl rfl

theorem changePageblockRange_kept (migratetype : Migratetype) :
    ∀ (left page : Nat) (state : State), Kept zone state points →
      Kept zone (changePageblockRange zone disabled migratetype left page state) points := by
  intro left
  induction left with
  | zero => exact fun _ _ kept => kept
  | succ _ ih =>
    exact fun page state kept => ih _ _ (setPageblockMigratetype_kept kept page migratetype)

theorem stealBlock_kept {counts : Nat → Int} (kept : Kept zone { state with nrFree := counts } points)
    (here : zone.Has page) (startMigratetype migratetype : Migratetype) :
    Rearranged zone points counts state
      (stealBlock zone disabled state page currentOrder startMigratetype migratetype).1 := by
  rw [stealBlock]
  split
  · have moved := moveFreepagesBlock_kept kept here startMigratetype
    dsimp only
    split
    · exact { moved with kept := setPageblockMigratetype_kept moved.kept page startMigratetype }
    · exact moved
  · exact .refl kept

/-- The body of `__rmqueue_fallback`, with the counter lowered before the moves. -/
theorem takeFallback_kept (kept : Kept zone state points) (member : page ∈ state.blocks currentOrder)
    (large : order ≤ currentOrder) (startMigratetype migratetype : Migratetype) :
    Allocated zone points order page
      (takeFallback zone disabled state order currentOrder page startMigratetype migratetype) := by
  have here := kept.inside page (kept.free member (ofPoint_holds currentOrder page))
  -- the counter is lowered before the moves, which do not look at it
  have stolen := @stealBlock_kept zone (state.addFree currentOrder (-1)) points page currentOrder disabled
    state.nrFree kept here startMigratetype migratetype
  rw [takeFallback]
  generalize stealBlock zone disabled (state.addFree currentOrder (-1)) page currentOrder
    startMigratetype migratetype = result at *
  obtain ⟨⟨freeList, nrFree, pageBuddy, pagePrivate, pageblockType⟩, type⟩ := result
  obtain ⟨keptStolen, blocks, counters⟩ := stolen
  cases counters
  have member' := (blocks currentOrder page).mpr member
  have taken := keptStolen.take member'
  refine expand_taken keptStolen member' ?_ large type
  split
  · exact changePageblockRange_kept startMigratetype _ _ _ taken
  · exact taken

theorem fallbackFrom_spec (state : State) (currentOrder : Nat) (startMigratetype : Migratetype) :
    match fallbackFrom state currentOrder startMigratetype with
    | none => ∀ migratetype ∈ fallbacks startMigratetype, migratetype ≠ .reserve →
        state.freeList currentOrder migratetype = []
    | some (_, page) => page ∈ state.blocks currentOrder := by
  cases result : fallbackFrom state currentOrder startMigratetype with
  | none =>
    intro migratetype member other
    have none := findSome?_eq_none_iff.mp result migratetype member
    rw [if_neg other, map_eq_none_iff] at none
    exact head?_eq_none_iff.mp none
  | some found =>
    obtain ⟨_, _, found⟩ := exists_of_findSome?_eq_some result
    split at found
    · cases found
    · obtain ⟨head, isHead, equal⟩ := map_eq_some_iff.mp found
      cases equal
      exact mem_blocks (mem_of_head? isHead)

/-- **The loop of `__rmqueue_fallback`.** By induction on the orders that are left. -/
theorem fallbackDown_spec (kept : Kept zone state points) (order : Nat)
    (startMigratetype : Migratetype) : ∀ left : Nat,
      match fallbackDown zone disabled state order startMigratetype left with
      | none => ∀ other, order ≤ other → other < order + left →
          ∀ migratetype ∈ fallbacks startMigratetype, migratetype ≠ .reserve →
            state.freeList other migratetype = []
      | some (page, state') => Allocated zone points order page state' := by
  intro left
  induction left with
  | zero =>
    intro other low high
    omega
  | succ left ih =>
    have found := fallbackFrom_spec state (order + left) startMigratetype
    rw [fallbackDown]
    cases from_ : fallbackFrom state (order + left) startMigratetype with
    | none =>
      rw [from_] at found
      cases result : fallbackDown zone disabled state order startMigratetype left with
      | none =>
        rw [result] at ih
        intro other low high
        by_cases same : other = order + left
        · rw [same]
          exact found
        · exact ih other low (by omega)
      | some taken =>
        rw [result] at ih
        exact ih
    | some pair =>
      rw [from_] at found
      exact takeFallback_kept kept found (le_add_right _ _) startMigratetype pair.1

/-! ### __rmqueue -/

/-- The types a block can be asked for. -/
def Migratetype.Requestable (migratetype : Migratetype) : Prop :=
  migratetype = .unmovable ∨ migratetype = .reclaimable ∨ migratetype = .movable

/-- A request looks at its own lists, at those it falls back to, and at the reserve: at all but the
isolated ones. -/
theorem requestable_covers {other : Migratetype} (requestable : migratetype.Requestable)
    (open_ : other ≠ .isolate) :
    other = migratetype ∨ (other ∈ fallbacks migratetype ∧ other ≠ .reserve) ∨ other = .reserve := by
  rcases requestable with rfl | rfl | rfl <;> cases other <;> simp [fallbacks] at *

/-- **`__rmqueue`.** A block that was free is taken; or no list that a request may use has a block of
the order or above. -/
theorem rmqueue_spec (kept : Kept zone state points) (order : Nat) (migratetype : Migratetype)
    (disabled : Bool) :
    match rmqueue zone disabled state order migratetype with
    | none => migratetype.Requestable → ∀ other, order ≤ other → other < zone.maxOrder →
        ∀ type, type ≠ .isolate → state.freeList other type = []
    | some (page, state') => Allocated zone points order page state' := by
  have smallest := fun migratetype =>
    smallestFrom_spec kept order migratetype (zone.maxOrder - order) order le_rfl
  have own := smallest migratetype
  have reserve := smallest .reserve
  have others := @fallbackDown_spec zone state points disabled kept order migratetype
    (zone.maxOrder - order)
  rw [rmqueue, rmqueueSmallest]
  cases first : smallestFrom state order migratetype (zone.maxOrder - order) order with
  | some taken =>
    rw [first] at own
    exact own
  | none =>
    rw [first] at own
    by_cases isReserve : migratetype = .reserve
    · rw [if_pos isReserve]
      rintro (rfl | rfl | rfl)
      · cases isReserve
      · cases isReserve
      · cases isReserve
    rw [if_neg isReserve, rmqueueFallback, rmqueueSmallest]
    cases fallback : fallbackDown zone disabled state order migratetype (zone.maxOrder - order) with
    | some taken =>
      rw [fallback] at others
      exact others
    | none =>
      rw [fallback] at others
      cases last : smallestFrom state order .reserve (zone.maxOrder - order) order with
      | some taken =>
        rw [last] at reserve
        exact reserve
      | none =>
        rw [last] at reserve
        intro requestable other low high type open_
        rcases requestable_covers requestable open_ with rfl | ⟨falls, notReserve⟩ | rfl
        · exact own other low (by omega)
        · exact others other low (by omega) type falls notReserve
        · exact reserve other low (by omega)

end KernelImx.PageAlloc
