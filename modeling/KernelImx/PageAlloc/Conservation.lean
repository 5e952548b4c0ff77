/-
**Every history of a zone.**

A history is a sequence of `__free_one_page` and `__rmqueue`. The events of it are kept, the latest
one first, so that the pages that were freed and not allocated since can be told (`FreedSince`).

Main result: `buddy_allocator`.
-/

import KernelImx.Lib.Runs
import KernelImx.PageAlloc.Taking

namespace KernelImx.PageAlloc

open KernelImx.Lib KernelImx.Lib.Dyadic Nat List Block

/-! ### Histories -/

inductive Event
  | freed (page order : Nat)
  | allocated (page order : Nat)
  | failed
  deriving DecidableEq, Repr

/-- The page was freed, and not allocated since. -/
def FreedSince : List Event → Nat → Prop
  | [], _ => False
  | .freed page order :: earlier, pfn =>
    (page ≤ pfn ∧ pfn < page + 2 ^ order) ∨ FreedSince earlier pfn
  | .allocated page order :: earlier, pfn =>
    ¬ (page ≤ pfn ∧ pfn < page + 2 ^ order) ∧ FreedSince earlier pfn
  | .failed :: earlier, pfn => FreedSince earlier pfn

/-- A zone with its history. -/
structure World where
  state : State
  history : List Event

/-- The calls, `page_group_by_mobility_disabled` being what it is at the time. -/
inductive Call
  | free (page order : Nat) (migratetype : Migratetype)
  | rmqueue (order : Nat) (migratetype : Migratetype) (disabled : Bool)
  deriving DecidableEq, Repr

def step (zone : Zone) (world : World) : Call → Option World
  | .free page order migratetype =>
    some ⟨freeOnePage zone world.state page order migratetype, .freed page order :: world.history⟩
  | .rmqueue order migratetype disabled =>
    match rmqueue zone disabled world.state order migratetype with
    | none => some ⟨world.state, .failed :: world.history⟩
    | some (page, state) => some ⟨state, .allocated page order :: world.history⟩

/-- The page lies in a block on the lists. -/
def IsFree (state : State) (pfn : Nat) : Prop :=
  ∃ order, ∃ page ∈ state.blocks order, page ≤ pfn ∧ pfn < page + 2 ^ order

/-- A block of the zone that is freed is aligned, and no page of it is free. -/
def Legal (zone : Zone) (world : World) : Call → Prop
  | .free page order _ => order < zone.maxOrder ∧ 2 ^ order ∣ page ∧
      ∀ pfn, page ≤ pfn → pfn < page + 2 ^ order → zone.Has pfn ∧ ¬ IsFree world.state pfn
  | .rmqueue order _ _ => order < zone.maxOrder

/-- A zone in which nothing is free yet. -/
structure Untouched (zone : Zone) (world : World) : Prop where
  lists : ∀ order migratetype, world.state.freeList order migratetype = []
  counters : ∀ order, world.state.nrFree order = 0
  pages : ∀ pfn, zone.Has pfn → world.state.pageBuddy pfn = false
  history : world.history = []

/-- **What holds in every history.** -/
structure Consistent (zone : Zone) (world : World) : Prop where
  aligned : ∀ order, ∀ page ∈ world.state.blocks order, order < zone.maxOrder ∧ 2 ^ order ∣ page
  disjoint : ∀ one two, ∀ page ∈ world.state.blocks one, ∀ other ∈ world.state.blocks two, ∀ pfn,
    (page ≤ pfn ∧ pfn < page + 2 ^ one) → (other ≤ pfn ∧ pfn < other + 2 ^ two) →
      one = two ∧ page = other
  once : ∀ order, (world.state.blocks order).Nodup
  heads : ∀ page order, zone.Has page →
    ((world.state.pageBuddy page = true ∧ world.state.pagePrivate page = order) ↔
      page ∈ world.state.blocks order)
  counted : ∀ order, world.state.nrFree order =
    ((migratetypes.map fun migratetype => (world.state.freeList order migratetype).length).sum : Nat)
  coalesced : ∀ order, order < zone.maxOrder - 1 → ∀ page ∈ world.state.blocks order,
    page ^^^ (1 <<< order) ∉ world.state.blocks order
  conserved : ∀ pfn, IsFree world.state pfn ↔ FreedSince world.history pfn

section Balance

variable {zone : Zone} {world next : World} {call : Call}

/-- The pages on the lists are those of the history, and the zone keeps what it has to. -/
def Balanced (zone : Zone) (world : World) : Prop :=
  Kept zone world.state (FreedSince world.history)

theorem Balanced.isFree_iff (balanced : Balanced zone world) (pfn : Nat) :
    IsFree world.state pfn ↔ FreedSince world.history pfn := by
  constructor
  · rintro ⟨order, page, member, inside⟩
    exact balanced.free member ((ofPoint_holds_iff (balanced.aligned order page member)).mpr
      inside)
  · intro freed
    obtain ⟨block, member, held⟩ := (balanced.tiles.cover pfn).mp freed
    exact ⟨block.order, block.first, member, holds_iff.mp held⟩

theorem Balanced.consistent (balanced : Balanced zone world) : Consistent zone world where
  aligned order page member := ⟨balanced.order_lt member, balanced.aligned order page member⟩
  disjoint one two page member other member' pfn inside inside' := by
    have aligned := balanced.aligned one page member
    have aligned' := balanced.aligned two other member'
    have same := balanced.tiles.apart _ _ pfn (balanced.member member) (balanced.member member')
      ((ofPoint_holds_iff aligned).mpr inside) ((ofPoint_holds_iff aligned').mpr inside')
    have starts := congrArg Block.first same
    rw [ofPoint_first aligned, ofPoint_first aligned'] at starts
    exact ⟨congrArg Block.order same, starts⟩
  once := balanced.nodup
  heads := balanced.heads
  counted order := by
    rw [balanced.counted order, State.blocks, length_flatMap]
  coalesced order below page member other := by
    have aligned := balanced.aligned order page member
    refine balanced.coalesced _ (balanced.member member) ?_ below
    obtain ⟨index, rfl⟩ := aligned
    rw [mul_comm, mul_two_pow_xor, xor_one] at other
    rw [family, Block.first, Block.sibling, Block.ofPoint]
    rwa [Nat.mul_div_cancel_left _ (Nat.two_pow_pos order)]
  conserved := balanced.isFree_iff

theorem untouched_balanced (untouched : Untouched zone world) : Balanced zone world := by
  obtain ⟨lists, counters, pages, history⟩ := untouched
  have none (order : Nat) : world.state.blocks order = [] := by
    rw [State.blocks, flatMap_eq_nil_iff]
    exact fun migratetype _ => lists order migratetype
  have empty (block : Dyadic.Block) : ¬ family world.state block := by
    rw [family, none]
    exact not_mem_nil
  rw [Balanced, history]
  refine ⟨fun order => ?_, fun order page member => ?_, ⟨fun block member => absurd member (empty block),
    fun pfn => ?_, fun one _ _ member => absurd member (empty one)⟩,
    fun block member => absurd member (empty block), fun page order here => ?_, fun order => ?_,
    fun page freed => freed.elim⟩
  · rw [none]
    exact nodup_nil
  · rw [none] at member
    cases member
  · constructor
    · exact fun freed => freed.elim
    · rintro ⟨block, member, -⟩
      exact absurd member (empty block)
  · rw [none, pages page here]
    simp
  · rw [none, counters]
    rfl

/-- One call keeps the balance, if what it frees is aligned and not free. -/
theorem step_balanced (balanced : Balanced zone world) (legal : Legal zone world call)
    (taken : step zone world call = some next) : Balanced zone next := by
  cases call with
  | free page order migratetype =>
    obtain ⟨small, aligned, fresh⟩ := legal
    cases taken
    have holds (pfn : Nat) := @ofPoint_holds_iff page order pfn aligned
    have freeable : Freeable zone (FreedSince world.history) page order := by
      refine ⟨small, aligned, fun pfn held => ?_⟩
      obtain ⟨low, high⟩ := (holds pfn).mp held
      obtain ⟨here, used⟩ := fresh pfn low high
      exact ⟨here, fun freed => used ((balanced.isFree_iff pfn).mpr freed)⟩
    refine (freeOnePage_kept balanced freeable migratetype).congr fun pfn => ?_
    rw [holds, or_comm]
    rfl
  | rmqueue order migratetype disabled =>
    have spec := rmqueue_spec balanced order migratetype disabled
    rw [step] at taken
    cases result : rmqueue zone disabled world.state order migratetype with
    | none =>
      rw [result] at taken
      cases taken
      exact balanced
    | some pair =>
      rw [result] at taken spec
      cases taken
      refine spec.kept.congr fun pfn => ?_
      rw [ofPoint_holds_iff spec.aligned, and_comm]
      rfl

end Balance

/-- **The buddy allocator.** After all calls that free aligned blocks which are not free, the zone
is consistent with its history, and NULL means that no list but the isolated ones has a block that
large. -/
theorem buddy_allocator (zone : Zone) (initial world : World) (calls : List Call)
    (untouched : Untouched zone initial) (legal : Along (step zone) (Legal zone) initial calls)
    (run : exec (step zone) initial calls = some world) :
    Consistent zone world ∧
      ∀ order migratetype disabled, migratetype.Requestable →
        rmqueue zone disabled world.state order migratetype = none →
        ∀ other, order ≤ other → other < zone.maxOrder → ∀ type, type ≠ .isolate →
          world.state.freeList other type = [] := by
  have balanced : Balanced zone world :=
    exec_invariant_along (Balanced zone)
      (fun _ _ _ before allowed taken => step_balanced before allowed taken)
      (untouched_balanced untouched) legal run
  refine ⟨balanced.consistent, fun order migratetype disabled requestable failed => ?_⟩
  have spec := rmqueue_spec balanced order migratetype disabled
  rw [failed] at spec
  exact spec requestable

/-! ### A small zone -/

def eightPages : Zone where
  maxOrder := 3
  pageblockOrder := 1
  zoneStartPfn := 0
  spannedPages := 8
  pfnValidWithin _ := true
  pageZoneId pfn := if pfn < 8 then 0 else 1
  zoneId := 0
  spans pfn := by
    split
    · simp only [true_iff]
      omega
    · simp only [succ_ne_zero, false_iff]
      omega
  hasOrders := by decide

theorem empty_untouched (zone : Zone) : Untouched zone ⟨.empty, []⟩ :=
  ⟨fun _ _ => rfl, fun _ => rfl, fun _ _ => rfl, rfl⟩

theorem eightPages_has {pfn : Nat} (below : pfn < 8) : eightPages.Has pfn := ⟨if_pos below, rfl⟩

theorem Balanced.legal_free {zone : Zone} {world : World} {page order : Nat}
    (balanced : Balanced zone world) (small : order < zone.maxOrder) (aligned : 2 ^ order ∣ page)
    (fresh : ∀ pfn, page ≤ pfn → pfn < page + 2 ^ order →
      zone.Has pfn ∧ ¬ FreedSince world.history pfn) (migratetype : Migratetype) :
    Legal zone world (.free page order migratetype) := by
  refine ⟨small, aligned, fun pfn low high => ?_⟩
  rw [balanced.isFree_iff]
  exact fresh pfn low high

/-- Two buddies are freed, and are one block of four pages after that. -/
theorem buddy_allocator_merges : ∃ world,
    exec (step eightPages) ⟨.empty, []⟩ [.free 0 1 .movable, .free 2 1 .unmovable] = some world ∧
      world.state.blocks 2 = [0] ∧ Consistent eightPages world := by
  have start := untouched_balanced (empty_untouched eightPages)
  have first : Legal eightPages ⟨.empty, []⟩ (.free 0 1 .movable) :=
    start.legal_free (by decide) (by decide)
      (fun pfn _ high => ⟨eightPages_has (by omega), id⟩) _
  have second : Legal eightPages ⟨freeOnePage eightPages .empty 0 1 .movable, [.freed 0 1]⟩
      (.free 2 1 .unmovable) := by
    refine (step_balanced start first rfl).legal_free (by decide) (by decide) (fun pfn low high => ?_) _
    refine ⟨eightPages_has (by omega), ?_⟩
    rintro (inside | none)
    · omega
    · exact none
  have legal : Along (step eightPages) (Legal eightPages) ⟨.empty, []⟩
      [.free 0 1 .movable, .free 2 1 .unmovable] := by
    refine ⟨first, fun _ taken => ?_⟩
    cases taken
    exact ⟨second, fun _ _ => trivial⟩
  exact ⟨_, rfl, by decide +kernel,
    (buddy_allocator eightPages _ _ _ (empty_untouched _) legal rfl).1⟩

/-- **A request for `MIGRATE_ISOLATE`** tries the unmovable lists only, and fails although a movable
page is free. -/
theorem isolate_starves : ∃ world,
    exec (step eightPages) ⟨.empty, []⟩ [.free 0 0 .movable] = some world ∧
      Legal eightPages ⟨.empty, []⟩ (.free 0 0 .movable) ∧
      rmqueue eightPages false world.state 0 .isolate = none ∧
      world.state.freeList 0 .movable = [0] := by
  have start := untouched_balanced (empty_untouched eightPages)
  exact ⟨_, rfl, start.legal_free (by decide) (by decide)
    (fun pfn _ high => ⟨eightPages_has (by omega), id⟩) _, by decide +kernel, by decide +kernel⟩

end KernelImx.PageAlloc
