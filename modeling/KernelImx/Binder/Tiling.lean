/-
**The allocator keeps its region tiled.**

The buffers tile the region, two free buffers never touch, the two trees hold the free and the
allocated buffers, and a page is there exactly when a header or the data of an allocated buffer lies
on it. Here that is shown for a buffer that is freed.

Main result: `binderFreeBuf_spec`.
-/

import Mathlib.Data.List.Chain
import KernelImx.Lib.Arena
import KernelImx.Lib.Runs
import KernelImx.Binder.Alloc

namespace KernelImx.Binder

open List KernelImx.Lib
open Option hiding or_self
open Bool hiding and_assoc false_and not_or not_true or_false or_self

/-! ### Finding a buffer -/

variable {front before back : List BinderBuffer} {addr : Nat} {buffer : BinderBuffer}
  {list : List BinderBuffer}

theorem locate_some (found : locate addr before list = some (front, buffer, back)) :
    before.reverse ++ list = front.reverse ++ buffer :: back ∧ buffer.addr = addr := by
  induction list generalizing before with
  | nil => cases found
  | cons first rest ih =>
    unfold locate at found
    split at found
    next here =>
      cases found
      exact ⟨rfl, here⟩
    · obtain ⟨parts, same⟩ := ih found
      exact ⟨by rw [← parts]; simp, same⟩

theorem locate_eq (others : ∀ other ∈ front, other.addr ≠ addr) (here : buffer.addr = addr) :
    locate addr before (front ++ buffer :: back) = some (front.reverse ++ before, buffer, back) := by
  induction front generalizing before with
  | nil => simp [locate, here]
  | cons first rest ih =>
    obtain ⟨differ, others⟩ := forall_mem_cons.mp others
    rw [cons_append, locate, if_neg differ, ih others]
    simp

/-! ### Pages -/

theorem setPage_apply (pages : Nat → Bool) (page : Nat) (present : Bool) (other : Nat) :
    setPage pages page present other = if other = page then present else pages other := rfl

theorem allocatePages_spec (pageOk : Nat → Bool) (count page : Nat) (pages : Nat → Bool)
    (absent : ∀ other, page ≤ other → other < page + count → pages other = false) :
    ∃ result done, allocatePages pageOk count page pages = some (result, done) ∧
      ∀ other, result other =
        if done = true ∧ page ≤ other ∧ other < page + count then true else pages other := by
  induction count generalizing page pages with
  | zero =>
    refine ⟨pages, true, rfl, fun other => ?_⟩
    rw [if_neg (by omega)]
  | succ count ih =>
    have here : pages page = false := absent page le_rfl (by omega)
    unfold allocatePages
    simp only [here, false_eq_true, if_false]
    split
    · refine ⟨pages, false, rfl, fun other => ?_⟩
      simp
    obtain ⟨result, done, loop, rest⟩ := ih (page + 1) (setPage pages page true) fun other low high => by
      rw [setPage_apply, if_neg (by omega)]
      exact absent other (by omega) (by omega)
    rw [loop]
    cases done with
    | true =>
      refine ⟨result, true, rfl, fun other => ?_⟩
      rw [rest, setPage_apply]
      grind
    | false =>
      refine ⟨setPage result page false, false, rfl, fun other => ?_⟩
      rw [setPage_apply, rest, setPage_apply]
      grind

theorem freePages_spec (count page : Nat) (pages : Nat → Bool)
    (present : ∀ other, page ≤ other → other < page + count → pages other = true) :
    ∃ result, freePages count page pages = some result ∧
      ∀ other, result other = if page ≤ other ∧ other < page + count then false else pages other := by
  induction count generalizing pages with
  | zero =>
    refine ⟨pages, rfl, fun other => ?_⟩
    rw [if_neg (by omega)]
  | succ count ih =>
    have last : pages (page + count) = true := present _ (by omega) (by omega)
    unfold freePages
    simp only [last, Bool.not_true, false_eq_true, if_false]
    obtain ⟨result, loop, rest⟩ := ih (setPage pages (page + count) false) fun other low high => by
      rw [setPage_apply, if_neg (by omega)]
      exact present other low (by omega)
    refine ⟨result, loop, fun other => ?_⟩
    rw [rest, setPage_apply]
    grind

variable {page : Nat}

theorem pageAlign_le : pageAlign addr ≤ page * pageSize ↔ addr ≤ page * pageSize := by
  unfold pageAlign pageSize
  omega

theorem lt_pageMask : page * pageSize < pageMask addr ↔ page * pageSize + pageSize ≤ addr := by
  unfold pageMask pageSize
  omega

theorem pageAlign_dvd (addr : Nat) : pageSize ∣ pageAlign addr := ⟨_, mul_comm _ _⟩

theorem pageMask_dvd (addr : Nat) : pageSize ∣ pageMask addr := ⟨_, mul_comm _ _⟩

theorem range_pages {start end_ : Nat} (first : pageSize ∣ start) (last : pageSize ∣ end_)
    (nonempty : start < end_) : start / pageSize ≤ page ∧
        page < start / pageSize + (end_ - start) / pageSize ↔
      start ≤ page * pageSize ∧ page * pageSize < end_ := by
  unfold pageSize at *
  omega

theorem allocateRange_spec (env : AllocEnv) (proc : AllocProc) {start end_ : Nat}
    (first : pageSize ∣ start) (last : pageSize ∣ end_)
    (absent : ∀ page, start ≤ page * pageSize → page * pageSize < end_ → proc.pages page = false) :
    ∃ pages done, allocateRange env proc start end_ = some ({ proc with pages := pages }, done) ∧
      ∀ page, pages page = true ↔ proc.pages page = true ∨
        (done = true ∧ start ≤ page * pageSize ∧ page * pageSize < end_) := by
  unfold allocateRange
  split
  · refine ⟨proc.pages, true, rfl, fun page => (or_iff_left ?_).symm⟩
    omega
  next some =>
    split
    · exact ⟨proc.pages, false, rfl, fun page => by simp⟩
    obtain ⟨pages, done, loop, rest⟩ := allocatePages_spec env.pageOk ((end_ - start) / pageSize)
      (start / pageSize) proc.pages fun page low high => by
        obtain ⟨lower, upper⟩ := (range_pages first last (by omega)).mp ⟨low, high⟩
        exact absent page lower upper
    refine ⟨pages, done, by rw [loop]; rfl, fun page => ?_⟩
    rw [rest, ← range_pages first last (by omega : start < end_)]
    split <;> simp_all

theorem freeRange_spec (proc : AllocProc) {start end_ : Nat} (first : pageSize ∣ start)
    (last : pageSize ∣ end_)
    (present : ∀ page, start ≤ page * pageSize → page * pageSize < end_ → proc.pages page = true) :
    ∃ pages, freeRange proc start end_ = some { proc with pages := pages } ∧
      ∀ page, pages page = true ↔ proc.pages page = true ∧
        ¬ (start ≤ page * pageSize ∧ page * pageSize < end_) := by
  unfold freeRange
  split
  · refine ⟨proc.pages, rfl, fun page => (and_iff_left ?_).symm⟩
    omega
  next some =>
    obtain ⟨pages, loop, rest⟩ := freePages_spec ((end_ - start) / pageSize) (start / pageSize)
      proc.pages fun page low high => by
        obtain ⟨lower, upper⟩ := (range_pages first last (by omega)).mp ⟨low, high⟩
        exact present page lower upper
    refine ⟨pages, by rw [loop]; rfl, fun page => ?_⟩
    rw [rest, ← range_pages first last (by omega : start < end_)]
    split <;> simp_all

/-! ### The invariant -/

def BinderBuffer.block (buffer : BinderBuffer) : Block := ⟨buffer.addr, !buffer.free⟩

abbrev blocks (list : List BinderBuffer) : List Block := list.map BinderBuffer.block

theorem bufferEnd_eq (proc : AllocProc) (list : List BinderBuffer) :
    bufferEnd proc list = bound proc.bufferSize (blocks list) := by
  cases list <;> rfl

def addrs (kind : BinderBuffer → Bool) (list : List BinderBuffer) : List Nat :=
  (list.filter kind).map BinderBuffer.addr

section

variable {kind : BinderBuffer → Bool}

theorem addrs_of_kind (is : kind buffer = true) :
    (addrs kind (front ++ buffer :: back)).Perm (buffer.addr :: addrs kind (front ++ back)) := by
  simp only [addrs, filter_append, filter_cons_of_pos is, map_append, map_cons]
  exact perm_middle

theorem addrs_of_other (is : kind buffer = false) :
    addrs kind (front ++ buffer :: back) = addrs kind (front ++ back) := by
  simp [addrs, is]

end

/-- What is taken from `free_async_space`. -/
def asyncSpace (list : List BinderBuffer) : Nat :=
  (list.map fun buffer =>
    if !buffer.free && buffer.asyncTransaction then buffer.size + headerSize else 0).sum

/-- Every allocated buffer has room for its request. -/
def Fits (hi : Nat) : List BinderBuffer → Prop
  | [] => True
  | buffer :: rest =>
    (buffer.free = false → buffer.data + buffer.size ≤ bound hi (blocks rest)) ∧ Fits hi rest

variable {hi : Nat}

theorem fits_append :
    Fits hi (front ++ back) ↔ Fits (bound hi (blocks back)) front ∧ Fits hi back := by
  induction front with
  | nil => simp [Fits]
  | cons buffer rest ih =>
    simp only [cons_append, Fits, blocks, map_append, bound_append, ih, and_assoc]

/-- What every state of the allocator keeps, also between the steps of a call. -/
structure Based (mapped : Nat) (proc : AllocProc) : Prop where
  tiles : Tiles headerSize proc.bufferSize 0 (blocks proc.buffers)
  allocated : (inOrder proc.allocatedBuffers).Perm (addrs (fun buffer => !buffer.free) proc.buffers)
  pages : ∀ page, proc.pages page = true ↔
    Kept headerSize pageSize proc.bufferSize (blocks proc.buffers) (page * pageSize)
  fits : Fits proc.bufferSize proc.buffers
  async : proc.freeAsyncSpace + asyncSpace proc.buffers = mapped / 2
  size : proc.bufferSize = mapped
  region : pageSize ∣ proc.bufferSize
  small : proc.bufferSize ≤ 2 ^ 22

def NotBothFree (first second : BinderBuffer) : Prop := ¬ (first.free = true ∧ second.free = true)

/-- **The invariant of the allocator.** -/
structure Arranged (mapped : Nat) (proc : AllocProc) : Prop where
  based : Based mapped proc
  free : (inOrder proc.freeBuffers).Perm (addrs BinderBuffer.free proc.buffers)
  apart : proc.buffers.IsChain NotBothFree

/-- A free buffer is not yet on the free tree, and its neighbours may be free. -/
structure Loose (mapped : Nat) (proc : AllocProc) (before : List BinderBuffer) (buffer : BinderBuffer)
    (after : List BinderBuffer) : Prop where
  based : Based mapped proc
  list : proc.buffers = before.reverse ++ buffer :: after
  isFree : buffer.free = true
  free : (inOrder proc.freeBuffers).Perm (addrs BinderBuffer.free (before.reverse ++ after))
  front : before.reverse.IsChain NotBothFree
  back : after.IsChain NotBothFree

variable {mapped : Nat} {proc : AllocProc}

theorem Based.withFree (based : Based mapped proc) (tree : BinaryTree Nat) :
    Based mapped { proc with freeBuffers := tree } :=
  { based with }

section Addresses

variable {newBuffer : Nat}

theorem locate_tiles (tiles : Tiles headerSize hi 0 (blocks list))
    (parts : list = front ++ buffer :: back) :
    locate buffer.addr [] list = some (front.reverse, buffer, back) := by
  have sorted := (tiles.sorted (by decide)).2
  rw [pairwise_map, parts] at sorted
  have before : ∀ other ∈ front, other.addr < buffer.addr := fun other member =>
    (pairwise_append.mp sorted).2.2 other member buffer mem_cons_self
  rw [parts, locate_eq (fun other member => (before other member).ne) rfl, append_nil]

theorem locate_node (tiles : Tiles headerSize hi 0 (blocks list)) {kind : BinderBuffer → Bool}
    (member : addr ∈ addrs kind list) :
    ∃ front buffer back, locate addr [] list = some (front, buffer, back) ∧
      list = front.reverse ++ buffer :: back ∧ kind buffer = true ∧ buffer.addr = addr := by
  obtain ⟨buffer, kept, rfl⟩ := mem_map.mp member
  obtain ⟨member, is⟩ := mem_filter.mp kept
  obtain ⟨front, back, parts⟩ := append_of_mem member
  exact ⟨front.reverse, buffer, back, locate_tiles tiles parts, by simpa using parts, is, rfl⟩

theorem visitAllocated_isSome (tiles : Tiles headerSize hi 0 (blocks proc.buffers))
    (member : addr ∈ addrs (fun buffer => !buffer.free) proc.buffers)
    (differ : newBuffer ≠ addr) : (visitAllocated proc newBuffer addr).isSome := by
  obtain ⟨front, buffer, back, located, -, is, -⟩ := locate_node tiles member
  unfold visitAllocated
  rw [located]
  simp only [not_eq_true'] at is
  simp only [is, false_eq_true, if_false]
  split
  · rfl
  · split
    · rfl
    · omega

end Addresses

/-- **The loose buffer goes on the free tree**, where `free_async_space` plays no part. -/
theorem Loose.insert {before after : List BinderBuffer} {buffer : BinderBuffer} (space : Nat)
    (loose : Loose mapped { proc with freeAsyncSpace := space } before buffer after)
    (prev : ∀ other ∈ before.head?, other.free = false)
    (next : ∀ other ∈ after.head?, other.free = false) (balance : Rebalance Nat) :
    ∃ tree, binderInsertFreeBuffer balance proc buffer.addr =
        some { proc with freeBuffers := tree } ∧
      Arranged mapped { proc with freeBuffers := tree, freeAsyncSpace := space } := by
  have located : locate buffer.addr [] proc.buffers = _ := locate_tiles loose.based.tiles loose.list
  have all : (buffer.addr :: inOrder proc.freeBuffers).Perm (addrs BinderBuffer.free proc.buffers) := by
    rw [show proc.buffers = _ from loose.list]
    exact (loose.free.cons _).trans (addrs_of_kind loose.isFree).symm
  have accepts : ∀ addr ∈ inOrder proc.freeBuffers,
      (visitFree proc (binderBufferSize proc buffer after) addr).isSome := by
    intro addr member
    obtain ⟨front, other, back, found, -, is, -⟩ :=
      locate_node loose.based.tiles (all.mem_iff.mp (mem_cons_of_mem _ member))
    unfold visitFree
    rw [found]
    simp [is]
  obtain ⟨tree, links, nodes⟩ := linkLeaf_spec buffer.addr accepts
  refine ⟨balance.run tree, ?_, loose.based.withFree _, ?_, ?_⟩
  · unfold binderInsertFreeBuffer
    rw [located]
    simp only [loose.isFree, Bool.not_true, false_eq_true, if_false, links, map_some]
  · rw [balance.inOrder_run]
    exact nodes.trans all
  rw [show proc.buffers = _ from loose.list, isChain_append]
  refine ⟨loose.front, isChain_cons.mpr ⟨fun other member both => ?_, loose.back⟩,
    fun first last second head both => ?_⟩
  · rw [next other member] at both
    cases both.2
  · rw [getLast?_reverse] at last
    rw [prev first last] at both
    cases both.1

/-- The search returns a free buffer that is large enough. -/
theorem bestFit_spec (based : Based mapped proc) (size : Nat) (tree : BinaryTree Nat)
    (best : Option Nat)
    (nodes : ∀ addr ∈ inOrder tree, addr ∈ addrs BinderBuffer.free proc.buffers)
    (fits : ∀ addr ∈ best, ∃ front buffer back,
      locate addr [] proc.buffers = some (front, buffer, back) ∧ buffer.free = true ∧
        size ≤ binderBufferSize proc buffer back) :
    ∃ result, bestFit proc size tree best = some result ∧ ∀ addr stopped, result = some (addr, stopped) →
      ∃ front buffer back, locate addr [] proc.buffers = some (front, buffer, back) ∧
        buffer.free = true ∧ size ≤ binderBufferSize proc buffer back ∧
        (stopped = true → size = binderBufferSize proc buffer back) := by
  induction tree generalizing best with
  | nil =>
    refine ⟨_, rfl, fun addr stopped found => ?_⟩
    obtain ⟨other, is, same⟩ := map_eq_some_iff.mp found
    obtain ⟨rfl, rfl⟩ := Prod.mk.inj same
    obtain ⟨front, buffer, back, located, free, room⟩ := fits other is
    exact ⟨front, buffer, back, located, free, room, nofun⟩
  | node root left right leftIh rightIh =>
    simp only [inOrder, forall_mem_append, forall_mem_cons] at nodes
    obtain ⟨inLeft, here, inRight⟩ := nodes
    obtain ⟨front, buffer, back, located, -, free, -⟩ := locate_node based.tiles here
    unfold bestFit
    rw [located]
    simp only [free, Bool.not_true, false_eq_true, if_false]
    split
    next smaller =>
      refine leftIh (some root) inLeft fun addr is => ?_
      obtain rfl := mem_some_iff.mp is
      exact ⟨front, buffer, back, located, free, smaller.le⟩
    · split
      · exact rightIh best inRight fits
      · refine ⟨_, rfl, fun addr stopped found => ?_⟩
        cases found
        exact ⟨front, buffer, back, located, free, by omega, fun _ => by omega⟩

/-! ### Freeing a buffer -/

theorem meets_header :
    Meets pageSize addr (addr + headerSize) (page * pageSize) ↔
      page * pageSize = pageMask addr ∨ page * pageSize = pageMask (addr + headerSize - 1) := by
  unfold Meets pageMask pageSize headerSize
  omega

theorem delete_range {start end_ : Nat} {freeStart freeEnd : Bool} (first : pageSize ∣ start)
    (next : end_ = start ∨ end_ = start + pageSize) (either : (freeStart || freeEnd) = true)
    (page : Nat) :
    ((if freeStart then start else end_) ≤ page * pageSize ∧
        page * pageSize < (if freeEnd then end_ else start) + pageSize) ↔
      (page * pageSize = start ∧ freeStart = true) ∨ (page * pageSize = end_ ∧ freeEnd = true) := by
  unfold pageSize at *
  cases freeStart <;> cases freeEnd <;> simp at either ⊢ <;> omega

variable {after : List BinderBuffer} {next : Option BinderBuffer}

section Delete

variable {prev : BinderBuffer}

/-- Does the header before or the one after lie on the page? -/
def sharedWith (prev : BinderBuffer) (next : Option BinderBuffer) (addr : Nat) : Prop :=
  Meets pageSize prev.addr (prev.addr + headerSize) addr ∨
    ∃ other ∈ next, Meets pageSize other.addr (other.addr + headerSize) addr

theorem not_sharedWith : ¬ sharedWith prev after.head? addr ↔
    ¬ Meets pageSize prev.addr (prev.addr + headerSize) addr ∧
      ∀ next ∈ (blocks after).head?, ¬ Meets pageSize next.addr (next.addr + headerSize) addr := by
  cases after <;> simp [sharedWith, BinderBuffer.block]

theorem shared_iff (before : prev.addr + headerSize ≤ buffer.addr)
    (behind : ∀ other ∈ next, buffer.addr + headerSize ≤ other.addr) :
    ((decide (bufferEndPage prev = bufferStartPage buffer) ||
        ((next.any fun next => decide (bufferStartPage next = bufferEndPage buffer)) &&
          next.any fun next => decide (bufferStartPage next = bufferStartPage buffer))) = true ↔
      sharedWith prev next (bufferStartPage buffer)) ∧
    (((decide (bufferEndPage prev = bufferStartPage buffer) &&
        decide (bufferEndPage prev = bufferEndPage buffer)) ||
          next.any fun next => decide (bufferStartPage next = bufferEndPage buffer)) = true ↔
      sharedWith prev next (bufferEndPage buffer)) := by
  unfold sharedWith Meets
  cases next with
  | none =>
    simp only [any_none, Bool.false_and, Bool.or_false, and_eq_true, decide_eq_true_eq,
      mem_def, reduceCtorEq, false_and, exists_false, or_false]
    unfold bufferEndPage bufferStartPage pageMask pageSize headerSize at *
    omega
  | some other =>
    have later := behind other rfl
    simp only [any_some, or_eq_true, and_eq_true, decide_eq_true_eq,
      mem_def, some.injEq, exists_eq_left']
    unfold bufferEndPage bufferStartPage pageMask pageSize headerSize at *
    omega

/-- **The pages of the header are given back, unless a neighbour's header lies on them.** -/
theorem binderDeleteFreeBuffer_eq (isFree : prev.free = true)
    (before : prev.addr + headerSize ≤ buffer.addr)
    (behind : ∀ other ∈ next, buffer.addr + headerSize ≤ other.addr)
    (present : ∀ page, Meets pageSize buffer.addr (buffer.addr + headerSize) (page * pageSize) →
      proc.pages page = true) :
    ∃ pages, binderDeleteFreeBuffer proc prev buffer next = some { proc with pages := pages } ∧
      ∀ page, pages page = true ↔ proc.pages page = true ∧
        ¬ (Meets pageSize buffer.addr (buffer.addr + headerSize) (page * pageSize) ∧
          ¬ sharedWith prev next (page * pageSize)) := by
  obtain ⟨startShared, endShared⟩ := shared_iff before behind
  unfold binderDeleteFreeBuffer
  simp only [isFree, Bool.not_true, false_eq_true, if_false]
  generalize (decide (bufferEndPage prev = bufferStartPage buffer) || _) = startFlag at *
  generalize (_ || next.any fun next => decide (bufferStartPage next = bufferEndPage buffer)) =
    endFlag at *
  have onPage : ∀ page, Meets pageSize buffer.addr (buffer.addr + headerSize) (page * pageSize) ↔
      page * pageSize = bufferStartPage buffer ∨ page * pageSize = bufferEndPage buffer :=
    fun page => meets_header
  have givenBack : ∀ page, Meets pageSize buffer.addr (buffer.addr + headerSize) (page * pageSize) ∧
      ¬ sharedWith prev next (page * pageSize) ↔
        (page * pageSize = bufferStartPage buffer ∧ (!startFlag) = true) ∨
          (page * pageSize = bufferEndPage buffer ∧ (!endFlag) = true) := by
    intro page
    rw [onPage, or_and_right, not_eq_true', not_eq_true', ← not_eq_true,
      ← not_eq_true, startShared, endShared]
    refine or_congr (and_congr_right fun same => ?_) (and_congr_right fun same => ?_)
    · rw [same]
    · rw [same]
  simp only [givenBack]
  split
  next some =>
    have range := @delete_range (bufferStartPage buffer) (bufferEndPage buffer) _ _
      (pageMask_dvd _) (by
        unfold bufferStartPage bufferEndPage pageMask headerSize pageSize
        omega) some
    obtain ⟨pages, freed, rest⟩ := @freeRange_spec proc
      (if (!startFlag) = true then bufferStartPage buffer else bufferEndPage buffer)
      ((if (!endFlag) = true then bufferEndPage buffer else bufferStartPage buffer) + pageSize)
      (by split <;> exact pageMask_dvd _)
      (by split <;> exact (Nat.dvd_add_self_right).mpr (pageMask_dvd _))
      fun page low high => by
        refine present page ((onPage page).mpr ?_)
        exact ((range page).mp ⟨low, high⟩).imp And.left And.left
    exact ⟨pages, freed, fun page => by rw [rest, range page]⟩
  next none =>
    simp only [or_eq_true, not_or] at none
    exact ⟨proc.pages, rfl, fun page => by simp [none]⟩

theorem asyncSpace_append (front back : List BinderBuffer) :
    asyncSpace (front ++ back) = asyncSpace front + asyncSpace back := by
  simp only [asyncSpace, map_append, sum_append]

theorem asyncSpace_cons_free (free : buffer.free = true) :
    asyncSpace (buffer :: after) = asyncSpace after := by
  simp [asyncSpace, free]

theorem asyncSpace_cons_used (used : buffer.free = false) : asyncSpace (buffer :: after) =
    (if buffer.asyncTransaction then buffer.size + headerSize else 0) + asyncSpace after := by
  simp [asyncSpace, used]

theorem Based.merge (based : Based mapped proc)
    (list : proc.buffers = front ++ prev :: buffer :: after) (prevFree : prev.free = true)
    (free : buffer.free = true) :
    ∃ pages, binderDeleteFreeBuffer proc prev buffer after.head? = some { proc with pages := pages } ∧
      Based mapped { proc with pages := pages, buffers := front ++ prev :: after } := by
  obtain ⟨tiles, allocated, kept, fits, async, size, region, small⟩ := based
  rw [list] at tiles allocated kept fits async
  have prevBlock : prev.block = ⟨prev.addr, false⟩ := by simp [BinderBuffer.block, prevFree]
  have block : buffer.block = ⟨buffer.addr, false⟩ := by simp [BinderBuffer.block, free]
  simp only [blocks, map_append, map_cons, prevBlock, block] at tiles kept
  have merged := fun addr => @kept_merge _ pageSize _ _ addr _ _ _ _ tiles (by decide)
  obtain ⟨early, start, room, -, space, late⟩ := tiles_append.mp tiles
  have behind : ∀ other ∈ after.head?, buffer.addr + headerSize ≤ other.addr := by
    intro other head
    cases after with
    | nil => cases head
    | cons first rest =>
      cases head
      exact space
  obtain ⟨pages, deleted, stays⟩ := binderDeleteFreeBuffer_eq prevFree room behind
    fun page header => (kept page).mpr (kept_append.mpr (.inr (.inr (.inr (.inl header)))))
  refine ⟨pages, deleted, ?_, ?_, fun page => ?_, ?_, ?_, size, region, small⟩
  · simp only [blocks, map_append, map_cons, prevBlock]
    exact tiles_append.mpr ⟨early, rfl, (Nat.le_add_right_of_le room).trans space, late⟩
  · simpa [addrs, prevFree, free] using allocated
  · rw [stays, kept]
    simp only [blocks, map_append, map_cons, prevBlock, merged, not_sharedWith]
  · rw [fits_append] at fits ⊢
    exact ⟨fits.1, fun used => by simp [prevFree] at used, fits.2.2.2⟩
  · rw [← async]
    simp only [asyncSpace_append, asyncSpace_cons_free prevFree, asyncSpace_cons_free free]

end Delete

theorem NotBothFree.of_free {first second : BinderBuffer} (apart : NotBothFree first second) :
    (first.free = true → second.free = false) ∧ (second.free = true → first.free = false) := by
  unfold NotBothFree at apart
  cases one : first.free <;> cases two : second.free <;> simp_all

theorem mergeNext_spec (loose : Loose mapped proc before buffer after) (balance : Rebalance Nat) :
    ∃ result rest, mergeNext balance proc before buffer after = some (result, rest) ∧
      Loose mapped result before buffer rest ∧ ∀ next ∈ rest.head?, next.free = false := by
  cases after with
  | nil => exact ⟨proc, [], rfl, loose, nofun⟩
  | cons next after =>
    cases free : next.free with
    | false =>
      refine ⟨proc, next :: after, ?_, loose, fun other head => some.inj head ▸ free⟩
      simp only [mergeNext, free, false_eq_true, if_false]
    | true =>
      obtain ⟨pages, deleted, based⟩ := (loose.based.withFree
        (eraseNode balance next.addr proc.freeBuffers)).merge loose.list loose.isFree free
      simp only [mergeNext, free, if_true, deleted, map_some]
      refine ⟨_, after, rfl, ⟨based, rfl, loose.isFree, ?_, loose.front, loose.back.tail⟩,
        fun other head => ?_⟩
      · exact perm_eraseNode (loose.free.trans (addrs_of_kind free)) balance
      · exact ((isChain_cons.mp loose.back).1 other head).of_free.1 free

theorem mergePrev_spec (loose : Loose mapped proc before buffer after) (balance : Rebalance Nat) :
    ∃ result front merged, mergePrev balance proc buffer after before = some (result, merged.addr) ∧
      Loose mapped result front merged after ∧ ∀ prev ∈ front.head?, prev.free = false := by
  cases before with
  | nil => exact ⟨proc, [], buffer, rfl, loose, nofun⟩
  | cons prev before =>
    cases free : prev.free with
    | false =>
      refine ⟨proc, prev :: before, buffer, ?_, loose, fun other head => some.inj head ▸ free⟩
      simp only [mergePrev, free, false_eq_true, if_false]
    | true =>
      obtain ⟨based, list, isFree, nodes, front, back⟩ := loose
      rw [reverse_cons, append_assoc, singleton_append] at list nodes
      obtain ⟨pages, deleted, based⟩ := based.merge list free isFree
      simp only [mergePrev, free, if_true, deleted, map_some]
      rw [reverse_cons, isChain_append] at front
      refine ⟨_, before, prev, rfl, ⟨based.withFree _, rfl, free, ?_, front.1, back⟩,
        fun other head => ?_⟩
      · exact perm_eraseNode (nodes.trans (addrs_of_kind free)) balance
      · refine (front.2.2 other ?_ prev rfl).of_free.2 free
        rw [getLast?_reverse]
        exact head

theorem Based.extent (based : Based mapped proc) (list : proc.buffers = before.reverse ++ buffer :: after) :
    buffer.data ≤ bound proc.bufferSize (blocks after) ∧
      bound proc.bufferSize (blocks after) ≤ proc.bufferSize ∧
      buffer.data + binderBufferSize proc buffer after = bound proc.bufferSize (blocks after) := by
  have tiles := based.tiles
  rw [list, blocks, map_append, map_cons] at tiles
  obtain ⟨-, start, room, late⟩ := tiles_append.mp tiles
  have room : buffer.data ≤ bound proc.bufferSize (blocks after) := room
  refine ⟨room, late.le, ?_⟩
  unfold binderBufferSize
  rw [bufferEnd_eq]
  omega

theorem data_pages {lo : Nat} : pageAlign lo ≤ page * pageSize ∧ page * pageSize < pageMask hi ↔
    Inside pageSize lo hi (page * pageSize) := by
  rw [pageAlign_le, lt_pageMask]
  exact Iff.rfl

/-- **An allocated buffer becomes free**: its pages are given back, and it goes off its tree. -/
theorem Arranged.release (arranged : Arranged mapped proc) (balance : Rebalance Nat)
    (list : proc.buffers = before.reverse ++ buffer :: after) (used : buffer.free = false) :
    ∃ pages, freeRange proc (pageAlign buffer.data)
        (pageMask (buffer.data + binderBufferSize proc buffer after)) =
          some { proc with pages := pages } ∧
      Loose mapped { proc with
        pages := pages
        freeAsyncSpace := if buffer.asyncTransaction then
            proc.freeAsyncSpace + (buffer.size + headerSize)
          else proc.freeAsyncSpace
        allocatedBuffers := eraseNode balance buffer.addr proc.allocatedBuffers
        buffers := before.reverse ++ { buffer with free := true } :: after }
        before { buffer with free := true } after := by
  obtain ⟨-, -, finish⟩ := arranged.based.extent list
  obtain ⟨⟨tiles, allocated, kept, fits, async, size, region, small⟩, free, apart⟩ := arranged
  rw [list] at tiles allocated kept fits async free apart
  have block : buffer.block = ⟨buffer.addr, true⟩ := by simp [BinderBuffer.block, used]
  have freed : BinderBuffer.block { buffer with free := true } = ⟨buffer.addr, false⟩ := rfl
  simp only [blocks, map_append, map_cons, block] at tiles kept
  have released := fun addr => @kept_release _ pageSize _ _ addr _ _ _ tiles (by decide)
  obtain ⟨pages, range, stays⟩ := freeRange_spec proc (pageAlign_dvd buffer.data)
    (pageMask_dvd (buffer.data + binderBufferSize proc buffer after)) fun page low high => by
      have inside := data_pages.mp ⟨low, high⟩
      rw [finish] at inside
      exact (kept page).mpr (kept_append.mpr (.inr (.inr (.inl ⟨rfl, inside⟩))))
  refine ⟨pages, range, ⟨?_, ?_, fun page => ?_, ?_, ?_, size, region, small⟩, rfl, rfl,
    addrs_of_other used ▸ free, ?_, ?_⟩
  · simp only [blocks, map_append, map_cons, freed]
    rw [tiles_append] at tiles ⊢
    exact tiles
  · rw [addrs_of_other rfl]
    exact perm_eraseNode (allocated.trans (addrs_of_kind (by simp [used]))) balance
  · rw [stays, kept, data_pages, finish]
    simp only [blocks, map_append, map_cons, freed, released]
    rfl
  · rw [fits_append] at fits ⊢
    exact ⟨fits.1, nofun, fits.2.2⟩
  · rw [asyncSpace_append, asyncSpace_cons_used used] at async
    rw [asyncSpace_append, asyncSpace_cons_free rfl]
    split at async <;> rename_i isAsync
    · simp only [isAsync, if_true]
      omega
    · simp only [isAsync, if_false, false_eq_true]
      omega
  · exact (isChain_append.mp apart).1
  · exact (isChain_append.mp apart).2.1.tail

/-- A buffer is freed. -/
theorem binderFreeBuf_spec (arranged : Arranged mapped proc) (balance : Rebalance Nat)
    (member : addr ∈ inOrder proc.allocatedBuffers) :
    ∃ result, binderFreeBuf balance proc addr = some result ∧ Arranged mapped result := by
  obtain ⟨before, buffer, after, located, list, isUsed, rfl⟩ :=
    locate_node arranged.based.tiles (arranged.based.allocated.mem_iff.mp member)
  have used : buffer.free = false := by simpa using isUsed
  obtain ⟨room, inRegion, finish⟩ := arranged.based.extent list
  have fits : buffer.size ≤ binderBufferSize proc buffer after := by
    have fits := arranged.based.fits
    rw [list, fits_append] at fits
    have := fits.2.1 used
    omega
  have start : buffer.addr ≤ proc.bufferSize := by
    unfold BinderBuffer.data at room
    omega
  obtain ⟨pages, range, loose⟩ := arranged.release balance list used
  obtain ⟨next, rest, mergesNext, loose, behind⟩ := mergeNext_spec loose balance
  obtain ⟨prev, front, merged, mergesPrev, loose, ahead⟩ := mergePrev_spec loose balance
  obtain ⟨tree, inserted, arranged⟩ := Loose.insert prev.freeAsyncSpace loose ahead behind balance
  refine ⟨_, ?_, arranged⟩
  unfold binderFreeBuf
  rw [located]
  simp only [used, false_eq_true, not_lt.mpr fits, not_lt.mpr start, or_self, if_false, range,
    mergesNext, mergesPrev, inserted]

end KernelImx.Binder
