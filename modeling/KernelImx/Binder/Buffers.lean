/-
**Allocating buffers, and the allocator over runs.**

Main result: `binder_alloc_arranged`.
-/

import KernelImx.Binder.Tiling

namespace KernelImx.Binder

open List Option KernelImx.Lib Nat

/-! ### Taking a buffer -/

variable {mapped page size : Nat} {pages : Nat → Bool} {proc result : AllocProc}
  {before after : List BinderBuffer} {buffer : BinderBuffer} {space : Nat}

section Take

variable {taken : BinderBuffer}

theorem blocks_taken (same : taken.addr = buffer.addr) (used : taken.free = false) :
    taken.block = ⟨buffer.addr, true⟩ := by
  simp [BinderBuffer.block, same, used]

theorem block_free (isFree : buffer.free = true) : buffer.block = ⟨buffer.addr, false⟩ := by
  simp [BinderBuffer.block, isFree]

theorem Arranged.tiles_taken (arranged : Arranged mapped proc)
    (list : proc.buffers = before.reverse ++ buffer :: after) (same : taken.addr = buffer.addr) :
    Tiles headerSize proc.bufferSize 0 (blocks (before.reverse ++ taken :: after)) := by
  have tiles := arranged.based.tiles
  rw [list] at tiles
  simp only [blocks, map_append, map_cons] at tiles ⊢
  rw [tiles_append] at tiles ⊢
  simp only [Tiles, bound_cons, BinderBuffer.block, same] at tiles ⊢
  exact tiles

/-- The room of the request, and what it takes from `free_async_space`. -/
structure Granted (proc : AllocProc) (buffer taken : BinderBuffer) (after : List BinderBuffer)
    (space : Nat) : Prop where
  addr : taken.addr = buffer.addr
  used : taken.free = false
  room : taken.size ≤ binderBufferSize proc buffer after
  async : space + (if taken.asyncTransaction then taken.size + headerSize else 0) =
    proc.freeAsyncSpace

theorem isChain_taken (apart : (before.reverse ++ buffer :: after).IsChain NotBothFree)
    (used : taken.free = false) : (before.reverse ++ taken :: after).IsChain NotBothFree := by
  obtain ⟨front, back, -⟩ := isChain_append.mp apart
  refine isChain_append.mpr ⟨front, isChain_cons.mpr ⟨fun other _ both => ?_, back.tail⟩,
    fun other _ first head both => ?_⟩
  · exact Bool.false_ne_true (used.symm.trans both.1)
  · cases head
    exact Bool.false_ne_true (used.symm.trans both.2)

theorem page_inside (region : pageSize ∣ size) :
    page * pageSize < size → page * pageSize + pageSize ≤ size := by
  obtain ⟨count, rfl⟩ := region
  unfold pageSize
  omega

def restOf (taken : BinderBuffer) : BinderBuffer := ⟨taken.data + taken.size, true, false, 0, 0⟩

theorem blocks_split (same : taken.addr = buffer.addr) (used : taken.free = false) :
    blocks (before.reverse ++ taken :: restOf taken :: after) =
      blocks before.reverse ++ ⟨buffer.addr, true⟩ :: ⟨buffer.data + taken.size, false⟩ :: blocks after := by
  simp [blocks, BinderBuffer.block, restOf, same, used, BinderBuffer.data]

section Free

variable (arranged : Arranged mapped proc)
  (list : proc.buffers = before.reverse ++ buffer :: after) (isFree : buffer.free = true)

include arranged list isFree

theorem free_not_allocated : buffer.addr ∉ inOrder proc.allocatedBuffers := by
  intro member
  obtain ⟨front, other, back, located, -, used, -⟩ :=
    locate_node arranged.based.tiles (arranged.based.allocated.mem_iff.mp member)
  rw [locate_tiles arranged.based.tiles list] at located
  obtain ⟨-, rfl, -⟩ := Prod.mk.inj (Option.some.inj located) |>.imp id Prod.mk.inj
  simp [isFree] at used

theorem free_absent
    (inside : Inside pageSize buffer.data (bound proc.bufferSize (blocks after)) (page * pageSize)) :
    proc.pages page = false := by
  rw [← Bool.not_eq_true, arranged.based.pages]
  have tiles := arranged.based.tiles
  rw [list, blocks, map_append, map_cons] at tiles ⊢
  exact tiles.not_kept_inside (by decide) (by simp [BinderBuffer.block, isFree]) inside

theorem free_erased (balance : Rebalance Nat) :
    (inOrder (eraseNode balance buffer.addr proc.freeBuffers)).Perm
      (addrs BinderBuffer.free (before.reverse ++ after)) :=
  perm_eraseNode ((list ▸ arranged.free).trans (addrs_of_kind isFree)) balance

variable (granted : Granted proc buffer taken after space)

include granted

/-- The buffer goes on the tree of the allocated ones. -/
theorem insertAllocated (balance : Rebalance Nat) (next : AllocProc)
    (buffers : next.buffers = before.reverse ++ taken :: after)
    (allocated : next.allocatedBuffers = proc.allocatedBuffers) :
    ∃ tree, binderInsertAllocatedBuffer balance next taken.addr =
        some { next with allocatedBuffers := tree } ∧
      (inOrder tree).Perm
        (taken.addr :: addrs (fun buffer => !buffer.free) (before.reverse ++ after)) := by
  have tiles := arranged.tiles_taken list granted.addr
  have others := arranged.based.allocated
  rw [← buffers] at tiles
  rw [list, addrs_of_other (by simp [isFree]), ← allocated] at others
  have accepts : ∀ addr ∈ inOrder next.allocatedBuffers,
      (visitAllocated next taken.addr addr).isSome := by
    intro addr member
    refine visitAllocated_isSome tiles ?_ fun equal => ?_
    · rw [buffers, (addrs_of_kind (by simp [granted.used])).mem_iff]
      exact mem_cons_of_mem _ (others.mem_iff.mp member)
    · rw [← equal, granted.addr, allocated] at member
      exact free_not_allocated arranged list isFree member
  obtain ⟨tree, links, nodes⟩ := linkLeaf_spec taken.addr accepts
  refine ⟨balance.run tree, ?_, balance.inOrder_run tree ▸ nodes.trans (others.cons _)⟩
  unfold binderInsertAllocatedBuffer
  rw [locate_tiles tiles buffers]
  simp only [granted.used, Bool.false_eq_true, if_false, links]
  rfl

theorem Granted.based {others : List BinderBuffer} {tree free : BinaryTree Nat}
    (nodes : (inOrder tree).Perm
      (taken.addr :: addrs (fun buffer => !buffer.free) (before.reverse ++ others)))
    (async : asyncSpace others = asyncSpace after) (fits : Fits proc.bufferSize others)
    (tiles : Tiles headerSize proc.bufferSize 0 (blocks (before.reverse ++ taken :: others)))
    (room : taken.data + taken.size ≤ bound proc.bufferSize (blocks others))
    (kept : ∀ page, pages page = true ↔ Kept headerSize pageSize proc.bufferSize
      (blocks (before.reverse ++ taken :: others)) (page * pageSize)) :
    Based mapped { proc with
      pages := pages, freeAsyncSpace := space, freeBuffers := free, allocatedBuffers := tree
      buffers := before.reverse ++ taken :: others } := by
  obtain ⟨-, -, -, was, space, size, region, small⟩ := arranged.based
  rw [list] at was space
  refine ⟨tiles, ?_, kept, ?_, ?_, size, region, small⟩
  · exact nodes.trans (addrs_of_kind (by simp [granted.used])).symm
  · rw [fits_append] at was ⊢
    refine ⟨?_, fun _ => room, fits⟩
    rw [blocks, map_cons, bound_cons] at was ⊢
    rw [blocks_taken granted.addr granted.used]
    exact was.1
  · rw [asyncSpace_append, asyncSpace_cons_free isFree] at space
    rw [asyncSpace_append, asyncSpace_cons_used granted.used, async]
    have := granted.async
    dsimp only
    omega

/-- **A buffer is taken**, as a whole or split: the rest of it then becomes a free buffer. -/
theorem takeBuffer_spec (splits : Bool)
    (rest : splits = true → taken.size + headerSize ≤ binderBufferSize proc buffer after)
    (env : AllocEnv)
    (backed : ∀ page, pages page = true ↔ proc.pages page = true ∨
      (Inside pageSize buffer.data (bound proc.bufferSize (blocks after)) (page * pageSize) ∧
        (splits = true → page * pageSize < buffer.data + taken.size + headerSize))) :
    ∃ result, takeBuffer env { proc with pages := pages } taken.size splits before taken after =
        some result ∧
      result.freeAsyncSpace = proc.freeAsyncSpace ∧
      Arranged mapped { result with freeAsyncSpace := space } ∧
      buffer.addr ∈ inOrder result.allocatedBuffers := by
  obtain ⟨tree, inserted, nodes⟩ := insertAllocated arranged list isFree granted env.balance
    { proc with
      pages := pages
      freeBuffers := eraseNode env.balance taken.addr proc.freeBuffers
      buffers := before.reverse ++ taken :: after } rfl rfl
  obtain ⟨room, -, finish⟩ := arranged.based.extent list
  obtain ⟨⟨tiles, -, kept, fits, -, -, region, -⟩, -, apart⟩ := id arranged
  rw [list] at tiles kept fits apart
  have chain := isChain_taken apart granted.used
  have member : buffer.addr ∈ inOrder tree := nodes.mem_iff.mpr (granted.addr ▸ mem_cons_self)
  have erased : (inOrder (eraseNode env.balance taken.addr proc.freeBuffers)).Perm _ :=
    granted.addr ▸ free_erased arranged list isFree env.balance
  have based := @Granted.based _ pages _ _ _ _ _ _ arranged list isFree granted
  simp only [takeBuffer, inserted]
  cases splits with
  | false =>
    refine ⟨_, rfl, rfl, ⟨based nodes rfl (fits_append.mp fits).2.2
      (arranged.tiles_taken list granted.addr) ?_ fun page => ?_,
      erased.trans (by rw [addrs_of_other granted.used]), chain⟩, member⟩
    · have := granted.room
      unfold BinderBuffer.data at finish ⊢
      rw [granted.addr]
      omega
    · rw [backed, kept]
      simp only [blocks, map_append, map_cons, blocks_taken granted.addr granted.used,
        block_free isFree, kept_use, Bool.false_eq_true, false_imp_iff, and_true]
      rfl
  | true =>
    have within : buffer.data + taken.size + headerSize ≤ bound proc.bufferSize (blocks after) := by
      have := rest rfl
      omega
    simp only [blocks, map_append, map_cons, block_free isFree] at tiles
    obtain ⟨early, start, -, late⟩ := tiles_append.mp tiles
    have loose : Loose mapped _ (taken :: before) (restOf taken) after :=
      ⟨@based (restOf taken :: after) tree (eraseNode env.balance taken.addr proc.freeBuffers)
        (nodes.trans (by rw [addrs_of_other rfl])) (asyncSpace_cons_free rfl)
        ⟨nofun, (fits_append.mp fits).2.2⟩
        (by
          rw [blocks_split granted.addr granted.used]
          exact tiles_append.mpr ⟨early, start, le_add_right _ _, rfl, within, late⟩) le_rfl
        fun page => by
          rw [backed, kept, blocks_split granted.addr granted.used]
          simp only [blocks, map_append, map_cons, block_free isFree, true_imp_iff]
          exact (kept_split tiles (by decide) (page_inside region) (le_add_right _ _) within).symm,
      by simp, rfl, by simpa [addrs, granted.used] using erased,
      reverse_cons ▸ (isChain_split.mp chain).1, (isChain_append.mp apart).2.1.tail⟩
    have next : ∀ other ∈ after.head?, other.free = false := fun other head =>
      ((isChain_cons.mp (isChain_append.mp apart).2.1).1 other head).of_free.1 isFree
    obtain ⟨_, insertedFree, arranged⟩ := @Loose.insert _ { proc with
        pages := pages
        freeBuffers := eraseNode env.balance taken.addr proc.freeBuffers
        allocatedBuffers := tree
        buffers := before.reverse ++ taken :: restOf taken :: after } _ _ _ space loose
      (fun other head => Option.some.inj head ▸ granted.used) next env.balance
    exact ⟨_, insertedFree, rfl, arranged, member⟩

end Free

end Take

/-! ### Allocation -/

variable {bufferSize data : Nat}

theorem Arranged.samePages (arranged : Arranged mapped proc)
    (same : ∀ page, pages page = true ↔ proc.pages page = true) :
    Arranged mapped { proc with pages := pages } := by
  have based := arranged.based
  exact { arranged with based := { based with pages := fun page => (same page).trans (based.pages page) } }

theorem alloc_pages {whole : Bool} (fits : whole = true → bufferSize ≤ size + headerSize + 4) :
    pageAlign data ≤ page * pageSize ∧
        page * pageSize < min (pageAlign (data + if whole = true then size else size + headerSize))
          (pageMask (data + bufferSize)) ↔
      Inside pageSize data (data + bufferSize) (page * pageSize) ∧
        ((!whole) = true → page * pageSize < data + size + headerSize) := by
  rw [← data_pages, lt_min_iff]
  unfold pageAlign pageMask pageSize headerSize at *
  cases whole <;> simp at fits ⊢ <;> omega

theorem min_dvd {count first second : Nat} (one : count ∣ first) (two : count ∣ second) :
    count ∣ min first second := by
  rcases min_choice first second with same | same <;> rwa [same]

theorem charged {taken : Option AllocProc} {amount : Nat} {isAsync : Bool}
    (takes : ∃ result, taken = some result ∧ result.freeAsyncSpace = proc.freeAsyncSpace ∧
      Arranged mapped { result with freeAsyncSpace :=
        if isAsync then proc.freeAsyncSpace - amount else proc.freeAsyncSpace } ∧
      buffer.addr ∈ inOrder result.allocatedBuffers) :
    ∃ result found, (taken.map fun next => ({ next with
          freeAsyncSpace := if isAsync then next.freeAsyncSpace - amount else next.freeAsyncSpace },
        some buffer.addr)) = some (result, found) ∧
      Arranged mapped result ∧ ∀ addr ∈ found, addr ∈ inOrder result.allocatedBuffers := by
  obtain ⟨result, rfl, same, arranged, member⟩ := takes
  refine ⟨_, _, rfl, same ▸ arranged, ?_⟩
  rintro addr ⟨⟩
  exact member

/-- An allocation keeps the region arranged, also when it fails. -/
theorem binderAllocBuf_spec (arranged : Arranged mapped proc) (env : AllocEnv)
    (dataSize offsetsSize : Nat) (isAsync : Bool) :
    ∃ result buffer, binderAllocBuf env proc dataSize offsetsSize isAsync = some (result, buffer) ∧
      Arranged mapped result ∧ ∀ addr ∈ buffer, addr ∈ inOrder result.allocatedBuffers := by
  have small := arranged.based.small
  have nodes : ∀ addr ∈ inOrder proc.freeBuffers,
      addr ∈ addrs BinderBuffer.free proc.buffers :=
    fun addr member => arranged.free.mem_iff.mp member
  obtain ⟨found, search, fits⟩ := bestFit_spec arranged.based (requestSize dataSize offsetsSize)
    proc.freeBuffers none nodes nofun
  unfold binderAllocBuf
  simp only [search]
  split
  · exact ⟨proc, none, rfl, arranged, nofun⟩
  split
  · exact ⟨proc, none, rfl, arranged, nofun⟩
  split
  · exact ⟨proc, none, rfl, arranged, nofun⟩
  rename_i space
  rcases found with _ | ⟨addr, stopped⟩
  · exact ⟨proc, none, rfl, arranged, nofun⟩
  obtain ⟨before, buffer, after, located, isFree, room, exactly⟩ := fits addr stopped rfl
  obtain ⟨list, rfl⟩ := locate_some located
  obtain ⟨-, inRegion, finish⟩ := arranged.based.extent list
  simp only [located]
  set size := requestSize dataSize offsetsSize
  generalize chosen : (stopped || decide (size + headerSize + 4 ≥ binderBufferSize proc buffer after))
    = flag
  have whole : flag = true → binderBufferSize proc buffer after ≤ size + headerSize + 4 := by
    rintro rfl
    rcases Bool.or_eq_true _ _ ▸ chosen with stops | fits
    · rw [← exactly stops]
      omega
    · exact of_decide_eq_true fits
  have splits : flag = false → size + headerSize ≤ binderBufferSize proc buffer after := by
    rintro rfl
    have := of_decide_eq_false (Bool.or_eq_false_iff.mp chosen).2
    omega
  obtain ⟨pages, done, range, backed⟩ := @allocateRange_spec env proc (pageAlign buffer.data)
    (min (pageAlign (buffer.data + if flag = true then size else size + headerSize))
      (pageMask (buffer.data + binderBufferSize proc buffer after)))
    (pageAlign_dvd _) (min_dvd (pageAlign_dvd _) (pageMask_dvd _))
    fun page low high => free_absent arranged list isFree
      (finish ▸ data_pages.mp ⟨low, (lt_min_iff.mp high).2⟩)
  simp only [range]
  cases done with
  | false =>
    refine ⟨_, none, rfl, arranged.samePages fun page => ?_, nofun⟩
    rw [backed]
    simp
  | true =>
    have granted : Granted proc buffer
        { buffer with
          free := false, asyncTransaction := isAsync
          dataSize := dataSize, offsetsSize := offsetsSize } after
        (if isAsync then proc.freeAsyncSpace - (size + headerSize) else proc.freeAsyncSpace) := by
      refine ⟨rfl, rfl, room, ?_⟩
      cases isAsync with
      | false => rfl
      | true =>
        have enough : size + headerSize ≤ proc.freeAsyncSpace := by
          unfold add32 at space
          unfold headerSize at space ⊢
          simp at space
          omega
        exact Nat.sub_add_cancel enough
    refine charged (takeBuffer_spec arranged list isFree granted (!flag)
      (fun split => splits (Bool.not_eq_true' _ ▸ split)) env fun page => ?_)
    rw [backed, ← finish, alloc_pages whole, eq_self_iff_true, true_and]
    rfl

/-! ### Runs -/

/-- The calls on the allocator; a buffer is freed by its address, and `binder_vma_close` may come at
any time. -/
inductive AllocCall where
  | alloc (env : AllocEnv) (dataSize offsetsSize : Nat) (isAsync : Bool)
  | free (balance : Rebalance Nat) (addr : Nat)
  | closeVma

/-- A call; only a buffer that is allocated is freed. -/
def allocStep (proc : AllocProc) : AllocCall → Option AllocProc
  | .alloc env dataSize offsetsSize isAsync =>
    (binderAllocBuf env proc dataSize offsetsSize isAsync).map Prod.fst
  | .free balance addr =>
    if addr ∈ inOrder proc.allocatedBuffers then binderFreeBuf balance proc addr else none
  | .closeVma => some { proc with vma := false }

theorem binderMmap_arranged (aligned : pageSize ∣ size) (positive : 0 < size) (small : size ≤ 2 ^ 22) :
    Arranged size (binderMmap size) := by
  have page : pageSize ≤ size := le_of_dvd positive aligned
  refine ⟨⟨⟨rfl, ?_, rfl⟩, .refl _, fun page => ?_, ⟨nofun, trivial⟩, rfl, rfl, aligned, small⟩,
    .refl _, isChain_singleton _⟩
  · exact (by decide : 0 + headerSize ≤ pageSize).trans page
  · simp only [binderMmap, decide_eq_true_eq, blocks, map_cons, map_nil, Kept, Meets, Inside,
      BinderBuffer.block, headerSize, pageSize, Bool.not_true, Bool.false_eq_true, false_and, or_false]
    omega

theorem allocStep_arranged (proc : AllocProc) (call : AllocCall) (next : AllocProc)
    (arranged : Arranged mapped proc) (step : allocStep proc call = some next) :
    Arranged mapped next := by
  cases call with
  | alloc env dataSize offsetsSize isAsync =>
    obtain ⟨result, buffer, call, arranged, -⟩ :=
      binderAllocBuf_spec arranged env dataSize offsetsSize isAsync
    simp only [allocStep, call, map_some, some.injEq] at step
    exact step ▸ arranged
  | free balance addr =>
    simp only [allocStep] at step
    split at step
    next member =>
      obtain ⟨result, call, arranged⟩ := binderFreeBuf_spec arranged balance member
      rw [call, some.injEq] at step
      exact step ▸ arranged
    · cases step
  | closeVma =>
    cases step
    exact { arranged with based := { arranged.based with } }

/-- **The region stays arranged.** The buffers tile it, no two neighbours are free, the trees hold
the free and the allocated ones, the pages in use are there, the next call meets no `BUG_ON`, and
`free_async_space` lacks what one-way transactions hold. -/
theorem binder_alloc_arranged {size : Nat} (aligned : pageSize ∣ size) (positive : 0 < size)
    (small : size ≤ 2 ^ 22) {calls : List AllocCall} {proc : AllocProc}
    (run : exec allocStep (binderMmap size) calls = Option.some proc) :
    Tiles headerSize size 0 (blocks proc.buffers) ∧
      proc.buffers.IsChain NotBothFree ∧
      (inOrder proc.freeBuffers).Perm (addrs BinderBuffer.free proc.buffers) ∧
      (inOrder proc.allocatedBuffers).Perm (addrs (fun buffer => !buffer.free) proc.buffers) ∧
      (∀ page, proc.pages page = true ↔
        Touched headerSize pageSize size (blocks proc.buffers) (page * pageSize)) ∧
      (∀ env dataSize offsetsSize isAsync,
        (binderAllocBuf env proc dataSize offsetsSize isAsync).isSome) ∧
      (∀ balance, ∀ addr ∈ inOrder proc.allocatedBuffers, (binderFreeBuf balance proc addr).isSome) ∧
      proc.freeAsyncSpace + asyncSpace proc.buffers = size / 2 := by
  have arranged := exec_invariant (Arranged size) allocStep_arranged
    (binderMmap_arranged aligned positive small) run
  obtain ⟨tiles, allocated, kept, -, async, same, region, -⟩ := id arranged.based
  rw [same] at tiles kept region
  refine ⟨tiles, arranged.apart, arranged.free, allocated, fun page => ?_,
    fun env dataSize offsetsSize isAsync => ?_,
    fun balance addr member => ?_, async⟩
  · rw [kept, touched_iff_kept tiles (by decide) (by decide) (page_inside region)]
  · obtain ⟨result, buffer, call, -⟩ := binderAllocBuf_spec arranged env dataSize offsetsSize isAsync
    rw [call]
    rfl
  · obtain ⟨result, call, -⟩ := binderFreeBuf_spec arranged balance member
    rw [call]
    rfl

/-- Two buffers in two pages, one of them one-way and across the boundary; the other one is freed.
-/
theorem binder_alloc_arranged_two_pages : ∃ proc,
    exec allocStep (binderMmap 8192)
      [.alloc ⟨true, fun _ => true, Rebalance.id⟩ 100 8 false,
        .alloc ⟨true, fun _ => true, Rebalance.id⟩ 4000 0 true, .free Rebalance.id 0] = some proc ∧
      proc.pages 1 = true ∧ proc.freeAsyncSpace = 56 ∧
      Tiles headerSize 8192 0 (blocks proc.buffers) := by
  have ends : ((exec allocStep (binderMmap 8192)
      [.alloc ⟨true, fun _ => true, Rebalance.id⟩ 100 8 false,
        .alloc ⟨true, fun _ => true, Rebalance.id⟩ 4000 0 true, .free Rebalance.id 0]).map
      fun proc => (proc.pages 1, proc.freeAsyncSpace)) = some (true, 56) := by decide +kernel
  obtain ⟨proc, run, same⟩ := map_eq_some_iff.mp ends
  obtain ⟨page, space⟩ := Prod.mk.inj same
  exact ⟨proc, run, page, space, (binder_alloc_arranged (by decide) (by decide) (by decide) run).1⟩

end KernelImx.Binder
