/-
**The buffer allocator of binder** (`drivers/staging/android/binder.c`).

The region a process has mapped is tiled by `struct binder_buffer` headers, each followed by its
data. Free buffers are kept in a tree by size, allocated ones in a tree by address, and only the
pages in use are backed by memory.

Addresses are offsets from `proc->buffer`, which is page aligned and far from the end of the address
space; `size_t` is 32 bits wide. A function returns `none` where the source runs into a `BUG_ON`, or
frees a page that is not there. `buffer->transaction` is the business of the callers, which clear it
before they free a buffer.
-/

import Mathlib.Tactic.Ring
import KernelImx.Lib.SearchTree

namespace KernelImx.Binder

open KernelImx.Lib

/-! ### Buffers -/

/-- `struct binder_buffer`, as far as the allocator uses it. -/
structure BinderBuffer where
  addr : Nat
  free : Bool
  asyncTransaction : Bool
  dataSize : Nat
  offsetsSize : Nat
  deriving DecidableEq, Repr

/-- `struct binder_proc`: `buffers` by address, the trees of addresses, and the pages that are
there. -/
structure AllocProc where
  bufferSize : Nat
  buffers : List BinderBuffer
  freeBuffers : BinaryTree Nat
  allocatedBuffers : BinaryTree Nat
  pages : Nat → Bool
  freeAsyncSpace : Nat
  vma : Bool

/-- `sizeof(struct binder_buffer)` -/
def headerSize : Nat := 40

def pageSize : Nat := 4096

def add32 (a b : Nat) : Nat := (a + b) % 2 ^ 32

/-- `ALIGN(size, sizeof(void *))` -/
def alignPtr (size : Nat) : Nat := add32 size 3 / 4 * 4

def pageAlign (addr : Nat) : Nat := (addr + (pageSize - 1)) / pageSize * pageSize

/-- `addr & PAGE_MASK` -/
def pageMask (addr : Nat) : Nat := addr / pageSize * pageSize

variable (buffer : BinderBuffer)

def BinderBuffer.data : Nat := buffer.addr + headerSize

def requestSize (dataSize offsetsSize : Nat) : Nat := add32 (alignPtr dataSize) (alignPtr offsetsSize)

def BinderBuffer.size : Nat := requestSize buffer.dataSize buffer.offsetsSize

def bufferEnd (proc : AllocProc) : List BinderBuffer → Nat
  | [] => proc.bufferSize
  | next :: _ => next.addr

/-- The buffer at an address, the ones before it (the nearest first) and the ones after it. -/
def locate (addr : Nat) :
    List BinderBuffer → List BinderBuffer → Option (List BinderBuffer × BinderBuffer × List BinderBuffer)
  | _, [] => none
  | before, buffer :: rest =>
    if buffer.addr = addr then some (before, buffer, rest) else locate addr (buffer :: before) rest

/-- `binder_buffer_size` -/
def binderBufferSize (proc : AllocProc) (buffer : BinderBuffer) (after : List BinderBuffer) : Nat :=
  bufferEnd proc after - buffer.data

/-! ### Trees -/

/-- A node of the free tree: is the new buffer smaller? -/
def visitFree (proc : AllocProc) (newBufferSize addr : Nat) : Option Bool :=
  match locate addr [] proc.buffers with
  | none => none
  | some (_, buffer, after) =>
    if !buffer.free then none else some (newBufferSize < binderBufferSize proc buffer after)

variable (balance : Rebalance Nat) (proc : AllocProc)

def binderInsertFreeBuffer (addr : Nat) : Option AllocProc :=
  match locate addr [] proc.buffers with
  | none => none
  | some (_, newBuffer, after) =>
    if !newBuffer.free then none
    else
      (linkLeaf (visitFree proc (binderBufferSize proc newBuffer after)) addr proc.freeBuffers).map
        fun tree => { proc with freeBuffers := balance.run tree }

/-- A node of the allocated tree: does the new buffer come before it? -/
def visitAllocated (newBuffer addr : Nat) : Option Bool :=
  match locate addr [] proc.buffers with
  | none => none
  | some (_, buffer, _) =>
    if buffer.free then none
    else if newBuffer < addr then some true
    else if newBuffer > addr then some false
    else none

def binderInsertAllocatedBuffer (addr : Nat) : Option AllocProc :=
  match locate addr [] proc.buffers with
  | none => none
  | some (_, newBuffer, _) =>
    if newBuffer.free then none
    else
      (linkLeaf (visitAllocated proc addr) addr proc.allocatedBuffers).map fun tree =>
        { proc with allocatedBuffers := balance.run tree }

/-! ### Pages -/

def setPage (pages : Nat → Bool) (page : Nat) (present : Bool) : Nat → Bool :=
  fun other => if other = page then present else pages other

/-- Maps `count` pages from `page` on. When one of them fails, the ones before it are freed again.
-/
def allocatePages (pageOk : Nat → Bool) : Nat → Nat → (Nat → Bool) → Option ((Nat → Bool) × Bool)
  | 0, _, pages => some (pages, true)
  | count + 1, page, pages =>
    if pages page then none
    else if !pageOk page then some (pages, false)
    else
      match allocatePages pageOk count (page + 1) (setPage pages page true) with
      | none => none
      | some (pages, true) => some (pages, true)
      | some (pages, false) => some (setPage pages page false, false)

/-- Frees `count` pages from `page` on, the last one first. -/
def freePages : Nat → Nat → (Nat → Bool) → Option (Nat → Bool)
  | 0, _, pages => some pages
  | count + 1, page, pages =>
    if !pages (page + count) then none
    else freePages count page (setPage pages (page + count) false)

/-- What the environment decides: `get_task_mm`, which pages can be mapped, and the balancing of the
trees. -/
structure AllocEnv where
  mm : Bool
  pageOk : Nat → Bool
  balance : Rebalance Nat

/-- `binder_update_page_range` with `allocate`; the flag is false for `-ENOMEM`. -/
def allocateRange (env : AllocEnv) (proc : AllocProc) (start end_ : Nat) : Option (AllocProc × Bool) :=
  if end_ ≤ start then some (proc, true)
  else if !(env.mm && proc.vma) then some (proc, false)
  else
    (allocatePages env.pageOk ((end_ - start) / pageSize) (start / pageSize) proc.pages).map
      fun (pages, done) => ({ proc with pages := pages }, done)

/-- `binder_update_page_range` without `allocate`. -/
def freeRange (start end_ : Nat) : Option AllocProc :=
  if end_ ≤ start then some proc
  else
    (freePages ((end_ - start) / pageSize) (start / pageSize) proc.pages).map fun pages =>
      { proc with pages := pages }

/-! ### Allocation -/

/-- The search for the best fit: the buffer, and whether the search stopped at it. -/
def bestFit (proc : AllocProc) (size : Nat) :
    BinaryTree Nat → Option Nat → Option (Option (Nat × Bool))
  | .nil, best => some (best.map fun addr => (addr, false))
  | .node addr left right, best =>
    match locate addr [] proc.buffers with
    | none => none
    | some (_, buffer, after) =>
      if !buffer.free then none
      else if size < binderBufferSize proc buffer after then bestFit proc size left (some addr)
      else if size > binderBufferSize proc buffer after then bestFit proc size right best
      else some (some (addr, true))

/-- The buffer is taken off the free tree; a buffer with room for another one is split. -/
def takeBuffer (env : AllocEnv) (proc : AllocProc) (size : Nat) (split : Bool)
    (before : List BinderBuffer) (buffer : BinderBuffer) (after : List BinderBuffer) :
    Option AllocProc :=
  let proc := { proc with
    freeBuffers := eraseNode env.balance buffer.addr proc.freeBuffers
    buffers := before.reverse ++ buffer :: after }
  match binderInsertAllocatedBuffer env.balance proc buffer.addr with
  | none => none
  | some proc =>
    if split then
      let newBuffer : BinderBuffer := ⟨buffer.data + size, true, false, 0, 0⟩
      binderInsertFreeBuffer env.balance
        { proc with buffers := before.reverse ++ buffer :: newBuffer :: after } newBuffer.addr
    else some proc

/-- `binder_alloc_buf`: the state and the buffer. -/
def binderAllocBuf (env : AllocEnv) (proc : AllocProc) (dataSize offsetsSize : Nat) (isAsync : Bool) :
    Option (AllocProc × Option Nat) :=
  let size := requestSize dataSize offsetsSize
  if !proc.vma then some (proc, none)
  else if size < dataSize ∨ size < offsetsSize then some (proc, none)
  else if isAsync ∧ proc.freeAsyncSpace < add32 size headerSize then some (proc, none)
  else
    match bestFit proc size proc.freeBuffers none with
    | none => none
    | some none => some (proc, none)
    | some (some (addr, exact_)) =>
      match locate addr [] proc.buffers with
      | none => none
      | some (before, buffer, after) =>
        let bufferSize := binderBufferSize proc buffer after
        let hasPageAddr := pageMask (buffer.data + bufferSize)
        -- no room for other buffers
        let whole := exact_ || size + headerSize + 4 ≥ bufferSize
        let used := if whole then size else size + headerSize
        let endPageAddr := min (pageAlign (buffer.data + used)) hasPageAddr
        match allocateRange env proc (pageAlign buffer.data) endPageAddr with
        | none => none
        | some (proc, false) => some (proc, none)
        | some (proc, true) =>
          let buffer := { buffer with
            free := false, asyncTransaction := isAsync
            dataSize := dataSize, offsetsSize := offsetsSize }
          (takeBuffer env proc size (!whole) before buffer after).map fun proc =>
            ({ proc with
                freeAsyncSpace :=
                  if isAsync then proc.freeAsyncSpace - (size + headerSize)
                  else proc.freeAsyncSpace },
              some addr)

/-! ### Freeing -/

def bufferStartPage : Nat := pageMask buffer.addr

def bufferEndPage : Nat := pageMask (buffer.addr + headerSize - 1)

/-- `binder_delete_free_buffer`: gives back the pages of a header that goes away; the caller takes
the buffer off the list. -/
def binderDeleteFreeBuffer (prev buffer : BinderBuffer) (next : Option BinderBuffer) :
    Option AllocProc :=
  if !prev.free then none
  else
    let sharesPrev := bufferEndPage prev = bufferStartPage buffer
    let sharesNext := next.any fun next => bufferStartPage next = bufferEndPage buffer
    let freePageStart := !(sharesPrev || (sharesNext &&
      next.any fun next => bufferStartPage next = bufferStartPage buffer))
    let freePageEnd := !((sharesPrev && bufferEndPage prev = bufferEndPage buffer) || sharesNext)
    if freePageStart || freePageEnd then
      freeRange proc (if freePageStart then bufferStartPage buffer else bufferEndPage buffer)
        ((if freePageEnd then bufferEndPage buffer else bufferStartPage buffer) + pageSize)
    else some proc

/-- The next buffer is merged into a buffer that has become free. -/
def mergeNext (before : List BinderBuffer) (buffer : BinderBuffer) :
    List BinderBuffer → Option (AllocProc × List BinderBuffer)
  | [] => some (proc, [])
  | next :: after =>
    if next.free then
      let proc := { proc with freeBuffers := eraseNode balance next.addr proc.freeBuffers }
      (binderDeleteFreeBuffer proc buffer next after.head?).map fun proc =>
        ({ proc with buffers := before.reverse ++ buffer :: after }, after)
    else some (proc, next :: after)

/-- A buffer that has become free is merged into the previous one; the buffer that remains. -/
def mergePrev (buffer : BinderBuffer) (after : List BinderBuffer) :
    List BinderBuffer → Option (AllocProc × Nat)
  | [] => some (proc, buffer.addr)
  | prev :: before =>
    if prev.free then
      (binderDeleteFreeBuffer proc prev buffer after.head?).map fun proc =>
        ({ proc with
            freeBuffers := eraseNode balance prev.addr proc.freeBuffers
            buffers := before.reverse ++ prev :: after }, prev.addr)
    else some (proc, buffer.addr)

/-- `binder_free_buf` -/
def binderFreeBuf (addr : Nat) : Option AllocProc :=
  match locate addr [] proc.buffers with
  | none => none
  | some (before, buffer, after) =>
    let bufferSize := binderBufferSize proc buffer after
    if buffer.free ∨ buffer.size > bufferSize ∨ buffer.addr > proc.bufferSize then none
    else
      match freeRange proc (pageAlign buffer.data) (pageMask (buffer.data + bufferSize)) with
      | none => none
      | some proc =>
        let freed := { buffer with free := true }
        let proc := { proc with
          freeAsyncSpace := if buffer.asyncTransaction then
              proc.freeAsyncSpace + (buffer.size + headerSize)
            else proc.freeAsyncSpace
          allocatedBuffers := eraseNode balance addr proc.allocatedBuffers
          buffers := before.reverse ++ freed :: after }
        match mergeNext balance proc before freed after with
        | none => none
        | some (proc, after) =>
          match mergePrev balance proc freed after before with
          | none => none
          | some (proc, merged) => binderInsertFreeBuffer balance proc merged

/-! ### The mapping -/

/-- The process after `binder_mmap` of a region: one free buffer, its header on the first page. -/
def binderMmap (bufferSize : Nat) : AllocProc where
  bufferSize := bufferSize
  buffers := [⟨0, true, false, 0, 0⟩]
  freeBuffers := .node 0 .nil .nil
  allocatedBuffers := .nil
  pages := fun page => page = 0
  freeAsyncSpace := bufferSize / 2
  vma := true

end KernelImx.Binder
