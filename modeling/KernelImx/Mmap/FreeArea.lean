/-
**The search for an unmapped area** (arch/arm/mm/mmap.c).

* **`unmapped_area_iff`**: without colours the search fails only if nothing is free. `COLOUR_ALIGN`
  rounds up to a multiple of `SHMLBA` before it adds the colour, and so may pass a free address.
-/

import KernelImx.Lib.Segments
import KernelImx.Mmap.Vmas

namespace KernelImx.Mmap

open List KernelImx.Lib

/-! ### The search -/

/-- How the addresses are divided: `VMSPLIT_3G`, `VMSPLIT_2G`, `VMSPLIT_1G`. -/
inductive VmSplit where
  | three | two | one

def VmSplit.pageOffset : VmSplit → Nat
  | .three => 0xc0000000
  | .two => 0x80000000
  | .one => 0x40000000

/-- `TASK_SIZE` -/
def VmSplit.taskSize (split : VmSplit) : Nat := split.pageOffset - 0x01000000

/-- `TASK_UNMAPPED_BASE` -/
def VmSplit.unmappedBase (split : VmSplit) : Nat := split.pageOffset / 3

def shmlba : Nat := 4 * pageSize

/-- `(pgoff << PAGE_SHIFT) & (SHMLBA - 1)` -/
def colour (pgoff : Pgoff) : Nat := (pgoff <<< pageShift).toNat % shmlba

/-- `COLOUR_ALIGN` -/
def colourAlign (addr : Nat) (pgoff : Pgoff) : Nat :=
  (addr + (shmlba - 1)) % 2 ^ 32 / shmlba * shmlba + colour pgoff

/-- `PAGE_ALIGN` -/
def pageAlignUp (addr : Nat) : Nat := (addr + (pageSize - 1)) % 2 ^ 32 / pageSize * pageSize

/-- A call; `cpu` is the cache type and the id of the processor, with `CONFIG_CPU_V6`. -/
structure Call where
  split : VmSplit
  cpu : Option (BitVec 32 × BitVec 32)
  filp : Bool
  addr : Nat
  len : Nat
  pgoff : Pgoff
  shared : Bool
  fixed : Bool

/-- The fields of the `mm_struct` that a search leaves for the next one. -/
structure HoleCache where
  freeAreaCache : Nat
  cachedHoleSize : Nat

/-- The areas from the one that is found on. -/
def findVma (mmap : List Vma) (addr : Nat) : List Vma := mmap.dropWhile fun vma => vma.vmEnd ≤ addr

namespace Call

section Search

variable (call : Call)

def aliasing : Bool :=
  match call.cpu with
  | none => false
  | some (cacheType, id) => cacheType != id && (cacheType ||| cacheType >>> 12) &&& 1#32 <<< 11 != 0

def doAlign : Bool := call.aliasing && (call.filp || call.shared)

/-- `TASK_SIZE - len` -/
def limit : Nat := call.split.taskSize - call.len

def alignAddr (addr : Nat) : Nat :=
  if call.doAlign then colourAlign addr call.pgoff else pageAlignUp addr

/-- Where the loop goes on behind an area. -/
def nextAddr (vmEnd : Nat) : Nat := if call.doAlign then colourAlign vmEnd call.pgoff else vmEnd

def searchLoop : List Vma → Nat → HoleCache → Option Nat × HoleCache
  | [], addr, cache =>
    if call.limit < addr then (none, cache)
    else (some addr, { cache with freeAreaCache := addr + call.len })
  | vma :: rest, addr, cache =>
    if call.limit < addr then (none, cache)
    else if addr + call.len ≤ vma.vmStart then
      (some addr, { cache with freeAreaCache := addr + call.len })
    else searchLoop rest (call.nextAddr vma.vmEnd)
      (if (addr + cache.cachedHoleSize) % 2 ^ 32 < vma.vmStart then
        { cache with cachedHoleSize := (vma.vmStart + 2 ^ 32 - addr) % 2 ^ 32 } else cache)

/-- From `full_search:` on. -/
def fullSearch (mmap : List Vma) (start : Nat) (cache : HoleCache) : Option Nat × HoleCache :=
  call.searchLoop (findVma mmap (call.alignAddr start)) (call.alignAddr start) cache

def hintFree (mmap : List Vma) : Bool :=
  let addr := call.alignAddr call.addr
  call.addr != 0 && addr ≤ call.limit &&
    (findVma mmap addr).head?.all fun vma => addr + call.len ≤ vma.vmStart

def startAddr (cache : HoleCache) : Nat :=
  if call.len > cache.cachedHoleSize then cache.freeAreaCache else call.split.unmappedBase

def archGetUnmappedArea (mmap : List Vma) (cache : HoleCache) : Except Errno Nat × HoleCache :=
  if call.fixed then
    if call.aliasing && call.shared &&
        (BitVec.ofNat 32 call.addr - call.pgoff <<< pageShift).toNat % shmlba != 0 then
      (.error .einval, cache)
    else (.ok call.addr, cache)
  else if call.split.taskSize < call.len then (.error .enomem, cache)
  else if call.hintFree mmap then (.ok (call.alignAddr call.addr), cache)
  else
    let start := call.startAddr cache
    let cache := if call.len > cache.cachedHoleSize then cache else { cache with cachedHoleSize := 0 }
    match call.fullSearch mmap start cache with
    | (some addr, cache) => (.ok addr, cache)
    | (none, cache) =>
      if start ≠ call.split.unmappedBase then
        match call.fullSearch mmap call.split.unmappedBase { cache with cachedHoleSize := 0 } with
        | (some addr, cache) => (.ok addr, cache)
        | (none, cache) => (.error .enomem, cache)
      else (.error .enomem, cache)

/-! ### Free addresses -/

/-- An address for the range: it is free, below `TASK_SIZE` and of the colour. -/
structure Suitable (mmap : List Vma) (addr : Nat) : Prop where
  below : addr + call.len ≤ call.split.taskSize
  free : ∀ vma ∈ mmap, vma.vmEnd ≤ addr ∨ addr + call.len ≤ vma.vmStart
  coloured : call.doAlign = true → addr % shmlba = colour call.pgoff

/-- What is found is suitable, and nothing is found only if there is nothing from the base on. -/
def Right (mmap : List Vma) (cache : HoleCache) : Prop :=
  match (call.archGetUnmappedArea mmap cache).1 with
  | .ok addr => call.Suitable mmap addr
  | .error errno => errno = .enomem ∧ ∀ addr, call.split.unmappedBase ≤ addr → ¬ call.Suitable mmap addr

def behind (mmap : List Vma) (addr : Nat) : List Vma := mmap.filter fun vma => addr < vma.vmEnd

/-- The range ends before the areas. -/
def Fits (addr : Nat) (areas : List Vma) : Prop :=
  addr ≤ call.limit ∧ ∀ vma ∈ areas, addr + call.len ≤ vma.vmStart

/-- The first address fits, or the rounded end of an area does. -/
def Offers (addr : Nat) (areas : List Vma) (found : Nat) : Prop :=
  (found = addr ∧ call.Fits found areas) ∨
    ∃ vma rest, vma :: rest <:+ areas ∧ found = call.nextAddr vma.vmEnd ∧ call.Fits found rest

/-- What the areas behind a start offer. -/
def Offered (mmap : List Vma) (start : Nat) : Nat → Prop :=
  call.Offers (call.alignAddr start) (behind mmap (call.alignAddr start))

/-- The hint fits, or an address is offered from the cached start or from the base on. -/
def HasRoom (mmap : List Vma) (cache : HoleCache) : Prop :=
  (call.addr ≠ 0 ∧ call.Fits (call.alignAddr call.addr) (behind mmap (call.alignAddr call.addr))) ∨
    (∃ addr, call.Offered mmap (call.startAddr cache) addr) ∨
    ∃ addr, call.Offered mmap call.split.unmappedBase addr

end Search

end Call

/-- The areas of an address space: in order, cut at pages and below `TASK_SIZE`. -/
structure Laid (split : VmSplit) (mmap : List Vma) : Prop where
  ascending : Ascending Vma.vmStart Vma.vmEnd mmap
  aligned : ∀ vma ∈ mmap, pageSize ∣ vma.vmStart
  inside : ∀ vma ∈ mmap, vma.vmEnd ≤ split.taskSize

variable {split : VmSplit} {call : Call} {mmap areas rest : List Vma} {vma : Vma} {cache : HoleCache}
  {addr found target low high start : Nat}

theorem Laid.sublist (laid : Laid split mmap) (sub : areas <+ mmap) : Laid split areas :=
  ⟨⟨fun vma member => laid.ascending.nonempty vma (sub.mem member), laid.ascending.apart.sublist sub⟩,
    fun vma member => laid.aligned vma (sub.mem member),
    fun vma member => laid.inside vma (sub.mem member)⟩

theorem Laid.behind (laid : Laid split mmap) (addr : Nat) : Laid split (Call.behind mmap addr) :=
  laid.sublist filter_sublist

theorem findVma_eq_behind (laid : Laid split mmap) : findVma mmap addr = Call.behind mmap addr := by
  induction mmap with
  | nil => rfl
  | cons vma rest ih =>
    obtain ⟨_, ordered, after⟩ := ascending_cons.mp laid.ascending
    unfold findVma Call.behind at *
    by_cases passed : vma.vmEnd ≤ addr
    · simp [passed, not_lt.mpr passed, ih (laid.sublist (sublist_cons_self vma rest))]
    · have behind other (member : other ∈ rest) : addr < other.vmEnd := by
        have := after other member
        have := ordered.nonempty other member
        omega
      simpa [passed, not_le.mp passed, eq_comm (a := rest)] using behind

namespace Call

theorem nextAddr_mono (call : Call) (lower : low ≤ high) (inside : high ≤ call.split.taskSize) :
    low ≤ call.nextAddr low ∧ call.nextAddr low ≤ call.nextAddr high := by
  have : call.split.taskSize + shmlba ≤ 2 ^ 32 := by cases call.split <;> decide
  unfold nextAddr colourAlign shmlba pageSize at *
  split <;> omega

theorem fits_cons (laid : Laid split (vma :: rest)) :
    call.Fits addr (vma :: rest) ↔ addr ≤ call.limit ∧ addr + call.len ≤ vma.vmStart := by
  obtain ⟨proper, _, after⟩ := ascending_cons.mp laid.ascending
  refine and_congr_right fun _ => forall_mem_cons.trans (and_iff_left_of_imp fun room other member => ?_)
  have := after other member
  omega

theorem hintFree_iff (laid : Laid call.split mmap) : call.hintFree mmap = true ↔
    call.addr ≠ 0 ∧ call.Fits (call.alignAddr call.addr) (behind mmap (call.alignAddr call.addr)) := by
  have areas := laid.behind (call.alignAddr call.addr)
  simp only [hintFree, findVma_eq_behind laid]
  cases found : behind mmap (call.alignAddr call.addr) with
  | nil => simp [Fits]
  | cons head rest =>
    rw [found] at areas
    simp [fits_cons areas, and_assoc]

/-! ### What is found -/

theorem offers_cons : call.Offers addr (vma :: rest) found ↔
    (found = addr ∧ call.Fits found (vma :: rest)) ∨
      call.Offers (call.nextAddr vma.vmEnd) rest found := by
  simp only [Offers, suffix_cons_iff, cons.injEq, or_and_right, exists_or, and_assoc,
    exists_and_left, exists_eq_left]

theorem Offers.le (offers : call.Offers addr areas found)
    (ascends : ∀ vma ∈ areas, addr ≤ call.nextAddr vma.vmEnd) : addr ≤ found ∧ found ≤ call.limit := by
  obtain ⟨rfl, fits⟩ | ⟨vma, rest, suffix, rfl, fits⟩ := offers
  · exact ⟨le_rfl, fits.1⟩
  · exact ⟨ascends vma (suffix.mem mem_cons_self), fits.1⟩

/-- The addresses that the loop looks at ascend, so it may stop at the first one that is too high. -/
theorem searchLoop_spec (laid : Laid call.split areas)
    (ascends : ∀ vma ∈ areas, addr ≤ call.nextAddr vma.vmEnd) :
    match (call.searchLoop areas addr cache).1 with
    | some found => call.Offers addr areas found
    | none => ∀ found, ¬ call.Offers addr areas found := by
  induction areas generalizing addr cache with
  | nil =>
    unfold searchLoop
    split_ifs with beyond
    · exact fun _ offers => by have := offers.le ascends; omega
    · exact .inl ⟨rfl, not_lt.mp beyond, by simp⟩
  | cons vma rest ih =>
    rw [searchLoop]
    by_cases beyond : call.limit < addr
    · rw [if_pos beyond]
      exact fun _ offers => by have := offers.le ascends; omega
    by_cases room : addr + call.len ≤ vma.vmStart
    · rw [if_neg beyond, if_pos room]
      exact .inl ⟨rfl, (fits_cons laid).mpr ⟨not_lt.mp beyond, room⟩⟩
    rw [if_neg beyond, if_neg room]
    obtain ⟨_, ordered, after⟩ := ascending_cons.mp laid.ascending
    have full found : ¬ (found = addr ∧ call.Fits found (vma :: rest)) := by
      rintro ⟨rfl, _, before⟩
      exact room (before vma mem_cons_self)
    simp only [offers_cons, or_iff_right (full _)]
    refine ih (laid.sublist (sublist_cons_self vma rest)) fun other member => ?_
    have := after other member
    have := ordered.nonempty other member
    exact (call.nextAddr_mono (by omega) (laid.inside other (mem_cons_of_mem vma member))).2

theorem ascends (laid : Laid call.split mmap) :
    ∀ vma ∈ behind mmap addr, addr ≤ call.nextAddr vma.vmEnd := by
  intro vma member
  obtain ⟨member, behind⟩ := mem_filter.mp member
  exact (of_decide_eq_true behind).le.trans (call.nextAddr_mono le_rfl (laid.inside vma member)).1

theorem fullSearch_spec (laid : Laid call.split mmap) (start : Nat) (cache : HoleCache) :
    match (call.fullSearch mmap start cache).1 with
    | some addr => call.Offered mmap start addr
    | none => ∀ addr, ¬ call.Offered mmap start addr := by
  rw [fullSearch, findVma_eq_behind laid]
  exact searchLoop_spec (laid.behind _) (ascends laid)

theorem Offers.free (offers : call.Offers addr areas found) (laid : Laid call.split areas) :
    ∀ vma ∈ areas, vma.vmEnd ≤ found ∨ found + call.len ≤ vma.vmStart := by
  intro other member
  obtain ⟨rfl, fits⟩ | ⟨vma, rest, ⟨front, rfl⟩, rfl, fits⟩ := offers
  · exact .inr (fits.2 other member)
  have ends := (call.nextAddr_mono le_rfl (laid.inside vma (by simp))).1
  obtain ⟨_, later, apart⟩ := ascending_append.mp laid.ascending
  rw [mem_append, mem_cons] at member
  obtain member | rfl | member := member
  · have := apart other member vma mem_cons_self
    have := later.nonempty vma mem_cons_self
    exact .inl (by omega)
  · exact .inl ends
  · exact .inr (fits.2 other member)

theorem Offered.suitable (offered : call.Offered mmap start addr) (laid : Laid call.split mmap)
    (short : call.len ≤ call.split.taskSize) : call.Suitable mmap addr := by
  obtain ⟨first, below⟩ := offered.le (ascends laid)
  unfold limit at below
  refine ⟨by omega, fun vma member => ?_, fun coloured => ?_⟩
  · by_cases passed : vma.vmEnd ≤ call.alignAddr start
    · exact .inl (passed.trans first)
    · exact offered.free (laid.behind _) vma (mem_filter.mpr ⟨member, by simpa using passed⟩)
  · obtain ⟨rfl, _⟩ | ⟨vma, _, _, rfl, _⟩ := offered
    all_goals
      simp only [alignAddr, nextAddr, coloured, if_true, colourAlign, colour]
      rw [mul_comm, Nat.mul_add_mod, Nat.mod_mod]

/-- The search comes to the begin of the hole of a free address, or starts in it. -/
theorem offers_of_free (laid : Laid call.split areas) (plain : call.doAlign = false)
    (pages : pageSize ∣ call.len) (below : target ≤ call.limit)
    (free : ∀ vma ∈ areas, vma.vmEnd ≤ target ∨ target + call.len ≤ vma.vmStart)
    (near : ∀ page, target ≤ page → pageSize ∣ page → addr ≤ page) :
    ∃ found, call.Offers addr areas found := by
  have first : addr ≤ call.limit := near _ below (Nat.dvd_sub (by cases call.split <;> decide) pages)
  induction areas generalizing addr with
  | nil => exact ⟨addr, .inl ⟨rfl, first, by simp⟩⟩
  | cons vma rest ih =>
    -- the free address is behind the area, or the rounded start is in the same hole
    obtain passed | room := free vma mem_cons_self
    · obtain ⟨found, offers⟩ := ih (laid.sublist (sublist_cons_self vma rest))
        (forall_mem_cons.mp free).2 (fun page after _ => passed.trans after) (passed.trans below)
      refine ⟨found, offers_cons.mpr (.inr ?_)⟩
      rwa [nextAddr, plain, if_neg Bool.false_ne_true]
    · have begins := near (vma.vmStart - call.len) (by omega)
        (Nat.dvd_sub (laid.aligned vma mem_cons_self) pages)
      exact ⟨addr, .inl ⟨rfl, (fits_cons laid).mpr ⟨first, by omega⟩⟩⟩

theorem Suitable.offered (suitable : call.Suitable mmap addr) (laid : Laid call.split mmap)
    (plain : call.doAlign = false) (pages : pageSize ∣ call.len)
    (high : call.split.unmappedBase ≤ addr) :
    ∃ found, call.Offered mmap call.split.unmappedBase found := by
  have below := suitable.below
  refine offers_of_free (laid.behind _) plain pages (Nat.le_sub_of_add_le below)
    (fun vma member => suitable.free vma (mem_filter.mp member).1) fun page after whole => ?_
  rw [alignAddr, plain, if_neg Bool.false_ne_true]
  unfold pageAlignUp pageSize at *
  omega

theorem archGetUnmappedArea_spec (laid : Laid call.split mmap) (short : call.len ≤ call.split.taskSize)
    (unfixed : call.fixed = false) (cache : HoleCache) :
    match (call.archGetUnmappedArea mmap cache).1 with
    | .ok addr => call.Suitable mmap addr ∧ call.HasRoom mmap cache
    | .error errno => errno = .enomem ∧ ¬ call.HasRoom mmap cache := by
  rw [archGetUnmappedArea, unfixed, if_neg Bool.false_ne_true, if_neg (not_lt.mpr short)]
  by_cases hint : call.hintFree mmap = true
  · rw [if_pos hint]
    have fits := (hintFree_iff laid).mp hint
    exact ⟨Offered.suitable (.inl ⟨rfl, fits.2⟩) laid short, .inl fits⟩
  rw [if_neg hint, HasRoom, ← hintFree_iff laid, or_iff_right hint]
  generalize call.startAddr cache = start
  dsimp only
  generalize (if call.len > cache.cachedHoleSize then cache else _) = cache
  have cached := fullSearch_spec laid start cache
  rcases first : call.fullSearch mmap start cache with ⟨_ | addr, cache⟩
  all_goals rw [first] at cached
  · -- "Start a new search - just in case we missed some holes."
    by_cases restart : start ≠ call.split.unmappedBase
    · have again := fullSearch_spec laid call.split.unmappedBase { cache with cachedHoleSize := 0 }
      dsimp only
      rw [if_pos restart]
      rcases second : call.fullSearch mmap call.split.unmappedBase _ with ⟨_ | addr, cache⟩
      all_goals rw [second] at again
      · exact ⟨rfl, fun room => room.elim (not_exists.mpr cached) (not_exists.mpr again)⟩
      · exact ⟨Offered.suitable again laid short, .inr ⟨addr, again⟩⟩
    · dsimp only
      rw [if_neg restart, ← not_ne_iff.mp restart, or_self]
      exact ⟨rfl, not_exists.mpr cached⟩
  · exact ⟨Offered.suitable cached laid short, .inl ⟨addr, cached⟩⟩

/-- **The search is right** exactly when no colour is asked for, nothing from the base on suits, the
hint fits, or a hole has room behind its rounded begin. -/
theorem unmapped_area_iff (call : Call) (mmap : List Vma) (cache : HoleCache)
    (laid : Laid call.split mmap) (pages : pageSize ∣ call.len)
    (short : call.len ≤ call.split.taskSize) (unfixed : call.fixed = false) :
    call.Right mmap cache ↔
      (call.doAlign = true → (∃ addr, call.split.unmappedBase ≤ addr ∧ call.Suitable mmap addr) →
        call.HasRoom mmap cache) := by
  have spec := archGetUnmappedArea_spec laid short unfixed cache
  unfold Right
  cases result : (call.archGetUnmappedArea mmap cache).1 with
  | ok addr =>
    rw [result] at spec
    exact iff_of_true spec.1 fun _ _ => spec.2
  | error errno =>
    rw [result] at spec
    constructor
    · rintro ⟨_, nothing⟩ _ ⟨addr, high, suitable⟩
      exact absurd suitable (nothing addr high)
    · refine fun room => ⟨spec.1, fun addr high suitable => spec.2 ?_⟩
      cases plain : call.doAlign with
      | true => exact room plain ⟨addr, high, suitable⟩
      | false => exact .inr (.inr (suitable.offered laid plain pages high))

/-- A shared mapping of the second page of a file. -/
def secondPage (cpu : Option (BitVec 32 × BitVec 32)) : Call :=
  ⟨.three, cpu, true, 0, 0x1000, 1, true, false⟩

/-- From the base on, the sixth page alone is free. -/
def sixthFree : List Vma :=
  [⟨0x40000000, 0x40005000, 0, none, 0, none, none, false⟩,
    ⟨0x40006000, 0xbf000000, 0, none, 0, none, none, false⟩]

theorem unmapped_area_iff_plain :
    Laid .three sixthFree ∧ (secondPage none).Right sixthFree ⟨0x40000000, 0⟩ := by
  have laid : Laid .three sixthFree := ⟨⟨by decide, by decide⟩, by decide, by decide⟩
  exact ⟨laid, (unmapped_area_iff (secondPage none) sixthFree _ laid (by decide) (by decide) rfl).mpr
    fun coloured => absurd coloured (by decide)⟩

/-- **A free page of the colour is passed**: `0x40005000` is rounded up to `0x40009000`. -/
theorem coloured_page_passed : ¬ (secondPage (some (0x800, 0))).Right sixthFree ⟨0x40000000, 0⟩ := by
  intro right
  have failed : ((secondPage (some (0x800, 0))).archGetUnmappedArea sixthFree ⟨0x40000000, 0⟩).1 =
    .error .enomem := by decide
  rw [Right, failed] at right
  exact right.2 0x40005000 (by decide) ⟨by decide, by decide, fun _ => by decide⟩

end Call

end KernelImx.Mmap
