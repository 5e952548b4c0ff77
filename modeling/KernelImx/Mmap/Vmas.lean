/-
**The areas of an address space, and mprotect.**

The model of `mm/mprotect.c` (`mprotect_fixup`, `sys_mprotect`) with what it uses of `mm/mmap.c`:
`vma_adjust`, `vma_merge`, `__split_vma`, `split_vma`, `find_vma_prev` and `__insert_vm_struct`.
-/

import KernelImx.Errno
import Mathlib.Data.BitVec

namespace KernelImx.Mmap

/-! ### Flags -/

/-- `vm_flags` and the bits of `prot`. -/
abbrev Flags := BitVec 32

/-- `vm_pgoff`, in pages. -/
abbrev Pgoff := BitVec 32

def vmRead : Flags := 0x00000001#32

def vmWrite : Flags := 0x00000002#32

def vmExec : Flags := 0x00000004#32

def vmShared : Flags := 0x00000008#32

def vmGrowsdown : Flags := 0x00000100#32

def vmGrowsup : Flags := 0x00000200#32

def vmPfnmap : Flags := 0x00000400#32

def vmIo : Flags := 0x00004000#32

def vmDontexpand : Flags := 0x00040000#32

def vmReserved : Flags := 0x00080000#32

def vmAccount : Flags := 0x00100000#32

def vmNoreserve : Flags := 0x00200000#32

def vmHugetlb : Flags := 0x00400000#32

def vmCanNonlinear : Flags := 0x08000000#32

/-- `VM_SPECIAL`: areas that are not merged. -/
def vmSpecial : Flags := vmIo ||| vmDontexpand ||| vmReserved ||| vmPfnmap

/-- The bits that `mprotect` is asked to set. -/
def accessBits : Flags := vmRead ||| vmWrite ||| vmExec

def protRead : Flags := 0x1#32

def protWrite : Flags := 0x2#32

def protExec : Flags := 0x4#32

def protSem : Flags := 0x8#32

def protGrowsdown : Flags := 0x01000000#32

def protGrowsup : Flags := 0x02000000#32

def pageShift : Nat := 12

def pageSize : Nat := 4096

/-- A number of bytes in pages, as the code adds it to a page offset. -/
def pages (bytes : Nat) : Pgoff := BitVec.ofNat 32 (bytes >>> pageShift)

/-! ### Areas -/

/-- A `vm_area_struct`. `close` tells whether `vm_ops->close` is there. -/
structure Vma where
  vmStart : Nat
  vmEnd : Nat
  vmFlags : Flags
  vmFile : Option Nat
  vmPgoff : Pgoff
  vmPolicy : Option Nat
  anonVma : Option Nat
  close : Bool
  deriving DecidableEq, Repr

/-- An `mm_struct`. -/
structure Mm where
  mmap : List Vma
  mapCount : Nat
  deriving DecidableEq, Repr

/-- An area in its list. -/
structure Place where
  before : List Vma
  vma : Vma
  after : List Vma
  mapCount : Nat
  deriving DecidableEq, Repr

/-- The areas up to `prev`, which is the first one of `upTo`, and those from `prev->vm_next` on. -/
structure Cursor where
  upTo : List Vma
  rest : List Vma
  mapCount : Nat
  deriving DecidableEq, Repr

variable (place : Place)

/-- The list of areas around a place. -/
def Place.mmap : List Vma := place.before.reverse ++ place.vma :: place.after

/-- The list of areas around a cursor. -/
def Cursor.mmap (cursor : Cursor) : List Vma := cursor.upTo.reverse ++ cursor.rest

/-- `prev` becomes the area of the place. -/
def Place.cursor : Cursor :=
  ⟨place.vma :: place.before, place.after, place.mapCount⟩

/-- The configuration: `sysctl_max_map_count`, and the size of the huge pages of a file. -/
structure Limits where
  maxMapCount : Nat
  hugePageSize : Option Nat → Nat

/-! ### vma_adjust -/

/-- The expanding area takes the `anon_vma` of the shrinking one, if it has none. -/
def importAnon (importer exporter : Vma) : Vma :=
  if exporter.anonVma.isSome && importer.anonVma.isNone then
    { importer with anonVma := exporter.anonVma }
  else importer

/-- `vma_adjust` from `again` on: `next` is swallowed, and the area behind it too if the new end was
beyond `next`. -/
def removeNext (start : Nat) (pgoff : Pgoff) :
    Vma → Nat → List Vma → Nat → Option (Vma × List Vma × Nat)
  | _, _, [], _ => none
  | vma, stop, next :: rest, mapCount =>
    let vma := { importAnon vma next with vmStart := start, vmEnd := next.vmEnd, vmPgoff := pgoff }
    -- VM_BUG_ON of anon_vma_merge
    if next.anonVma.isSome && vma.anonVma != next.anonVma then none
    else if next.vmEnd < stop then removeNext start pgoff vma next.vmEnd rest (mapCount - 1)
    else some (vma, rest, mapCount - 1)

/-- `__insert_vm_struct`: the new area goes in front of the first one that ends behind its start. -/
def insertVmStruct (new : Vma) : Option Place :=
  if new.vmStart < place.vma.vmEnd then
    let (above, below) := place.before.span fun vma => new.vmStart < vma.vmEnd
    if (above.getLast?.getD place.vma).vmStart < new.vmEnd then none
    else some { place with before := above ++ new :: below, mapCount := place.mapCount + 1 }
  else
    let (below, above) := place.after.span fun vma => vma.vmEnd ≤ new.vmStart
    if above.head?.any fun vma => vma.vmStart < new.vmEnd then none
    else some { place with after := below ++ new :: above, mapCount := place.mapCount + 1 }

/-- The boundary between an area and the next one moves by a number of pages. -/
def adjustStart (next : Vma) (adjustNext : Int) : Vma :=
  { next with
    vmStart := (next.vmStart + adjustNext * pageSize).toNat
    vmPgoff := next.vmPgoff + BitVec.ofInt 32 adjustNext }

/-- `vma_adjust` of the area of a place. -/
def vmaAdjust (start stop : Nat) (pgoff : Pgoff) (insert : Option Vma) : Option Place :=
  let adjusted (vma : Vma) : Vma := { vma with vmStart := start, vmEnd := stop, vmPgoff := pgoff }
  match insert, place.after with
  | some new, _ => insertVmStruct { place with vma := adjusted place.vma } new
  | none, [] => some { place with vma := adjusted place.vma }
  | none, next :: rest =>
    if next.vmEnd ≤ stop then
      (removeNext start pgoff place.vma stop (next :: rest) place.mapCount).map
        fun (vma, after, mapCount) => { place with vma, after, mapCount }
    else if next.vmStart < stop then
      let adjustNext : Int := ((stop - next.vmStart) >>> pageShift : Nat)
      some { place with
        vma := adjusted (importAnon place.vma next)
        after := adjustStart next adjustNext :: rest }
    else if stop < place.vma.vmEnd then
      let adjustNext : Int := -((place.vma.vmEnd - stop) >>> pageShift : Nat)
      some { place with
        vma := adjusted place.vma
        after := adjustStart (importAnon next place.vma) adjustNext :: rest }
    else some { place with vma := adjusted place.vma }

/-! ### vma_merge -/

/-- `is_mergeable_vma`. -/
def isMergeableVma (vma : Vma) (file : Option Nat) (vmFlags : Flags) : Bool :=
  (vma.vmFlags ^^^ vmFlags) &&& ~~~vmCanNonlinear == 0 && vma.vmFile == file && !vma.close

/-- `is_mergeable_anon_vma`. -/
def isMergeableAnonVma (one two : Option Nat) : Bool := one.isNone || two.isNone || one == two

/-- `can_vma_merge_before`. -/
def canVmaMergeBefore (vma : Vma) (vmFlags : Flags) (anon file : Option Nat) (pgoff : Pgoff) :
    Bool :=
  isMergeableVma vma file vmFlags && isMergeableAnonVma anon vma.anonVma && vma.vmPgoff == pgoff

/-- `can_vma_merge_after`. -/
def canVmaMergeAfter (vma : Vma) (vmFlags : Flags) (anon file : Option Nat) (pgoff : Pgoff) : Bool :=
  isMergeableVma vma file vmFlags && isMergeableAnonVma anon vma.anonVma &&
    vma.vmPgoff + pages (vma.vmEnd - vma.vmStart) == pgoff

/-- The request of `vma_merge`. -/
structure Request where
  addr : Nat
  stop : Nat
  vmFlags : Flags
  anonVma : Option Nat
  file : Option Nat
  pgoff : Pgoff
  policy : Option Nat

/-- `next` of `vma_merge`: the area after the request. -/
def nextArea (rest : List Vma) (stop : Nat) : Option Vma :=
  match rest with
  | [] => none
  | area :: others => if area.vmEnd == stop then others.head? else some area

/-- The request goes in front of `next`. -/
def mergesNext (request : Request) (next : Vma) : Bool :=
  request.stop == next.vmStart && request.policy == next.vmPolicy &&
    canVmaMergeBefore next request.vmFlags request.anonVma request.file
      (request.pgoff + pages (request.stop - request.addr))

/-- The request goes behind `prev`. -/
def mergesPrev (request : Request) (prev : Vma) : Bool :=
  prev.vmEnd == request.addr && prev.vmPolicy == request.policy &&
    canVmaMergeAfter prev request.vmFlags request.anonVma request.file request.pgoff

variable (cursor : Cursor)

/-- `prev` becomes the next area. -/
def Cursor.advance : Option Cursor :=
  match cursor.rest with
  | [] => none
  | vma :: rest => some ⟨vma :: cursor.upTo, rest, cursor.mapCount⟩

/-- Cases 3 and 8 of `vma_merge`: the area after `prev` is extended to the end of `next`. -/
def extendArea (request : Request) (next : Vma) : Option (Option Cursor) :=
  match cursor.rest with
  | [] => none
  | area :: others =>
    (vmaAdjust ⟨cursor.upTo, area, others, cursor.mapCount⟩ request.addr next.vmEnd
      (next.vmPgoff - pages (request.stop - request.addr)) none).map fun place => some place.cursor

/-- `vma_merge`. The cursor stands at the area the source returns; `some none` is its NULL. -/
def vmaMerge (request : Request) : Option (Option Cursor) :=
  if request.vmFlags &&& vmSpecial != 0 then some none
  else
    let next := (nextArea cursor.rest request.stop).filter (mergesNext request)
    match cursor.upTo, next with
    | [], none => some none
    | [], some next => extendArea cursor request next
    | prev :: below, next =>
      if mergesPrev request prev then
        let stop :=
          match next with
          | none => request.stop
          | some next =>
            if isMergeableAnonVma prev.anonVma next.anonVma then next.vmEnd else request.stop
        (vmaAdjust ⟨below, prev, cursor.rest, cursor.mapCount⟩ prev.vmStart stop prev.vmPgoff
          none).map fun place => some place.cursor
      else
        match next with
        | none => some none
        | some next =>
          if request.addr < prev.vmEnd then
            -- case 4
            (vmaAdjust ⟨below, prev, cursor.rest, cursor.mapCount⟩ prev.vmStart request.addr
              prev.vmPgoff none).bind fun place => place.cursor.advance.map some
          else extendArea cursor request next

/-! ### split_vma -/

/-- `is_vm_hugetlb_page`. -/
def isVmHugetlbPage (vma : Vma) : Bool := vma.vmFlags &&& vmHugetlb != 0

variable (limits : Limits)

/-- `__split_vma`: the area of the place keeps the part above `addr` if `newBelow`, else the part
below it. -/
def splitVmaUnchecked (place : Place) (addr : Nat) (newBelow : Bool) :
    Option (Except Errno Place) :=
  let vma := place.vma
  if isVmHugetlbPage vma && addr % limits.hugePageSize vma.vmFile != 0 then some (.error .einval)
  else if newBelow then
    (vmaAdjust place addr vma.vmEnd (vma.vmPgoff + pages (addr - vma.vmStart))
      (some { vma with vmEnd := addr })).map .ok
  else
    (vmaAdjust place vma.vmStart addr vma.vmPgoff
      (some { vma with
        vmStart := addr, vmPgoff := vma.vmPgoff + pages (addr - vma.vmStart) })).map .ok

/-- `split_vma`, which the limit may refuse. -/
def splitVma (place : Place) (addr : Nat) (newBelow : Bool) : Option (Except Errno Place) :=
  if limits.maxMapCount ≤ place.mapCount then some (.error .enomem)
  else splitVmaUnchecked limits place addr newBelow

/-! ### mprotect -/

/-- What a call returns, and where `prev` is left. -/
structure Outcome where
  error : Option Errno
  cursor : Cursor
  deriving DecidableEq, Repr

/-- The answers of the security hooks in one round. -/
structure Hooks where
  fileMprotect : Option Errno
  enoughMemory : Bool

/-- The area a place is split to, so that it is exactly the one from `start` to `stop`. -/
def splitBoth (place : Place) (start stop : Nat) : Option (Option Errno × Place) :=
  let upper :=
    if start == place.vma.vmStart then some (.ok place) else splitVma limits place start true
  upper.bind fun
    | .error error => some (some error, place)
    | .ok place =>
      if stop == place.vma.vmEnd then some (none, place)
      else
        (splitVma limits place stop false).map fun
          | .error error => (some error, place)
          | .ok place => (none, place)

/-- The flags of `prev` are set. -/
def Cursor.setFlags (newflags : Flags) : Option Cursor :=
  match cursor.upTo with
  | [] => none
  | prev :: below => some { cursor with upTo := { prev with vmFlags := newflags } :: below }

def isCharged (oldflags newflags : Flags) : Bool :=
  newflags &&& vmWrite != 0 &&
    oldflags &&& (vmAccount ||| vmWrite ||| vmHugetlb ||| vmShared ||| vmNoreserve) == 0

/-- `mprotect_fixup`: `*pprev` is at the cursor, `vma` is the area of the place. -/
def mprotectFixup (hooks : Hooks) (cursor : Cursor) (place : Place) (start stop : Nat)
    (newflags : Flags) : Option Outcome :=
  let vma := place.vma
  if newflags == vma.vmFlags then some ⟨none, place.cursor⟩
  else if isCharged vma.vmFlags newflags && !hooks.enoughMemory then some ⟨some .enomem, cursor⟩
  else
    let newflags := if isCharged vma.vmFlags newflags then newflags ||| vmAccount else newflags
    let pgoff := vma.vmPgoff + pages (start - vma.vmStart)
    (vmaMerge cursor ⟨start, stop, newflags, vma.anonVma, vma.vmFile, pgoff, vma.vmPolicy⟩).bind fun
      | some merged => (merged.setFlags newflags).map fun cursor => ⟨none, cursor⟩
      | none =>
        (splitBoth limits place start stop).bind fun
          | (some error, place) => some ⟨some error, place.cursor⟩
          | (none, place) => (place.cursor.setFlags newflags).map fun cursor => ⟨none, cursor⟩

/-- `vma` of the loop of `mprotect`: `prev` itself in a first round that begins inside of it,
otherwise the area behind it. -/
def Cursor.vmaPlace (inside : Bool) : Option Place :=
  match inside, cursor.upTo, cursor.rest with
  | true, vma :: below, rest => some ⟨below, vma, rest, cursor.mapCount⟩
  | false, upTo, vma :: after => some ⟨upTo, vma, after, cursor.mapCount⟩
  | _, _, _ => none

def newflagsOf (vmFlags oldflags : Flags) : Flags := vmFlags ||| (oldflags &&& ~~~accessBits)

/-- The `VM_MAY` bits do not allow the flags. -/
def isDenied (newflags : Flags) : Bool :=
  (newflags &&& ~~~(newflags >>> 4)) &&& accessBits != 0

/-- The loop of `mprotect`, from `nstart` on. -/
def mprotectLoop (limits : Limits) (hooks : Nat → Hooks) (vmFlags : Flags) (stop : Nat) :
    Nat → Bool → Cursor → Nat → Option Outcome
  | 0, _, _, _ => none
  | rounds + 1, inside, cursor, nstart =>
    (cursor.vmaPlace inside).bind fun place =>
      let newflags := newflagsOf vmFlags place.vma.vmFlags
      if isDenied newflags then some ⟨some .eacces, cursor⟩
      else
        match (hooks rounds).fileMprotect with
        | some error => some ⟨some error, cursor⟩
        | none =>
          let tmp := if stop < place.vma.vmEnd then stop else place.vma.vmEnd
          (mprotectFixup limits (hooks rounds) cursor place nstart tmp newflags).bind fun
            | ⟨some error, cursor⟩ => some ⟨some error, cursor⟩
            | ⟨none, cursor⟩ =>
              cursor.upTo.head?.bind fun prev =>
                let nstart := if tmp < prev.vmEnd then prev.vmEnd else tmp
                if stop ≤ nstart then some ⟨none, cursor⟩
                else
                  match cursor.rest with
                  | [] => some ⟨some .enomem, cursor⟩
                  | vma :: _ =>
                    if vma.vmStart != nstart then some ⟨some .enomem, cursor⟩
                    else mprotectLoop limits hooks vmFlags stop rounds false cursor nstart

/-- `calc_vm_prot_bits`. -/
def calcVmProtBits (prot : Flags) : Flags :=
  (if prot &&& protRead != 0 then vmRead else 0) |||
    (if prot &&& protWrite != 0 then vmWrite else 0) |||
    (if prot &&& protExec != 0 then vmExec else 0)

/-- `arch_validate_prot`. -/
def archValidateProt (prot : Flags) : Bool :=
  prot &&& ~~~(protRead ||| protWrite ||| protExec ||| protSem) == 0

/-- `find_vma_prev`: `prev` is the last area that ends at or before `addr`. -/
def findVmaPrev (mm : Mm) (addr : Nat) : Cursor :=
  let (below, rest) := mm.mmap.span fun vma => vma.vmEnd ≤ addr
  ⟨below.reverse, rest, mm.mapCount⟩

/-- The range after `PROT_GROWSDOWN` or `PROT_GROWSUP` has moved an end of it to an end of the area
that is found. -/
def grownRange (vma : Vma) (grows : Flags) (start stop : Nat) : Except Errno (Nat × Nat) :=
  if grows &&& protGrowsdown != 0 then
    if stop ≤ vma.vmStart then .error .enomem
    else if vma.vmFlags &&& vmGrowsdown == 0 then .error .einval
    else .ok (vma.vmStart, stop)
  else if start < vma.vmStart then .error .enomem
  else if grows &&& protGrowsup != 0 then
    if vma.vmFlags &&& vmGrowsup == 0 then .error .einval else .ok (start, vma.vmEnd)
  else .ok (start, stop)

/-- The access bits of a request: `PROT_READ` may imply `PROT_EXEC`. -/
def requestedBits (readImpliesExec : Bool) (prot : Flags) : Flags :=
  calcVmProtBits
    (if prot &&& protRead != 0 && readImpliesExec then prot ||| protExec else prot)

/-- The part of `mprotect` under `mmap_sem`. -/
def mprotectLocked (hooks : Nat → Hooks) (mm : Mm) (vmFlags grows : Flags) (start stop : Nat) :
    Option (Option Errno × Mm) :=
  let cursor := findVmaPrev mm start
  match cursor.rest with
  | [] => some (some .enomem, mm)
  | vma :: rest =>
    match grownRange vma grows start stop with
    | .error error => some (some error, mm)
    | .ok (start, stop) =>
      let inside := vma.vmStart < start
      let cursor := if inside then ⟨vma :: cursor.upTo, rest, cursor.mapCount⟩ else cursor
      (mprotectLoop limits hooks vmFlags stop (mm.mmap.length + 1) inside cursor start).map
        fun outcome => (outcome.error, ⟨outcome.cursor.mmap, outcome.cursor.mapCount⟩)

/-- `PAGE_ALIGN`. -/
def pageAlign (len : BitVec 32) : BitVec 32 := (len + 0xfff#32) &&& ~~~0xfff#32

/-- The system call `mprotect`: what it returns, and the areas after it. -/
def sysMprotect (hooks : Nat → Hooks) (readImpliesExec : Bool) (mm : Mm) (start len : BitVec 32)
    (prot : Flags) : Option (Option Errno × Mm) :=
  let grows := prot &&& (protGrowsdown ||| protGrowsup)
  let prot := prot &&& ~~~(protGrowsdown ||| protGrowsup)
  if grows == protGrowsdown ||| protGrowsup then some (some .einval, mm)
  else if start &&& 0xfff#32 != 0 then some (some .einval, mm)
  else if len == 0 then some (none, mm)
  else
    let stop := start + pageAlign len
    if stop ≤ start then some (some .enomem, mm)
    else if !archValidateProt prot then some (some .einval, mm)
    else
      mprotectLocked limits hooks mm (requestedBits readImpliesExec prot) grows start.toNat stop.toNat

end KernelImx.Mmap
