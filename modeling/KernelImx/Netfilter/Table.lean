/-
**The rules of an iptables table** (`net/ipv4/netfilter/ip_tables.c`).

User space hands over one block of bytes, a number of entries one behind the other. Everything the
kernel knows about a rule it reads from these bytes at some offset, whether or not a rule starts there,
and it also writes into them: the search for loops keeps its marks and its way back in the rules, and
the addresses of the matches and targets take the place of their names.

* **`translateTable`**.
-/

import KernelImx.Errno
import KernelImx.Lib.Bytes

namespace KernelImx.Netfilter

open KernelImx.Lib

/-! ### The bytes -/

/-- The memory of a table, by offset from `entry0`. -/
abbrev Blob := Nat → BitVec 8

/-- `sizeof(struct ipt_entry)` -/
def sizeofEntry : Nat := 112

/-- `sizeof(struct ipt_entry_target)` and `sizeof(struct ipt_entry_match)` -/
def sizeofTarget : Nat := 32

def invalidHook : BitVec 32 := 0xffffffff

section Fields

variable (m : Blob)

/-- `e->ip.flags` -/
def flags (e : Nat) : BitVec 8 := m (e + 82)

/-- `e->ip.invflags` -/
def invflags (e : Nat) : BitVec 8 := m (e + 83)

def targetOffset (e : Nat) : Nat := load 2 m (e + 88)

def nextOffset (e : Nat) : Nat := load 2 m (e + 90)

def comefrom (e : Nat) : Nat := load 4 m (e + 92)

/-- `e->counters.pcnt`, as far as an `unsigned int` takes it. -/
def pcnt (e : Nat) : Nat := load 4 m (e + 96)

/-- `ipt_get_target` -/
def getTarget (e : Nat) : Nat := e + targetOffset m e

/-- `t->u.target_size` and `m->u.match_size` -/
def unionSize (t : Nat) : Nat := load 2 m t

/-- `t->u.user.name` and `m->u.user.name` -/
def userName (t : Nat) : List (BitVec 8) := (List.range 29).map fun i => m (t + 2 + i)

/-- `t->u.user.revision` and `m->u.user.revision` -/
def userRevision (t : Nat) : BitVec 8 := m (t + 31)

/-- `t->u.kernel.target` and `m->u.kernel.match` -/
def kernelPointer (t : Nat) : Nat := load 4 m (t + 4)

/-- `strcmp(t->u.user.name, IPT_STANDARD_TARGET) == 0`; the name is empty. -/
def isStandard (t : Nat) : Bool := m (t + 2) = 0

/-- `strcmp(t->u.user.name, IPT_ERROR_TARGET) == 0` -/
def isError (t : Nat) : Bool :=
  m (t + 2) = 69 && m (t + 3) = 82 && m (t + 4) = 82 && m (t + 5) = 79 && m (t + 6) = 82 &&
    m (t + 7) = 0

/-- `((struct ipt_standard_target *)t)->verdict` -/
def verdict (t : Nat) : Int := (BitVec.ofNat 32 (load 4 m (t + 32))).toInt

/-- All of `e->ip` is zero. -/
def unconditional (e : Nat) : Bool := (List.range 84).all fun i => m (e + i) = 0

end Fields

/-! ### The first walk -/

/-- `struct ipt_replace` -/
structure Replace where
  validHooks : BitVec 32
  numEntries : BitVec 32
  size : BitVec 32
  hookEntry : Fin 5 → BitVec 32
  underflow : Fin 5 → BitVec 32

/-- `struct xt_table_info` -/
structure TableInfo where
  size : BitVec 32
  hookEntry : Fin 5 → BitVec 32
  underflow : Fin 5 → BitVec 32
  stacksize : Nat

def nfDrop : Int := 0

def nfAccept : Int := 1

def checkUnderflow (m : Blob) (e : Nat) : Bool :=
  unconditional m e && isStandard m (getTarget m e) &&
    ((-verdict m (getTarget m e) - 1) % 2 ^ 32 = nfDrop ||
      (-verdict m (getTarget m e) - 1) % 2 ^ 32 = nfAccept)

variable (repl : Replace)

/-- The hooks and underflows at one entry: the body of the loop over the hooks. -/
def checkHook (m : Blob) (e : Nat) (info : TableInfo) (h : Fin 5) : Except Errno TableInfo :=
  if repl.validHooks.getLsbD h = false then .ok info
  else
    let info :=
      if e = (repl.hookEntry h).toNat then
        { info with hookEntry := Function.update info.hookEntry h (repl.hookEntry h) }
      else info
    if e = (repl.underflow h).toNat then
      if checkUnderflow m e then
        .ok { info with underflow := Function.update info.underflow h (repl.underflow h) }
      else .error .einval
    else .ok info

def checkHooks (repl : Replace) (m : Blob) (e : Nat) : List (Fin 5) → TableInfo →
    Except Errno TableInfo
  | [], info => .ok info
  | h :: rest, info =>
    match checkHook repl m e info h with
    | .error err => .error err
    | .ok info => checkHooks repl m e rest info

/-- "Clear counters and comefrom" -/
def clearEntry (m : Blob) (e : Nat) : Blob := store 4 (store 16 m (e + 96) 0) (e + 92) 0

def checkEntrySizeAndHooks (m : Blob) (e : Nat) (info : TableInfo) :
    Except Errno (TableInfo × Blob) :=
  if e % 8 ≠ 0 ∨ repl.size.toNat ≤ e + sizeofEntry then .error .einval
  else if nextOffset m e < sizeofEntry + sizeofTarget then .error .einval
  else
    match checkHooks repl m e (List.finRange 5) info with
    | .error err => .error err
    | .ok info => .ok (info, clearEntry m e)

/-- The first `xt_entry_foreach`, which counts the entries; each has more than 143 bytes. -/
def checkEntries (repl : Replace) : Nat → Nat → Nat → TableInfo → Blob →
    Except Errno (Nat × TableInfo × Blob)
  | 0, _, _, _, _ => .error .einval
  | fuel + 1, e, i, info, m =>
    if e < repl.size.toNat then
      match checkEntrySizeAndHooks repl m e info with
      | .error err => .error err
      | .ok (info, m) =>
        let info :=
          if isError m (getTarget m e) then { info with stacksize := info.stacksize + 1 } else info
        checkEntries repl fuel (e + nextOffset m e) (i + 1) info m
    else .ok (i, info, m)

/-! ### The search for loops -/

/-- `1 << NF_INET_NUMHOOKS`: the rule is on the way that is being followed. -/
def onWay : Nat := 5

/-- "Unconditional return/END" -/
def ends (m : Blob) (e : Nat) : Bool :=
  targetOffset m e = sizeofEntry && isStandard m (getTarget m e) && verdict m (getTarget m e) < 0 &&
    unconditional m e

/-- How the search leaves the `do … while` of a return. -/
inductive Back
  /-- "We're at the start." -/
  | next (m : Blob)
  /-- The rule of the last big jump. -/
  | along (m : Blob) (pos : Nat)

/-- `e->counters.pcnt = pos` -/
def setBack (m : Blob) (e pos : Nat) : Blob := store 8 m (e + 96) pos

/-- `e->comefrom ^= (1<<NF_INET_NUMHOOKS)` -/
def unmark (m : Blob) (pos : Nat) : Blob := store 4 m (pos + 92) (comefrom m pos ^^^ 2 ^ onWay)

/-- "Return: backtrack through the last big jump." -/
def backtrack : Nat → Blob → Nat → Option Back
  | 0, _, _ => none
  | fuel + 1, m, pos =>
    let m := unmark m pos
    let back := pcnt m pos
    let m := setBack m pos 0
    if back = pos then some (.next m)
    else if pos = back + nextOffset m back then backtrack fuel m back
    else some (.along m back)

/-- Where a rule that is no return leads: a jump is chased, any other rule falls through. -/
def chase (size : BitVec 32) (m : Blob) (pos : Nat) : Option Nat :=
  if isStandard m (getTarget m pos) && 0 ≤ verdict m (getTarget m pos) then
    if (size - BitVec.ofNat 32 sizeofEntry).toNat < (verdict m (getTarget m pos)).toNat then none
    else some (verdict m (getTarget m pos)).toNat
  else some (pos + nextOffset m pos)

inductive Turn
  /-- `return 0` -/
  | refused
  /-- `goto next` -/
  | next (m : Blob)
  | goOn (m : Blob) (pos : Nat)

/-- `e->comefrom |= ((1 << hook) | (1 << NF_INET_NUMHOOKS))` -/
def enter (hook : Nat) (m : Blob) (pos : Nat) : Blob :=
  store 4 m (pos + 92) (comefrom m pos ||| (2 ^ hook ||| 2 ^ onWay))

/-- One turn of the `for (;;)`; `fuel` bounds the `do … while` in it. -/
def turn (size : BitVec 32) (hook fuel : Nat) (m : Blob) (pos : Nat) : Option Turn :=
  if (comefrom m pos).testBit onWay then some .refused
  else
    let visited := (comefrom m pos).testBit hook
    let m := enter hook m pos
    if ends m pos || visited then
      if isStandard m (getTarget m pos) && verdict m (getTarget m pos) < -6 then some .refused
      else
        match backtrack fuel m pos with
        | none => none
        | some (.next m) => some (.next m)
        | some (.along m back) =>
          some (.goOn (setBack m (back + nextOffset m back) back) (back + nextOffset m back))
    else
      match chase size m pos with
      | none => some .refused
      | some newpos => some (.goOn (setBack m newpos pos) newpos)

/-- The search from one hook: `none` while it goes on, `some none` when the table is refused. -/
def markLoop (size : BitVec 32) (hook : Nat) : Nat → Blob → Nat → Option (Option Blob)
  | 0, _, _ => none
  | fuel + 1, m, pos =>
    match turn size hook fuel m pos with
    | none => none
    | some .refused => some none
    | some (.next m) => some (some m)
    | some (.goOn m pos) => markLoop size hook fuel m pos

/-- `mark_source_chains`, for the hooks that are left. -/
def markSourceChains (fuel : Nat) (validHooks : BitVec 32) (info : TableInfo) :
    List (Fin 5) → Blob → Option (Option Blob)
  | [], m => some (some m)
  | hook :: rest, m =>
    if validHooks.getLsbD hook = false then markSourceChains fuel validHooks info rest m
    else
      let pos := (info.hookEntry hook).toNat
      match markLoop info.size hook fuel (setBack m pos pos) pos with
      | some (some m) => markSourceChains fuel validHooks info rest m
      | other => other

/-! ### The last walk -/

/-- What is read of a `struct xt_match` or `struct xt_target`. -/
structure Extension where
  address : BitVec 32
  /-- `matchsize` and `targetsize` -/
  size : Nat
  /-- The checks that follow the one of the size: table, hooks, protocol, and `checkentry`. -/
  admits : Blob → Nat → Except Errno Unit

/-- The matches and targets that are registered, with the standard target as a case of its own. -/
structure Registry where
  /-- `&ipt_builtin_tg[0]`, the only target without a function. -/
  standard : BitVec 32
  findMatch : List (BitVec 8) → BitVec 8 → Except Errno Extension
  findTarget : List (BitVec 8) → BitVec 8 → Except Errno Extension
  others : ∀ name revision target, findTarget name revision = .ok target → target.address ≠ standard

variable (reg : Registry)

def xtRequestFindTarget (name : List (BitVec 8)) (revision : BitVec 8) : Except Errno Extension :=
  if name.head? = some 0 then
    if revision = 0 then .ok ⟨reg.standard, 4, fun _ _ => .ok ()⟩ else .error .enoent
  else reg.findTarget name revision

def xtAlign (size : Nat) : Nat := (size + 7) / 8 * 8

def ipCheckentry (m : Blob) (e : Nat) : Bool :=
  flags m e &&& ~~~0x03 = 0 && invflags m e &&& ~~~0x7f = 0

def checkEntry (m : Blob) (e : Nat) : Bool :=
  ipCheckentry m e && targetOffset m e + sizeofTarget ≤ nextOffset m e &&
    targetOffset m e + unionSize m (getTarget m e) ≤ nextOffset m e

/-- `check_match` and `check_target`: the address is already in place of the name. -/
def checkExtension (ext : Extension) (m : Blob) (e t : Nat) : Except Errno Blob :=
  if xtAlign ext.size + sizeofTarget ≠ unionSize m t then .error .einval
  else
    match ext.admits m e with
    | .error err => .error err
    | .ok _ => .ok m

def findCheckMatch (m : Blob) (e t : Nat) : Except Errno Blob :=
  match reg.findMatch (userName m t) (userRevision m t) with
  | .error err => .error err
  | .ok ext => checkExtension ext (store 4 m (t + 4) ext.address.toNat) e t

/-- The `xt_ematch_foreach`; a match that was checked has more than 31 bytes. -/
def findCheckMatches (reg : Registry) (e : Nat) : Nat → Blob → Nat → Except Errno Blob
  | 0, _, _ => .error .einval
  | fuel + 1, m, t =>
    if t < getTarget m e then
      match findCheckMatch reg m e t with
      | .error err => .error err
      | .ok m => findCheckMatches reg e fuel m (t + unionSize m t)
    else .ok m

def findCheckTarget (m : Blob) (e : Nat) : Except Errno Blob :=
  let t := getTarget m e
  match xtRequestFindTarget reg (userName m t) (userRevision m t) with
  | .error err => .error err
  | .ok ext => checkExtension ext (store 4 m (t + 4) ext.address.toNat) e t

def findCheckEntry (m : Blob) (e : Nat) : Except Errno Blob :=
  if checkEntry m e = false then .error .einval
  else
    match findCheckMatches reg e (targetOffset m e + 1) m (e + sizeofEntry) with
    | .error err => .error err
    | .ok m => findCheckTarget reg m e

/-- The last `xt_entry_foreach`. -/
def findCheckEntries (reg : Registry) (size : BitVec 32) : Nat → Nat → Blob → Except Errno Blob
  | 0, _, _ => .error .einval
  | fuel + 1, e, m =>
    if e < size.toNat then
      match findCheckEntry reg m e with
      | .error err => .error err
      | .ok m => findCheckEntries reg size fuel (e + nextOffset m e) m
    else .ok m

/-! ### The whole check -/

/-- "Check hooks all assigned" -/
def hooksAssigned (info : TableInfo) : Bool :=
  (List.finRange 5).all fun h => !repl.validHooks.getLsbD h ||
    (info.hookEntry h ≠ invalidHook && info.underflow h ≠ invalidHook)

/-- "Init all hooks to impossible value." -/
def newInfo : TableInfo :=
  ⟨repl.size, fun _ => invalidHook, fun _ => invalidHook, 0⟩

/-- **`translate_table`**; `none` when the search for loops takes more than `fuel` turns. -/
def translateTable (fuel : Nat) (repl : Replace) (m : Blob) :
    Option (Except Errno (TableInfo × Blob)) :=
  match checkEntries repl (repl.size.toNat + 1) 0 0 (newInfo repl) m with
  | .error err => some (.error err)
  | .ok (i, info, m) =>
    if i ≠ repl.numEntries.toNat then some (.error .einval)
    else if hooksAssigned repl info = false then some (.error .einval)
    else
      match markSourceChains fuel repl.validHooks info (List.finRange 5) m with
      | none => none
      | some none => some (.error .eloop)
      | some (some m) =>
        match findCheckEntries reg repl.size (repl.size.toNat + 1) 0 m with
        | .error err => some (.error err)
        | .ok m => some (.ok (info, m))

end KernelImx.Netfilter
