/-
**A packet through a table**: `ipt_do_table` (`net/ipv4/netfilter/ip_tables.c`).

What a match or a target answers is open, and so is the packet, which a target may change. A rule whose
`ip` is all zero and that has no matches applies to every packet (`ipPacketMatch_unconditional`).

Main result: `iptDoTable`.
-/

import KernelImx.Netfilter.Table

namespace KernelImx.Netfilter

open KernelImx.Lib List

/-! ### Whether a rule applies -/

/-- What `ip_packet_match` looks at. -/
structure Packet where
  saddr : Nat
  daddr : Nat
  protocol : Nat
  isfrag : Bool
  totLen : Nat
  indev : Nat → BitVec 8
  outdev : Nat → BitVec 8

/-- `FWINV` -/
def fwinv (m : Blob) (e : Nat) (holds : Bool) (invflg : BitVec 8) : Bool :=
  xor holds (invflags m e &&& invflg ≠ 0)

/-- `ifname_compare_aligned(…) != 0` -/
def ifnameDiffers (m : Blob) (dev : Nat → BitVec 8) (iface mask : Nat) : Bool :=
  (range 16).any fun i => (dev i ^^^ m (iface + i)) &&& m (mask + i) ≠ 0

def ipPacketMatch (m : Blob) (e : Nat) (ip : Packet) : Bool :=
  if fwinv m e (ip.saddr &&& load 4 m (e + 8) ≠ load 4 m e) 0x08 ||
      fwinv m e (ip.daddr &&& load 4 m (e + 12) ≠ load 4 m (e + 4)) 0x10 then false
  else if fwinv m e (ifnameDiffers m ip.indev (e + 16) (e + 48)) 0x01 then false
  else if fwinv m e (ifnameDiffers m ip.outdev (e + 32) (e + 64)) 0x02 then false
  else if load 2 m (e + 80) ≠ 0 && fwinv m e (ip.protocol ≠ load 2 m (e + 80)) 0x40 then false
  else if fwinv m e (flags m e &&& 0x01 ≠ 0 && !ip.isfrag) 0x20 then false
  else true

/-- What the outside answers at one rule. -/
structure Answers where
  packet : Packet
  /-- The match at an offset. -/
  applies : Nat → Bool
  /-- The function of a target. -/
  verdict : BitVec 32
  hotdrop : Bool

/-- The `xt_ematch_foreach`; `none` when a match of no bytes keeps it going. -/
def ematchLoop (m : Blob) (e : Nat) (applies : Nat → Bool) : Nat → Nat → Option Bool
  | 0, _ => none
  | fuel + 1, t =>
    if t < getTarget m e then
      if applies t then ematchLoop m e applies fuel (t + unionSize m t) else some false
    else some true

def ruleMatches (m : Blob) (e : Nat) (ans : Answers) : Option Bool :=
  if ipPacketMatch m e ans.packet then
    ematchLoop m e ans.applies (targetOffset m e + 1) (e + sizeofEntry)
  else some false

/-! ### One rule -/

/-- The variables of the loop; the length of `jumpstack` is `*stackptr`. -/
structure Eval where
  mem : Blob
  e : Nat
  jumpstack : List Nat

inductive Outcome
  | goOn (s : Eval)
  | verdict (v : BitVec 32)
  /-- The loop over the matches does not end. -/
  | hang

/-- `ADD_COUNTER(e->counters, len, 1)` -/
def addCounter (m : Blob) (e len : Nat) : Blob :=
  store 8 (store 8 m (e + 104) (load 8 m (e + 104) + len)) (e + 96)
    (load 8 (store 8 m (e + 104) (load 8 m (e + 104) + len)) (e + 96) + 1)

def iptReturn : Int := -5

def iptContinue : BitVec 32 := 0xffffffff

/-- `xt_jumpstack_alloc` -/
def TableInfo.slots (info : TableInfo) : Nat := 2 * info.stacksize

/-- "Standard target?" -/
def standardTarget (info : TableInfo) (hook : Fin 5) (s : Eval) : Outcome :=
  let v := verdict s.mem (getTarget s.mem s.e)
  if v < 0 then
    if v ≠ iptReturn then .verdict (BitVec.ofInt 32 (-v) - 1)
    else
      match s.jumpstack with
      | [] => .goOn { s with e := (info.underflow hook).toNat }
      | top :: rest => .goOn { s with e := top + nextOffset s.mem top, jumpstack := rest }
  else if v.toNat ≠ s.e + nextOffset s.mem s.e ∧ flags s.mem s.e &&& 0x02 = 0 then
    if info.slots ≤ s.jumpstack.length then .verdict 0
    else .goOn { s with e := v.toNat, jumpstack := s.e :: s.jumpstack }
  else .goOn { s with e := v.toNat }

def Eval.nextEntry (s : Eval) : Eval := { s with e := s.e + nextOffset s.mem s.e }

def applyRule (reg : Registry) (info : TableInfo) (hook : Fin 5) (ans : Answers) (s : Eval) : Outcome :=
  let s := { s with mem := addCounter s.mem s.e ans.packet.totLen }
  if kernelPointer s.mem (getTarget s.mem s.e) = reg.standard.toNat then standardTarget info hook s
  else if ans.verdict = iptContinue then .goOn s.nextEntry
  else .verdict ans.verdict

/-- The body of the `do … while (!acpar.hotdrop)`. -/
def doRule (reg : Registry) (info : TableInfo) (hook : Fin 5) (ans : Answers) (s : Eval) : Outcome :=
  match ruleMatches s.mem s.e ans with
  | none => .hang
  | some false => .goOn s.nextEntry
  | some true => applyRule reg info hook ans s

/-- The condition of the loop, and the verdict of a packet that is to be dropped. -/
def Outcome.checkHotdrop (hotdrop : Bool) : Outcome → Outcome
  | .hang => .hang
  | .goOn s => if hotdrop then .verdict 0 else .goOn s
  | .verdict v => .verdict (if hotdrop then 0 else v)

/-! ### The whole run -/

/-- The loop: the offsets of the rules that are looked at, and the verdict when there is one. -/
def evalLoop (reg : Registry) (info : TableInfo) (hook : Fin 5) :
    Nat → (Nat → Answers) → Eval → List Nat × Option (BitVec 32)
  | 0, _, _ => ([], none)
  | fuel + 1, answers, s =>
    match (doRule reg info hook (answers 0) s).checkHotdrop (answers 0).hotdrop with
    | .hang => ([s.e], none)
    | .verdict v => ([s.e], some v)
    | .goOn next =>
      let rest := evalLoop reg info hook fuel (fun n => answers (n + 1)) next
      (s.e :: rest.1, rest.2)

/-- **`ipt_do_table`**, when no other evaluation is under way on the processor. -/
def iptDoTable (reg : Registry) (info : TableInfo) (m : Blob) (hook : Fin 5) (fuel : Nat)
    (answers : Nat → Answers) : List Nat × Option (BitVec 32) :=
  evalLoop reg info hook fuel answers ⟨m, (info.hookEntry hook).toNat, []⟩

/-! ### Rules without conditions -/

theorem load_zero {n o : Nat} {m : Blob} (zero : ∀ a, o ≤ a → a < o + n → m a = 0) :
    load n m o = 0 := by
  induction n generalizing o with
  | zero => rfl
  | succ n ih =>
    rw [load, zero o le_rfl (by omega), ih fun a low high => zero a (by omega) (by omega)]
    rfl

theorem unconditional_byte {m : Blob} {e i : Nat} (all : unconditional m e = true) (inside : i < 84) :
    m (e + i) = 0 :=
  of_decide_eq_true (all_eq_true.mp all i (mem_range.mpr inside))

/-- **A rule without conditions applies to every packet**, as far as `ip` goes. -/
theorem ipPacketMatch_unconditional {m : Blob} {e : Nat} (all : unconditional m e = true)
    (ip : Packet) : ipPacketMatch m e ip = true := by
  have zero : ∀ a, e ≤ a → a < e + 84 → m a = 0 := by
    intro a low high
    obtain ⟨i, rfl⟩ := Nat.exists_eq_add_of_le low
    exact unconditional_byte all (by omega)
  have inverted : invflags m e = 0 := zero _ (by omega) (by omega)
  have plain : flags m e = 0 := zero _ (by omega) (by omega)
  have field : ∀ n o, e ≤ o → o + n ≤ e + 84 → load n m o = 0 := fun n o low high =>
    load_zero fun a low' high' => zero a (by omega) (by omega)
  have names : ∀ dev iface mask, e ≤ mask → mask + 16 ≤ e + 84 →
      ifnameDiffers m dev iface mask = false := by
    intro dev iface mask low high
    refine any_eq_false.mpr fun i member => ?_
    have byte : m (mask + i) = 0 := by
      have inside := mem_range.mp member
      exact zero _ (by omega) (by omega)
    simp [byte]
  simp [ipPacketMatch, fwinv, inverted, plain, field 4 e (by omega) (by omega),
    field 4 (e + 4) (by omega) (by omega), field 4 (e + 8) (by omega) (by omega),
    field 4 (e + 12) (by omega) (by omega), field 2 (e + 80) (by omega) (by omega),
    names ip.indev (e + 16) (e + 48) (by omega) (by omega),
    names ip.outdev (e + 32) (e + 64) (by omega) (by omega)]

end KernelImx.Netfilter
