/-
**Socket filters** (net/core/filter.c).

A filter is a list of instructions with a 16-bit code. `sk_chk_filter` checks the program once, and
`sk_run_filter` interprets it on every packet, with an accumulator, an index register and sixteen
words of scratch memory.

What the machine gives for a shift by 32 or more is a parameter (`Shifts`).
-/

import Mathlib.Data.BitVec
import KernelImx.Errno

namespace KernelImx.Filter

/-- `struct sock_filter` -/
structure SockFilter where
  code : BitVec 16
  jt : BitVec 8
  jf : BitVec 8
  k : BitVec 32
  deriving DecidableEq, Repr

def bpfMaxinsns : Nat := 4096

def bpfMemwords : Nat := 16

/-! ### Packets -/

structure NetDevice where
  ifindex : BitVec 32
  type : BitVec 16

/-- A packet: the memory around `skb->data`, by the distance from it modulo `2 ^ 32`, the lengths of
the linear part and the fragments, and the header offsets. -/
structure SkBuff where
  byte : BitVec 32 → BitVec 8
  headLen : Nat
  frags : List (BitVec 8)
  headroom : Nat
  networkHeader : Int
  macHeader : Int
  /-- In host order. -/
  protocol : BitVec 16
  pktType : BitVec 3
  dev : Option NetDevice
  mark : BitVec 32
  queueMapping : BitVec 16

variable (skb : SkBuff)

def SkBuff.len : Nat := skb.headLen + skb.frags.length

def SkBuff.read (ptr : Int) (size : Nat) : List (BitVec 8) :=
  (List.range size).map fun i => skb.byte (BitVec.ofInt 32 (ptr + i))

/-- `skb_copy_bits` -/
def skbCopyBits (offset size : Nat) : Option (List (BitVec 8)) :=
  if offset + size ≤ skb.len then
    some ((List.range size).map fun i =>
      if offset + i < skb.headLen then skb.byte (BitVec.ofNat 32 (offset + i))
      else skb.frags.getD (offset + i - skb.headLen) 0)
  else none

/-- `skb_header_pointer` -/
def skbHeaderPointer (offset size : Nat) : Option (List (BitVec 8)) :=
  if offset + size ≤ skb.headLen then some (skb.read offset size) else skbCopyBits skb offset size

def skfAdOff : Int := -0x1000
def skfNetOff : Int := -0x100000
def skfLlOff : Int := -0x200000

/-- `__load_pointer`: only the first byte is compared with the end of the linear part. -/
def loadNegative (k : Int) (size : Nat) : Option (List (BitVec 8)) :=
  if k ≥ skfNetOff then readAt (skb.networkHeader + k - skfNetOff)
  else if k ≥ skfLlOff then readAt (skb.macHeader + k - skfLlOff)
  else none
where
  readAt (ptr : Int) : Option (List (BitVec 8)) :=
    if -skb.headroom ≤ ptr ∧ ptr < skb.headLen then some (skb.read ptr size) else none

/-- `load_pointer`, with the bytes that are then read through it. -/
def loadPointer (k : Int) (size : Nat) : Option (List (BitVec 8)) :=
  if k ≥ 0 then skbHeaderPointer skb k.toNat size
  else if k ≥ skfAdOff then none
  else loadNegative skb k size

/-- `get_unaligned_be32` and its siblings -/
def bigEndian (bytes : List (BitVec 8)) : BitVec 32 :=
  BitVec.ofNat 32 (bytes.foldl (fun acc byte => acc * 256 + byte.toNat) 0)

/-! ### Netlink attributes -/

/-- A `u16` of a netlink attribute, in the order of the machine. -/
def SkBuff.half (ptr : BitVec 32) : Nat :=
  (skb.byte ptr).toNat + 256 * (skb.byte (ptr + 1)).toNat

/-- The loop of `nla_find`; every attribute takes at least four of the remaining bytes. -/
def nlaFindLoop (skb : SkBuff) (attrtype : Int) : Nat → BitVec 32 → Int → Option (BitVec 32)
  | 0, _, _ => none
  | left + 1, nla, rem =>
    if rem ≥ 4 ∧ skb.half nla ≥ 4 ∧ skb.half nla ≤ rem then
      if (skb.half (nla + 2) % 0x4000 : Nat) = attrtype then some nla
      else
        let totlen := (skb.half nla + 3) / 4 * 4
        nlaFindLoop skb attrtype left (nla + BitVec.ofNat 32 totlen) (rem - totlen)
    else none

def nlaFind (head : BitVec 32) (len : Int) (attrtype : Int) : Option (BitVec 32) :=
  nlaFindLoop skb attrtype len.toNat head len

/-! ### Instructions -/

inductive Source
  | k
  | x
  deriving DecidableEq, Repr

inductive Alu
  | add
  | sub
  | mul
  | div
  | and
  | or
  | lsh
  | rsh
  deriving DecidableEq, Repr

inductive Cond
  | gt
  | ge
  | eq
  | set
  deriving DecidableEq, Repr

inductive Size
  | w
  | h
  | b
  deriving DecidableEq, Repr

def Size.bytes : Size → Nat
  | .w => 4
  | .h => 2
  | .b => 1

inductive Insn
  | alu (op : Alu) (src : Source)
  | neg
  | ja
  | jump (cond : Cond) (src : Source)
  | ldAbs (size : Size)
  | ldInd (size : Size)
  | ldLen
  | ldxLen
  | ldxMsh
  | ldImm
  | ldxImm
  | ldMem
  | ldxMem
  | tax
  | txa
  | retK
  | retA
  | st
  | stx
  deriving DecidableEq, Repr

/-- The case labels of `sk_run_filter`, in its order. -/
def decode (code : BitVec 16) : Option Insn :=
  match code.toNat with
  -- BPF_ALU | op | BPF_X or BPF_K
  | 0x0c => some (.alu .add .x)
  | 0x04 => some (.alu .add .k)
  | 0x1c => some (.alu .sub .x)
  | 0x14 => some (.alu .sub .k)
  | 0x2c => some (.alu .mul .x)
  | 0x24 => some (.alu .mul .k)
  | 0x3c => some (.alu .div .x)
  | 0x34 => some (.alu .div .k)
  | 0x5c => some (.alu .and .x)
  | 0x54 => some (.alu .and .k)
  | 0x4c => some (.alu .or .x)
  | 0x44 => some (.alu .or .k)
  | 0x6c => some (.alu .lsh .x)
  | 0x64 => some (.alu .lsh .k)
  | 0x7c => some (.alu .rsh .x)
  | 0x74 => some (.alu .rsh .k)
  | 0x84 => some .neg
  -- BPF_JMP | op | BPF_K or BPF_X
  | 0x05 => some .ja
  | 0x25 => some (.jump .gt .k)
  | 0x35 => some (.jump .ge .k)
  | 0x15 => some (.jump .eq .k)
  | 0x45 => some (.jump .set .k)
  | 0x2d => some (.jump .gt .x)
  | 0x3d => some (.jump .ge .x)
  | 0x1d => some (.jump .eq .x)
  | 0x4d => some (.jump .set .x)
  -- BPF_LD and BPF_LDX | size | mode
  | 0x20 => some (.ldAbs .w)
  | 0x28 => some (.ldAbs .h)
  | 0x30 => some (.ldAbs .b)
  | 0x80 => some .ldLen
  | 0x81 => some .ldxLen
  | 0x40 => some (.ldInd .w)
  | 0x48 => some (.ldInd .h)
  | 0x50 => some (.ldInd .b)
  | 0xb1 => some .ldxMsh
  | 0x00 => some .ldImm
  | 0x01 => some .ldxImm
  | 0x60 => some .ldMem
  | 0x61 => some .ldxMem
  -- BPF_MISC, BPF_RET, BPF_ST, BPF_STX
  | 0x07 => some .tax
  | 0x87 => some .txa
  | 0x06 => some .retK
  | 0x16 => some .retA
  | 0x02 => some .st
  | 0x03 => some .stx
  | _ => none

/-! ### The interpreter -/

/-- What the machine gives for a shift by 32 or more, which C leaves open. -/
structure Shifts where
  shl : BitVec 32 → BitVec 32 → BitVec 32
  shr : BitVec 32 → BitVec 32 → BitVec 32

/-- The variables of `sk_run_filter`. -/
structure State where
  pc : Int
  a : BitVec 32
  x : BitVec 32
  mem : Nat → BitVec 32

inductive Fault
  /-- A division by zero. -/
  | division
  /-- An access behind the scratch array. -/
  | scratch
  /-- An instruction before the program. -/
  | fetch
  deriving DecidableEq, Repr

/-- How the interpreter is left. -/
inductive Exit
  | ret (value : BitVec 32)
  /-- `BPF_DIV|BPF_X` with a zero `X`. -/
  | divByZero
  | failedLoad
  /-- The default case. -/
  | unknownCode
  /-- The loop ends. -/
  | endOfProgram
  | fault (fault : Fault)
  deriving DecidableEq, Repr

def Exit.value : Exit → BitVec 32
  | .ret value => value
  | _ => 0

inductive Next
  | goOn (s : State)
  | exit (exit : Exit)

/-- `continue` -/
def State.next (s : State) : Next := .goOn { s with pc := s.pc + 1 }

def State.source (s : State) (f : SockFilter) : Source → BitVec 32
  | .k => f.k
  | .x => s.x

variable (shifts : Shifts)

def aluOp : Alu → BitVec 32 → BitVec 32 → BitVec 32
  | .add, a, b => a + b
  | .sub, a, b => a - b
  | .mul, a, b => a * b
  | .div, a, b => a / b
  | .and, a, b => a &&& b
  | .or, a, b => a ||| b
  | .lsh, a, b => if b.toNat < 32 then a <<< b.toNat else shifts.shl a b
  | .rsh, a, b => if b.toNat < 32 then a >>> b.toNat else shifts.shr a b

def condHolds : Cond → BitVec 32 → BitVec 32 → Bool
  | .gt, a, b => b < a
  | .ge, a, b => b ≤ a
  | .eq, a, b => a = b
  | .set, a, b => a &&& b ≠ 0

def State.setAttr (s : State) (nla : Option (BitVec 32)) : Next :=
  State.next { s with a := nla.getD 0 }

/-- "Handle ancillary data", when the load at `k` failed. -/
def ancillary (k : Int) (s : State) : Next :=
  match k - skfAdOff with
  | 0 => State.next { s with a := skb.protocol.setWidth 32 }
  | 4 => State.next { s with a := skb.pktType.setWidth 32 }
  | 8 =>
    match skb.dev with
    | none => .exit .failedLoad
    | some dev => State.next { s with a := dev.ifindex }
  | 20 => State.next { s with a := skb.mark }
  | 24 => State.next { s with a := skb.queueMapping.setWidth 32 }
  | 28 =>
    match skb.dev with
    | none => .exit .failedLoad
    | some dev => State.next { s with a := dev.type.setWidth 32 }
  | 12 =>
    if skb.frags ≠ [] ∨ s.a > BitVec.ofNat 32 skb.len - 4 then .exit .failedLoad
    else s.setAttr (nlaFind skb s.a (BitVec.ofNat 32 skb.len - s.a).toInt s.x.toInt)
  | 16 =>
    if skb.frags ≠ [] ∨ s.a > BitVec.ofNat 32 skb.len - 4 ∨
        BitVec.ofNat 32 (skb.half s.a) > s.a - BitVec.ofNat 32 skb.len then .exit .failedLoad
    else s.setAttr (nlaFind skb (s.a + 4) ((skb.half s.a : Int) - 4) s.x.toInt)
  | _ => .exit .failedLoad

/-- `load_w`, `load_h` and `load_b` -/
def load (k : BitVec 32) (size : Size) (s : State) : Next :=
  match loadPointer skb k.toInt size.bytes with
  | some bytes => State.next { s with a := bigEndian bytes }
  | none => ancillary skb k.toInt s

def State.scratch (s : State) (k : BitVec 32) (use : BitVec 32 → Next) : Next :=
  if k.toNat < bpfMemwords then use (s.mem k.toNat) else .exit (.fault .scratch)

def State.store (s : State) (k : BitVec 32) (value : BitVec 32) : Next :=
  if k.toNat < bpfMemwords then
    State.next { s with mem := fun other => if other = k.toNat then value else s.mem other }
  else .exit (.fault .scratch)

def divide (s : State) (f : SockFilter) : Source → Next
  | .x => if s.x = 0 then .exit .divByZero else State.next { s with a := s.a / s.x }
  | .k => if f.k = 0 then .exit (.fault .division) else State.next { s with a := s.a / f.k }

def execute (skb : SkBuff) (f : SockFilter) (s : State) : Insn → Next
  | .alu .div src => divide s f src
  | .alu op src => State.next { s with a := aluOp shifts op s.a (s.source f src) }
  | .neg => State.next { s with a := -s.a }
  | .ja => State.next { s with pc := (BitVec.ofInt 32 s.pc + f.k).toInt }
  | .jump cond src =>
    State.next { s with
      pc := s.pc + if condHolds cond s.a (s.source f src) then (f.jt.toNat : Int) else f.jf.toNat }
  | .ldAbs size => load skb f.k size s
  | .ldInd size => load skb (s.x + f.k) size s
  | .ldLen => State.next { s with a := BitVec.ofNat 32 skb.len }
  | .ldxLen => State.next { s with x := BitVec.ofNat 32 skb.len }
  | .ldxMsh =>
    match loadPointer skb f.k.toInt 1 with
    | some bytes => State.next { s with x := (bigEndian bytes &&& 0xf) <<< 2 }
    | none => .exit .failedLoad
  | .ldImm => State.next { s with a := f.k }
  | .ldxImm => State.next { s with x := f.k }
  | .ldMem => s.scratch f.k fun value => State.next { s with a := value }
  | .ldxMem => s.scratch f.k fun value => State.next { s with x := value }
  | .tax => State.next { s with x := s.a }
  | .txa => State.next { s with a := s.x }
  | .retK => .exit (.ret f.k)
  | .retA => .exit (.ret s.a)
  | .st => s.store f.k s.a
  | .stx => s.store f.k s.x

/-- The instruction at `pc`. -/
def fetch (prog : List SockFilter) (pc : Int) : Option SockFilter :=
  if pc < 0 then none else prog[pc.toNat]?

def step (skb : SkBuff) (prog : List SockFilter) (s : State) : Next :=
  match fetch prog s.pc with
  | none => .exit (.fault .fetch)
  | some f =>
    match decode f.code with
    | none => .exit .unknownCode
    | some insn => execute shifts skb f s insn

/-- The loop of `sk_run_filter`: the states in which an instruction is executed, and the exit. -/
def run (shifts : Shifts) (skb : SkBuff) (prog : List SockFilter) :
    Nat → State → List State × Option Exit
  | 0, _ => ([], none)
  | fuel + 1, s =>
    if s.pc < prog.length then
      match step shifts skb prog s with
      | .exit exit => ([s], some exit)
      | .goOn next => (s :: (run shifts skb prog fuel next).1, (run shifts skb prog fuel next).2)
    else ([], some .endOfProgram)

def start (mem : Nat → BitVec 32) : State := ⟨0, 0, 0, mem⟩

/-- `sk_run_filter`, for programs that end within as many instructions as they have. -/
def skRunFilter (skb : SkBuff) (prog : List SockFilter) (mem : Nat → BitVec 32) :
    Option (BitVec 32) :=
  (run shifts skb prog prog.length (start mem)).2.map Exit.value

/-! ### The checker -/

/-- The body of the loop of `sk_chk_filter`. -/
def skChkInsn (flen pc : Nat) (f : SockFilter) : Bool :=
  match f.code.toNat with
  -- BPF_ALU
  | 0x04 | 0x0c | 0x14 | 0x1c | 0x24 | 0x2c | 0x3c | 0x54 | 0x5c | 0x44 | 0x4c | 0x64 | 0x6c | 0x74
  | 0x7c | 0x84 => true
  -- BPF_LD
  | 0x20 | 0x28 | 0x30 | 0x80 | 0x40 | 0x48 | 0x50 | 0x00 => true
  -- BPF_LDX, BPF_MISC, BPF_RET
  | 0x81 | 0xb1 | 0x01 | 0x07 | 0x87 | 0x06 | 0x16 => true
  -- BPF_ALU|BPF_DIV|BPF_K
  | 0x34 => f.k ≠ 0
  -- BPF_LD|BPF_MEM, BPF_LDX|BPF_MEM, BPF_ST, BPF_STX
  | 0x60 | 0x61 | 0x02 | 0x03 => f.k.toNat < bpfMemwords
  -- BPF_JMP|BPF_JA
  | 0x05 => f.k < BitVec.ofInt 32 ((flen : Int) - pc - 1)
  -- the conditional jumps
  | 0x15 | 0x1d | 0x35 | 0x3d | 0x25 | 0x2d | 0x45 | 0x4d =>
    pc + f.jt.toNat + 1 < flen ∧ pc + f.jf.toNat + 1 < flen
  | _ => false

/-- The loop of `sk_chk_filter`, from `pc` on. -/
def skChkLoop (flen : Nat) : Nat → List SockFilter → Bool
  | _, [] => true
  | pc, f :: rest => skChkInsn flen pc f && skChkLoop flen (pc + 1) rest

def skChkFilter (prog : List SockFilter) : Except Errno Unit :=
  if prog.length = 0 ∨ prog.length > bpfMaxinsns then .error .einval
  else if skChkLoop prog.length 0 prog = false then .error .einval
  else
    match prog.getLast? with
    | some f => if f.code &&& 0x07 = 0x06 then .ok () else .error .einval
    | none => .error .einval

end KernelImx.Filter
