/-
**Reassembly of IPv4 fragments.**

The fragments of a datagram are kept in a list by offset. A fragment that arrives is cut at the front
where the fragment before it reaches into it, and then cuts or replaces the fragments behind it.

Allocations can fail wherever the code asks for memory; checksums, device and accounting are left out.
-/

import Mathlib.Data.List.Basic
import KernelImx.Errno

namespace KernelImx.Fragments

/-- A packet as `ip_frag_queue` sees it. It has its header and is shorter than 64 KiB, so that no
sum of offsets and lengths overflows. -/
structure Skb where
  /-- `frag_off` of the header, in host order -/
  fragOff : BitVec 16
  /-- the length of the header -/
  ihl : Nat
  /-- the packet, with its header -/
  bytes : List (BitVec 8)
  /-- `IPSKB_FRAG_COMPLETE` -/
  fragComplete : Bool
  header : ihl ≤ bytes.length
  short : bytes.length < 2 ^ 16

/-- A fragment in the list: `FRAG_CB(skb)->offset`, its data, and the length of its header. -/
structure Fragment where
  offset : Nat
  data : List (BitVec 8)
  ihl : Nat
  deriving DecidableEq

/-- An `ipq`; the three flags are `last_in`. -/
structure Ipq where
  fragments : List Fragment
  len : Nat
  meat : Int
  firstIn : Bool
  lastIn : Bool
  complete : Bool
  deriving DecidableEq

/-- What the rest of the kernel answers. -/
structure Choices where
  /-- other datagrams of the peer came in between -/
  tooFar : Bool
  /-- the timer was still pending -/
  modTimer : Bool
  pullHeader : Bool
  trim : Option Errno
  pullFront : Bool
  pullNext : Bool
  clone : Bool
  expandHead : Bool
  splitHead : Bool

/-- `ip_frag_queue` refuses a fragment, keeps it, or calls `ip_frag_reasm` with `prev` or without. -/
inductive Outcome where
  | refused (err : Errno)
  | inProgress
  | reassembles (prev : Bool)
  deriving DecidableEq

def Fragment.stop (f : Fragment) : Nat := f.offset + f.data.length

def ipOffset : BitVec 16 := 0x1fff
def ipMF : BitVec 16 := 0x2000

namespace Skb

/-- The offset, which the header has in units of eight bytes. -/
def offset (skb : Skb) : Nat := (skb.fragOff &&& ipOffset).toNat <<< 3

def moreFragments (skb : Skb) : Bool := (skb.fragOff &&& ~~~ipOffset) &&& ipMF != 0

def payload (skb : Skb) : List (BitVec 8) := skb.bytes.drop skb.ihl

end Skb

def fresh : Ipq := ⟨[], 0, 0, false, false, false⟩

variable (q : Ipq)

/-- Where the fragment ends, and the queue with the known end; `none` when it contradicts what is
there. -/
def placeFragment (skb : Skb) : Option (Ipq × Nat) :=
  let stop := skb.offset + skb.bytes.length - skb.ihl
  if skb.moreFragments then
    let stop := stop - stop % 8
    if q.len < stop then
      if q.lastIn then none else some ({ q with len := stop }, stop)
    else some (q, stop)
  else if stop < q.len ∨ (q.lastIn = true ∧ stop ≠ q.len) then none
  else some ({ q with lastIn := true, len := stop }, stop)

/-- The fragment without what the one before it has already. -/
def trimFront (prev : Option Fragment) (f : Fragment) (stop : Nat) (pullFront : Bool) :
    Except Errno Fragment :=
  match prev with
  | none => .ok f
  | some prev =>
    let i := prev.stop - f.offset
    if 0 < i then
      if stop ≤ f.offset + i then .error .einval
      else if pullFront then .ok { f with offset := f.offset + i, data := f.data.drop i }
      else .error .enomem
    else .ok f

/-- The loop over the fragments behind, which end before `stop` or are cut there, and whether it was
done. -/
def overrun (stop : Nat) (pullNext : Bool) : List Fragment → Int → List Fragment × Int × Bool
  | [], meat => ([], meat, true)
  | next :: rest, meat =>
    if next.offset < stop then
      let i := stop - next.offset
      if i < next.data.length then
        if pullNext then
          ({ next with offset := next.offset + i, data := next.data.drop i } :: rest, meat - i, true)
        else (next :: rest, meat, false)
      else overrun stop pullNext rest (meat - next.data.length)
    else (next :: rest, meat, true)

/-- The fragment goes into the list, between the parts before and behind it. -/
def linkFragment (before : List Fragment) (f : Fragment) (stop : Nat) (after : List Fragment)
    (pullNext : Bool) : Ipq × Outcome :=
  match overrun stop pullNext after q.meat with
  | (rest, meat, false) => ({ q with fragments := before ++ rest, meat := meat }, .refused .enomem)
  | (rest, meat, true) =>
    let q := { q with
      fragments := before ++ f :: rest
      meat := meat + f.data.length
      firstIn := q.firstIn || f.offset == 0 }
    if q.firstIn ∧ q.lastIn ∧ ¬ q.complete ∧ q.meat = q.len then (q, .reassembles (!before.isEmpty))
    else (q, .inProgress)

/-- The rest of `ip_frag_queue`, when it is known where the fragment ends. -/
def insertFragment (skb : Skb) (stop : Nat) (ch : Choices) : Ipq × Outcome :=
  if stop = skb.offset then (q, .refused .einval)
  else if ch.pullHeader then
    match ch.trim with
    | some err => (q, .refused err)
    | none =>
      let f : Fragment := ⟨skb.offset, skb.payload.take (stop - skb.offset), skb.ihl⟩
      let before := q.fragments.takeWhile fun next => next.offset < skb.offset
      let after := q.fragments.dropWhile fun next => next.offset < skb.offset
      match trimFront before.getLast? f stop ch.pullFront with
      | .error err => (q, .refused err)
      | .ok f => linkFragment q before f stop after ch.pullNext
  else (q, .refused .enomem)

/-- `ip_frag_reinit` -/
def ipFragReinit (ch : Choices) : Except Errno Ipq :=
  if ch.modTimer then .ok fresh else .error .etimedout

/-- `ip_frag_queue`, up to the call of `ip_frag_reasm`. -/
def ipFragQueue (skb : Skb) (ch : Choices) : Ipq × Outcome :=
  if q.complete then (q, .refused .enoent)
  else
    let far := !skb.fragComplete && !q.fragments.isEmpty && ch.tooFar
    match if far then ipFragReinit ch else .ok q with
    | .error err => ({ q with complete := true }, .refused err)
    | .ok q =>
      match placeFragment q skb with
      | none => (q, .refused .einval)
      | some (q, stop) => insertFragment q skb stop ch

/-- `ip_frag_reasm`: the queue is killed, and the datagram is the data of the fragments. -/
def ipFragReasm (prev : Bool) (ch : Choices) : Ipq × Except Errno (List (BitVec 8)) :=
  let q := { q with complete := true }
  let ihlen := (q.fragments.head?.map Fragment.ihl).getD 0
  if prev && !ch.clone then (q, .error .enomem)
  else if 65535 < ihlen + q.len then (q, .error .e2big)
  else if !ch.expandHead || !ch.splitHead then (q, .error .enomem)
  else ({ q with fragments := [] }, .ok (q.fragments.flatMap Fragment.data))

/-- A fragment arrives at a queue. -/
def arrive (arrival : Skb × Choices) : Ipq :=
  match ipFragQueue q arrival.1 arrival.2 with
  | (q, .reassembles prev) => (ipFragReasm q prev arrival.2).1
  | (q, _) => q

end KernelImx.Fragments
