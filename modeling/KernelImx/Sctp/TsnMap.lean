/-
**The map of received TSNs of an SCTP association.**

Transmission sequence numbers are 32-bit serial numbers. Those behind the cumulative ack point are
received; a bitmap tells which of the later ones are. The bitmap slides with the ack point, and grows
when a number comes in that it does not reach.
-/

import Mathlib.Tactic.Ring
import Mathlib.Data.List.Basic

namespace KernelImx.Sctp

/-- `BITS_PER_LONG` -/
def bitsPerLong : Nat := 32

/-- `SCTP_TSN_MAP_SIZE` -/
def tsnMapSize : Nat := 4096

/-- `SCTP_TSN_MAP_INITIAL` and `SCTP_TSN_MAP_INCREMENT` -/
def tsnMapInitial : Nat := bitsPerLong
def tsnMapIncrement : Nat := tsnMapInitial

/-- A bitmap; the bits behind its length are not there, and read as zero. -/
abbrev Bitmap := Nat → Bool

/-- `struct sctp_tsnmap`, without the list of duplicates and the count for the socket option. -/
structure TsnMap where
  tsnMap : Bitmap
  baseTsn : BitVec 32
  cumulativeTsnAckPoint : BitVec 32
  maxTsnSeen : BitVec 32
  len : Nat

/-- `TSN_lt` -/
def tsnLt (s t : BitVec 32) : Bool := (s - t).msb

/-- `TSN_lte` -/
def tsnLte (s t : BitVec 32) : Bool := s == t || (s - t).msb

/-- `find_first_zero_bit` -/
def findFirstZeroBit (bits : Bitmap) (size : Nat) : Nat :=
  ((List.range size).find? fun i => !bits i).getD size

/-- `bitmap_shift_right`, in place -/
def bitmapShiftRight (bits : Bitmap) (shift size : Nat) : Bitmap := fun i =>
  decide (i + shift < size) && bits (i + shift)

/-- `BITS_TO_LONGS`; the sum is unsigned and can wrap. -/
def bitsToLongs (nbits : BitVec 32) : Nat := (nbits + 32 - 1).toNat / bitsPerLong

/-- `bitmap_copy` into zeroed memory copies whole words. -/
def bitmapCopy (bits : Bitmap) (nbits : BitVec 32) : Bitmap := fun i =>
  decide (i < bitsToLongs nbits * bitsPerLong) && bits i

/-- `sctp_tsnmap_init` of a new map -/
def sctpTsnmapInit (initialTsn : BitVec 32) : TsnMap where
  tsnMap := fun _ => false
  baseTsn := initialTsn
  cumulativeTsnAckPoint := initialTsn - 1
  maxTsnSeen := initialTsn - 1
  len := tsnMapInitial

variable (map : TsnMap)

/-- `sctp_tsnmap_has_gap` -/
def sctpTsnmapHasGap : Bool := map.cumulativeTsnAckPoint != map.maxTsnSeen

/-- `sctp_tsnmap_check`: positive for a duplicate, negative for a number that is too large -/
def sctpTsnmapCheck (tsn : BitVec 32) : Int :=
  if tsnLte tsn map.cumulativeTsnAckPoint then 1
  else if !tsnLt tsn (map.baseTsn + BitVec.ofNat 32 tsnMapSize) then -1
  else
    let gap := (tsn - map.baseTsn).toNat
    if gap < map.len ∧ map.tsnMap gap then 1 else 0

/-- `ALIGN` -/
def align (x a : Nat) : Nat := (x + (a - 1)) / a * a

/-- `sctp_tsnmap_grow`, when there is memory; `none` when the gap is too large -/
def sctpTsnmapGrow (gap : Nat) : Option TsnMap :=
  if tsnMapSize ≤ gap then none
  else
    let inc := align (gap - map.len) bitsPerLong + tsnMapIncrement
    some { map with
      tsnMap := bitmapCopy map.tsnMap (map.maxTsnSeen - map.baseTsn)
      len := min ((map.len + inc) % 2 ^ 16) tsnMapSize }

/-- `sctp_tsnmap_update` -/
def sctpTsnmapUpdate : TsnMap :=
  let len := (map.maxTsnSeen - map.cumulativeTsnAckPoint).toNat % 2 ^ 16
  let zeroBit := findFirstZeroBit map.tsnMap len
  if zeroBit = 0 then map
  else { map with
    baseTsn := map.baseTsn + BitVec.ofNat 32 zeroBit
    cumulativeTsnAckPoint := map.cumulativeTsnAckPoint + BitVec.ofNat 32 zeroBit
    tsnMap := bitmapShiftRight map.tsnMap zeroBit map.len }

/-- The number is recorded, once the map is large enough. -/
def recordTsn (tsn : BitVec 32) (gap : Nat) : TsnMap :=
  if !sctpTsnmapHasGap map && gap == 0 then
    { map with
      maxTsnSeen := map.maxTsnSeen + 1
      cumulativeTsnAckPoint := map.cumulativeTsnAckPoint + 1
      baseTsn := map.baseTsn + 1 }
  else
    sctpTsnmapUpdate { map with
      maxTsnSeen := if tsnLt map.maxTsnSeen tsn then tsn else map.maxTsnSeen
      tsnMap := Function.update map.tsnMap gap true }

/-- `sctp_tsnmap_mark`; a map that cannot grow is left as it is (`-ENOMEM`). -/
def sctpTsnmapMark (tsn : BitVec 32) : TsnMap :=
  if tsnLt tsn map.baseTsn then map
  else
    let gap := (tsn - map.baseTsn).toNat % 2 ^ 16
    if map.len ≤ gap then
      match sctpTsnmapGrow map gap with
      | some map => recordTsn map tsn gap
      | none => map
    else recordTsn map tsn gap

/-- `sctp_tsnmap_skip` -/
def sctpTsnmapSkip (tsn : BitVec 32) : TsnMap :=
  if tsnLt tsn map.baseTsn then map
  else if !tsnLt tsn (map.baseTsn + BitVec.ofNat 32 tsnMapSize) then map
  else
    let gap := tsn - map.baseTsn + 1
    let map := { map with
      maxTsnSeen := if tsnLt map.maxTsnSeen tsn then tsn else map.maxTsnSeen
      baseTsn := map.baseTsn + gap
      cumulativeTsnAckPoint := map.cumulativeTsnAckPoint + gap }
    if map.len ≤ gap.toNat then { map with tsnMap := fun _ => false }
    else sctpTsnmapUpdate { map with tsnMap := bitmapShiftRight map.tsnMap gap.toNat map.len }

/-- `sctp_tsnmap_renege` -/
def sctpTsnmapRenege (tsn : BitVec 32) : TsnMap :=
  if tsnLt tsn map.baseTsn then map
  else if !tsnLt tsn (map.baseTsn + BitVec.ofNat 32 map.len) then map
  else { map with tsnMap := Function.update map.tsnMap (tsn - map.baseTsn).toNat false }

/-- A number that is new is marked, a forward TSN is skipped to, and data is reneged. -/
inductive Call where
  | mark (tsn : BitVec 32)
  | skip (tsn : BitVec 32)
  | renege (tsn : BitVec 32)

def perform : Call → TsnMap
  | .mark tsn => if sctpTsnmapCheck map tsn = 0 then sctpTsnmapMark map tsn else map
  | .skip tsn => sctpTsnmapSkip map tsn
  | .renege tsn => sctpTsnmapRenege map tsn

end KernelImx.Sctp
