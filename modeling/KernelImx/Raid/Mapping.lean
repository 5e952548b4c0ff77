/-
**The address mapping of the RAID-4/5/6 driver (`drivers/md/raid5.c`).**

A logical sector is mapped to a disk and a sector of that disk by `raid5ComputeSector`, which also
chooses the disks that hold the parity `P` and, for level 6, the syndrome `Q` of the stripe.
`computeBlocknr` goes the other way: from a stripe and the index of one of its disks to the logical
sector held there. The two are separate case tables over the layouts.

Sectors are `sector_t`, 64 bits wide, and their arithmetic wraps (`wrap`). Disk indices are `int`:
`~0`, the index of no disk, is `-1`.
-/

import Mathlib.Tactic.Ring

namespace KernelImx.Raid

/-! ### Levels and layouts -/

/-- The levels this driver serves. -/
inductive Level where
  | four
  | five
  | six
deriving DecidableEq, Repr

/-- How many disks may be lost: `conf->max_degraded`. -/
def Level.maxDegraded : Level → Nat
  | .six => 2
  | .four | .five => 1

/-- The layouts of `raid5.h`; `ALGORITHM_PARITY_N_6` is `ALGORITHM_PARITY_N` there. -/
inductive Algorithm where
  | leftAsymmetric
  | rightAsymmetric
  | leftSymmetric
  | rightSymmetric
  | parity0
  | parityN
  | rotatingZeroRestart
  | rotatingNRestart
  | rotatingNContinue
  | leftAsymmetric6
  | rightAsymmetric6
  | leftSymmetric6
  | rightSymmetric6
  | parity06
deriving DecidableEq, Repr

/-- The number a layout has in the superblock. -/
def Algorithm.code : Algorithm → Nat
  | .leftAsymmetric => 0
  | .rightAsymmetric => 1
  | .leftSymmetric => 2
  | .rightSymmetric => 3
  | .parity0 => 4
  | .parityN => 5
  | .rotatingZeroRestart => 8
  | .rotatingNRestart => 9
  | .rotatingNContinue => 10
  | .leftAsymmetric6 => 16
  | .rightAsymmetric6 => 17
  | .leftSymmetric6 => 18
  | .rightSymmetric6 => 19
  | .parity06 => 20

/-- `algorithm_valid_raid5`. -/
def algorithmValidRaid5 (layout : Nat) : Bool :=
  layout ≤ 5

/-- `algorithm_valid_raid6`. -/
def algorithmValidRaid6 (layout : Nat) : Bool :=
  layout ≤ 5 || (8 ≤ layout && layout ≤ 10) || (16 ≤ layout && layout ≤ 20)

/-- The layouts an array of a level may be set up with; level 4 never reads its layout. -/
def Level.accepts (level : Level) (algorithm : Algorithm) : Bool :=
  match level with
  | .four => true
  | .five => algorithmValidRaid5 algorithm.code
  | .six => algorithmValidRaid6 algorithm.code

/-- One geometry of an array of a level. -/
structure Geometry (level : Level) where
  algorithm : Algorithm
  chunkSectors : Nat
  raidDisks : Nat
  algorithm_valid : level.accepts algorithm = true
  chunkSectors_pos : 0 < chunkSectors
  maxDegraded_lt : level.maxDegraded < raidDisks

/-- **The configuration** now, and before a reshape (`prev_algo` and so on). -/
structure Conf where
  level : Level
  now : Geometry level
  prev : Geometry level

/-- The geometry a caller asks for by its argument `previous`. -/
def Conf.geometry (conf : Conf) (previous : Bool) : Geometry conf.level :=
  if previous then conf.prev else conf.now

/-- `data_disks`. -/
def Geometry.dataDisks {level : Level} (geometry : Geometry level) : Nat :=
  geometry.raidDisks - level.maxDegraded

/-- A value stored in a `sector_t`. -/
def wrap (value : Int) : Nat :=
  (value % 2 ^ 64).toNat

/-! ### The forward table -/

/-- The disks chosen for one chunk: the data disk, `P`, `Q`, and the order `Q` is computed in. -/
structure Placement where
  ddIdx : Int
  pdIdx : Int
  qdIdx : Int
  ddfLayout : Bool
deriving DecidableEq, Repr

/-- The index of no disk, `~0`. -/
def noDisk : Int := -1

/-- Data in order, stepping over `P`. -/
def besideParity (pdIdx qdIdx ddIdx : Int) : Placement :=
  ⟨if ddIdx ≥ pdIdx then ddIdx + 1 else ddIdx, pdIdx, qdIdx, false⟩

/-- Data in order, stepping over `P` and the `Q` next to it; `Q` is on disk 0 where `P` is last. -/
def besideBoth (raidDisks pdIdx ddIdx : Int) (ddfLayout : Bool) : Placement :=
  if pdIdx = raidDisks - 1 then
    ⟨ddIdx + 1, pdIdx, 0, ddfLayout⟩
  else if ddIdx ≥ pdIdx then
    ⟨ddIdx + 2, pdIdx, pdIdx + 1, ddfLayout⟩
  else
    ⟨ddIdx, pdIdx, pdIdx + 1, ddfLayout⟩

/-- Data going round `disks` disks from the one after `P`. -/
def afterParity (disks pdIdx qdIdx ddIdx : Int) : Placement :=
  ⟨(pdIdx + 1 + ddIdx) % disks, pdIdx, qdIdx, false⟩

/-- Data going round all disks from the one after `Q`, which follows `P`. -/
def afterBoth (raidDisks pdIdx ddIdx : Int) : Placement :=
  ⟨(pdIdx + 2 + ddIdx) % raidDisks, pdIdx, (pdIdx + 1) % raidDisks, false⟩

variable (algorithm : Algorithm)

def placeRaid5 (raidDisks dataDisks stripe : Nat) (ddIdx : Int) : Option Placement :=
  let rem : Int := (stripe % raidDisks : Nat)
  match algorithm with
  | .leftAsymmetric => some (besideParity (dataDisks - rem) noDisk ddIdx)
  | .rightAsymmetric => some (besideParity rem noDisk ddIdx)
  | .leftSymmetric => some (afterParity raidDisks (dataDisks - rem) noDisk ddIdx)
  | .rightSymmetric => some (afterParity raidDisks rem noDisk ddIdx)
  | .parity0 => some ⟨ddIdx + 1, 0, noDisk, false⟩
  | .parityN => some ⟨ddIdx, dataDisks, noDisk, false⟩
  | _ => none

/-- The table for level 6. `ROTATING_N_RESTART` counts from the stripe after this one. -/
def placeRaid6 (raidDisks dataDisks stripe : Nat) (ddIdx : Int) : Option Placement :=
  let rem : Int := (stripe % raidDisks : Nat)
  let remNext : Int := (wrap (stripe + 1) % raidDisks : Nat)
  let remLess : Int := (stripe % (raidDisks - 1) : Nat)
  let last : Int := raidDisks - 1
  match algorithm with
  | .leftAsymmetric => some (besideBoth raidDisks (last - rem) ddIdx false)
  | .rightAsymmetric => some (besideBoth raidDisks rem ddIdx false)
  | .leftSymmetric => some (afterBoth raidDisks (last - rem) ddIdx)
  | .rightSymmetric => some (afterBoth raidDisks rem ddIdx)
  | .parity0 => some ⟨ddIdx + 2, 0, 1, false⟩
  | .parityN => some ⟨ddIdx, dataDisks, dataDisks + 1, false⟩
  | .rotatingZeroRestart => some (besideBoth raidDisks rem ddIdx true)
  | .rotatingNRestart => some (besideBoth raidDisks (last - remNext) ddIdx true)
  | .rotatingNContinue =>
    let pdIdx := last - rem
    some ⟨(pdIdx + 1 + ddIdx) % raidDisks, pdIdx, (pdIdx + raidDisks - 1) % raidDisks, true⟩
  | .leftAsymmetric6 => some (besideParity (dataDisks - remLess) last ddIdx)
  | .rightAsymmetric6 => some (besideParity remLess last ddIdx)
  | .leftSymmetric6 => some (afterParity last (dataDisks - remLess) last ddIdx)
  | .rightSymmetric6 => some (afterParity last remLess last ddIdx)
  | .parity06 => some ⟨ddIdx + 1, 0, last, false⟩

def place (level : Level) (algorithm : Algorithm) (raidDisks dataDisks stripe : Nat)
    (ddIdx : Int) : Option Placement :=
  match level with
  | .four => some ⟨ddIdx, dataDisks, noDisk, false⟩
  | .five => placeRaid5 algorithm raidDisks dataDisks stripe ddIdx
  | .six => placeRaid6 algorithm raidDisks dataDisks stripe ddIdx

/-- What `raid5_compute_sector` returns and writes through its pointers. -/
structure Mapped where
  newSector : Nat
  placement : Placement
deriving DecidableEq, Repr

/-- Undoes the step over `P`. -/
def withoutParity (pdIdx i : Int) : Int :=
  if i > pdIdx then i - 1 else i

/-- Undoes the step over `P` and `Q`. -/
def withoutBoth (raidDisks pdIdx i : Int) : Int :=
  if pdIdx = raidDisks - 1 then i - 1 else if i > pdIdx then i - 2 else i

/-- Undoes going round `disks` disks from the one `skip` after `P`. -/
def unrotate (disks skip pdIdx i : Int) : Int :=
  (if i < pdIdx then i + disks else i) - (pdIdx + skip)

def dataIndexRaid5 (raidDisks pdIdx i : Int) : Option Int :=
  match algorithm with
  | .leftAsymmetric | .rightAsymmetric => some (withoutParity pdIdx i)
  | .leftSymmetric | .rightSymmetric => some (unrotate raidDisks 1 pdIdx i)
  | .parity0 => some (i - 1)
  | .parityN => some i
  | _ => none

def dataIndexRaid6 (raidDisks dataDisks pdIdx i : Int) : Option Int :=
  match algorithm with
  | .leftAsymmetric | .rightAsymmetric | .rotatingZeroRestart | .rotatingNRestart =>
    some (withoutBoth raidDisks pdIdx i)
  | .leftSymmetric | .rightSymmetric =>
    some (if pdIdx = raidDisks - 1 then i - 1 else unrotate raidDisks 2 pdIdx i)
  | .parity0 => some (i - 2)
  | .parityN => some i
  | .rotatingNContinue =>
    some (if pdIdx = 0 then i - 1 else unrotate raidDisks 1 pdIdx i)
  | .leftAsymmetric6 | .rightAsymmetric6 => some (withoutParity pdIdx i)
  | .leftSymmetric6 | .rightSymmetric6 => some (unrotate (dataDisks + 1) 1 pdIdx i)
  | .parity06 => some (i - 1)

def dataIndex (level : Level) (algorithm : Algorithm) (raidDisks dataDisks pdIdx i : Int) :
    Option Int :=
  match level with
  | .four => some i
  | .five => dataIndexRaid5 algorithm raidDisks pdIdx i
  | .six => dataIndexRaid6 algorithm raidDisks dataDisks pdIdx i

end KernelImx.Raid
