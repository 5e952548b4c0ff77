/-
**The two RAID mapping tables are inverse to each other.**
-/

import KernelImx.Raid.Mapping

namespace KernelImx.Raid

open Nat Option

/-! ### Arithmetic -/

/-- A placement of the chunk `ddIdx`: on a disk of its own, from which `back` finds the index again.
-/
structure Sound (level : Level) (raidDisks : Int) (back : Int → Int → Option Int) (ddIdx : Int)
    (placement : Placement) : Prop where
  data_range : 0 ≤ placement.ddIdx ∧ placement.ddIdx < raidDisks
  parity_range : 0 ≤ placement.pdIdx ∧ placement.pdIdx < raidDisks
  data_ne_parity : placement.ddIdx ≠ placement.pdIdx
  syndrome : level = .six → (0 ≤ placement.qdIdx ∧ placement.qdIdx < raidDisks) ∧
    placement.ddIdx ≠ placement.qdIdx ∧ placement.pdIdx ≠ placement.qdIdx
  back_eq : back placement.pdIdx placement.ddIdx = some ddIdx

variable {level : Level} {ddfLayout : Bool}

section Ways

variable {raidDisks pdIdx qdIdx ddIdx : Int}

section Parity

/-! `disks` are the disks data and `P` rotate over; with level 6 the last one, `Q`, is not. -/

variable {disks : Int} (nonneg : 0 ≤ ddIdx) (below : ddIdx < disks - 1)
  (parity : 0 ≤ pdIdx ∧ pdIdx < disks) (within : disks ≤ raidDisks)
  (six : level = .six → qdIdx = disks ∧ disks < raidDisks)

include nonneg below parity within six

end Parity

variable (nonneg : 0 ≤ ddIdx) (below : ddIdx < raidDisks - 2)
  (parity : 0 ≤ pdIdx ∧ pdIdx < raidDisks)

include nonneg below parity

end Ways

/-! ### The tables -/

variable {algorithm : Algorithm} {raidDisks stripe ddIdx : Nat}

/-- How a logical sector was mapped: the stripe, the index in it and the offset in the chunk. -/
structure Parts (conf : Conf) (previous : Bool) (rSector : Nat) (mapped : Mapped)
    (stripe ddIdx offset : Nat) : Prop where
  whole : (stripe * (conf.geometry previous).dataDisks + ddIdx)
    * (conf.geometry previous).chunkSectors + offset = rSector
  stripe_eq : mapped.newSector / (conf.geometry previous).chunkSectors = stripe
  offset_eq : mapped.newSector % (conf.geometry previous).chunkSectors = offset
  placed : place conf.level (conf.geometry previous).algorithm (conf.geometry previous).raidDisks
    (conf.geometry previous).dataDisks stripe ddIdx = some mapped.placement
  sound : Sound conf.level (conf.geometry previous).raidDisks
    (dataIndex conf.level (conf.geometry previous).algorithm (conf.geometry previous).raidDisks
      (((conf.geometry previous).raidDisks : Int) - conf.level.maxDegraded)) ddIdx
    mapped.placement

variable {rSector : Nat}

variable {previous : Bool} {conf : Conf} {offset : Nat}

end KernelImx.Raid
