/-
**The map of TSNs against the set of received numbers.**

Numbers count from the initial TSN without wrapping, and `Ledger` is the set of those that were
received or skipped. The map stands for it as long as no received number is lost when the bitmap grows.

Main result: `tsnmap_tracks_iff`.
-/

import Mathlib.Order.Lattice.Nat
import KernelImx.Lib.Runs
import KernelImx.Sctp.TsnMap

namespace KernelImx.Sctp

open KernelImx.Lib Nat List Function
open Bool hiding and_false and_true

/-! ### The ledger -/

/-- The numbers that were received or skipped, counted from the initial TSN. -/
abbrev Ledger := Set Nat

noncomputable def firstMissing (received : Ledger) : Nat := sInf receivedᶜ

def tsnOf (initial : BitVec 32) (number : Nat) : BitVec 32 := initial + BitVec.ofNat 32 number

/-- How far a TSN is ahead of the prefix, as a serial number. -/
noncomputable def ahead (initial : BitVec 32) (received : Ledger) (tsn : BitVec 32) : Nat :=
  (tsn - tsnOf initial (firstMissing received)).toNat

open Classical in
/-- What a call does: numbers ahead of the prefix are received or reneged, and a skip receives all
up to its own. -/
noncomputable def note (initial : BitVec 32) (received : Ledger) : Call → Ledger
  | .mark tsn =>
    if ahead initial received tsn < tsnMapSize then
      insert (firstMissing received + ahead initial received tsn) received
    else received
  | .skip tsn =>
    if ahead initial received tsn < tsnMapSize then
      received ∪ Set.Iic (firstMissing received + ahead initial received tsn)
    else received
  | .renege tsn =>
    if ahead initial received tsn < 2 ^ 31 then
      received \ {firstMissing received + ahead initial received tsn}
    else received

/-- **The map says what the ledger does**: which numbers are duplicates, and where the prefix ends. -/
structure Tracks (initial : BitVec 32) (map : TsnMap) (received : Ledger) : Prop where
  duplicate : ∀ tsn, 0 < sctpTsnmapCheck map tsn ↔ tsnLte tsn map.cumulativeTsnAckPoint = true ∨
    ∃ number ∈ received, firstMissing received ≤ number ∧ tsn = tsnOf initial number
  ackPoint : map.cumulativeTsnAckPoint = tsnOf initial (firstMissing received) - 1

theorem firstMissing_eq {received : Ledger} {b : Nat} (below : ∀ n < b, n ∈ received)
    (missing : b ∉ received) : firstMissing received = b := by
  have least : b ∈ receivedᶜ := missing
  refine le_antisymm (Nat.sInf_le least) ?_
  by_contra less
  exact sInf_mem ⟨b, least⟩ (below _ (Nat.lt_of_not_le less))

/-! ### Serial numbers -/

section Serial

variable {base tsn : BitVec 32} {d m : Nat}

theorem tsnLt_iff (s t : BitVec 32) : tsnLt s t = true ↔ 2 ^ 31 ≤ (s - t).toNat := by
  rw [tsnLt, BitVec.msb_eq_decide, decide_eq_true_eq]

section

variable (gap : (tsn - base).toNat = d)

include gap

theorem tsnLt_base : tsnLt tsn base = true ↔ 2 ^ 31 ≤ d := by
  rw [tsnLt_iff, gap]

theorem tsnLt_limit (size : m ≤ 2 ^ 16) (near : d < 2 ^ 31) :
    tsnLt tsn (base + BitVec.ofNat 32 m) = true ↔ d < m := by
  rw [tsnLt_iff]
  bv_omega

theorem tsnLte_ackPoint : tsnLte tsn (base - 1) = true ↔ 2 ^ 31 ≤ d + 1 := by
  rw [tsnLte, or_eq_true, beq_iff_eq, ← tsnLt, tsnLt_iff]
  bv_omega

theorem tsnLt_max (near : d < 2 ^ 16) (size : m ≤ 2 ^ 16) :
    tsnLt (base - 1 + BitVec.ofNat 32 m) tsn = true ↔ m ≤ d := by
  rw [tsnLt_iff]
  bv_omega

end

end Serial

/-! ### The map stands for the ledger -/

/-- The map stands for the ledger: everything before `b` is received, and nothing from `b + m` on.
-/
structure Stands (initial : BitVec 32) (map : TsnMap) (received : Ledger) (b m : Nat) : Prop where
  base : map.baseTsn = tsnOf initial b
  ackPoint : map.cumulativeTsnAckPoint = map.baseTsn - 1
  highest : map.maxTsnSeen = map.baseTsn - 1 + BitVec.ofNat 32 m
  room : m ≤ map.len
  pos : 0 < map.len
  size : map.len ≤ tsnMapSize
  words : bitsPerLong ∣ map.len
  below : ∀ n < b, n ∈ received
  bits : ∀ i, map.tsnMap i = true ↔ b + i ∈ received
  above : ∀ n ∈ received, n < b + m

section Stands

variable {initial tsn : BitVec 32} {map : TsnMap} {received : Ledger} {b m d : Nat}

theorem stands_init (initial : BitVec 32) : Stands initial (sctpTsnmapInit initial) ∅ 0 0 where
  base := (BitVec.add_zero initial).symm
  ackPoint := rfl
  highest := (BitVec.add_zero _).symm
  room := zero_le _
  pos := (by decide : 0 < tsnMapInitial)
  size := (by decide : tsnMapInitial ≤ tsnMapSize)
  words := dvd_refl _
  below := nofun
  bits := by simp [sctpTsnmapInit]
  above := nofun

section

variable (stands : Stands initial map received b m)

include stands

theorem Stands.tsnOf_sub (near : d < 2 ^ 32) : (tsnOf initial (b + d) - map.baseTsn).toNat = d := by
  rw [stands.base, tsnOf, tsnOf]
  bv_omega

theorem Stands.eq_tsnOf (gap : (tsn - map.baseTsn).toNat = d) : tsn = tsnOf initial (b + d) := by
  rw [stands.base, tsnOf] at gap
  rw [tsnOf]
  bv_omega

theorem Stands.bit_lt {i : Nat} (set : map.tsnMap i = true) : i < m := by
  have := stands.above _ ((stands.bits i).mp set)
  omega

end

theorem sctpTsnmapCheck_eq {gap : Nat} (ackPoint : map.cumulativeTsnAckPoint = map.baseTsn - 1)
    (gapIs : (tsn - map.baseTsn).toNat = gap) : sctpTsnmapCheck map tsn =
      if 2 ^ 31 ≤ gap + 1 then 1 else if tsnMapSize ≤ gap then -1
      else if gap < map.len ∧ map.tsnMap gap then 1 else 0 := by
  unfold sctpTsnmapCheck
  rw [ackPoint]
  by_cases old : 2 ^ 31 ≤ gap + 1
  · rw [if_pos ((tsnLte_ackPoint gapIs).mpr old), if_pos old]
  rw [if_neg (mt (tsnLte_ackPoint gapIs).mp old), if_neg old]
  have limit := @tsnLt_limit map.baseTsn tsn gap tsnMapSize gapIs (by decide) (by omega)
  by_cases large : tsnMapSize ≤ gap
  · have : tsnLt tsn (map.baseTsn + BitVec.ofNat 32 tsnMapSize) = false := by
      rw [← not_eq_true, limit]
      omega
    rw [this, if_pos large]
    rfl
  · rw [limit.mpr (by omega), if_neg large, gapIs]
    rfl

theorem Stands.bit_inside (stands : Stands initial map received b m) {i : Nat} :
    (i < map.len ∧ map.tsnMap i = true) ↔ map.tsnMap i = true :=
  ⟨And.right, fun set => ⟨lt_of_lt_of_le (stands.bit_lt set) stands.room, set⟩⟩

/-- **A map that stands for the ledger up to the first missing number says what the ledger does.** -/
theorem Stands.tracks (stands : Stands initial map received b m) (missing : b ∉ received) :
    Tracks initial map received := by
  have first := firstMissing_eq stands.below missing
  have window : m ≤ 4096 := le_trans stands.room stands.size
  refine ⟨fun tsn => ?_, ?_⟩
  · obtain ⟨gap, gapIs⟩ : ∃ gap, (tsn - map.baseTsn).toNat = gap := ⟨_, rfl⟩
    rw [sctpTsnmapCheck_eq stands.ackPoint gapIs, stands.ackPoint, tsnLte_ackPoint gapIs, first,
      if_congr stands.bit_inside rfl rfl]
    have number : (∃ number ∈ received, b ≤ number ∧ tsn = tsnOf initial number) ↔
        map.tsnMap gap = true := by
      rw [stands.bits]
      constructor
      · rintro ⟨number, inside, lower, rfl⟩
        obtain ⟨i, rfl⟩ := Nat.exists_eq_add_of_le lower
        have := stands.above _ inside
        rw [stands.tsnOf_sub (by omega)] at gapIs
        rwa [← gapIs]
      · exact fun inside => ⟨b + gap, inside, le_add_right _ _, stands.eq_tsnOf gapIs⟩
    rw [number]
    have inside : map.tsnMap gap = true → gap < 4096 := fun set =>
      lt_of_lt_of_le (stands.bit_lt set) window
    unfold tsnMapSize
    split_ifs with old large set
    · exact iff_of_true (by decide) (.inl old)
    · exact iff_of_false (by decide) (not_or.mpr ⟨old, fun set => absurd (inside set) (by omega)⟩)
    · exact iff_of_true (by decide) (.inr set)
    · exact iff_of_false (by decide) (not_or.mpr ⟨old, set⟩)
  · rw [stands.ackPoint, first, stands.base]

theorem findFirstZeroBit_spec (bits : Bitmap) (size : Nat) :
    findFirstZeroBit bits size ≤ size ∧ (∀ i < findFirstZeroBit bits size, bits i = true) ∧
      (findFirstZeroBit bits size < size → bits (findFirstZeroBit bits size) = false) := by
  unfold findFirstZeroBit
  cases found : (range size).find? fun i => !bits i with
  | none =>
    have all := find?_eq_none.mp found
    refine ⟨le_rfl, fun i less => ?_, fun less => absurd less (lt_irrefl _)⟩
    simpa using all i (mem_range.mpr less)
  | some z =>
    obtain ⟨zero, inside, before⟩ := find?_range_eq_some.mp found
    rw [mem_range] at inside
    refine ⟨le_of_lt inside, fun i less => ?_, fun _ => ?_⟩
    · simpa using before i less
    · simpa using zero

theorem sctpTsnmapUpdate_of_zero (zero : map.tsnMap 0 = false) : sctpTsnmapUpdate map = map := by
  refine if_pos ?_
  by_contra some
  have := (findFirstZeroBit_spec map.tsnMap _).2.1 0 (pos_of_ne_zero some)
  rw [zero] at this
  cases this

section

variable (stands : Stands initial map received b m)

include stands

theorem Stands.slide {z : Nat} (fits : z ≤ m) (prior : ∀ i < z, b + i ∈ received) :
    Stands initial { map with
      baseTsn := map.baseTsn + BitVec.ofNat 32 z
      cumulativeTsnAckPoint := map.cumulativeTsnAckPoint + BitVec.ofNat 32 z
      tsnMap := bitmapShiftRight map.tsnMap z map.len } received (b + z) (m - z) where
  base := by
    rw [stands.base, tsnOf, tsnOf]
    bv_omega
  ackPoint := by
    rw [stands.ackPoint]
    bv_omega
  highest := by
    rw [stands.highest]
    bv_omega
  room := le_trans (sub_le _ _) stands.room
  pos := stands.pos
  size := stands.size
  words := stands.words
  below := by
    intro n less
    by_cases old : n < b
    · exact stands.below n old
    · have := prior (n - b) (by omega)
      rwa [Nat.add_sub_cancel' (Nat.le_of_not_lt old)] at this
  bits := by
    intro i
    have shifted : b + z + i = b + (i + z) := by omega
    simp only [bitmapShiftRight, and_eq_true, decide_eq_true_eq]
    rw [shifted, ← stands.bits]
    exact stands.bit_inside
  above := by
    intro n inside
    have := stands.above n inside
    omega

/-- **`sctp_tsnmap_update` moves the base to the first missing number.** -/
theorem sctpTsnmapUpdate_stands :
    ∃ b' m', Stands initial (sctpTsnmapUpdate map) received b' m' ∧ b' ∉ received := by
  have window : m ≤ 4096 := le_trans stands.room stands.size
  have len : (map.maxTsnSeen - map.cumulativeTsnAckPoint).toNat % 2 ^ 16 = m := by
    rw [stands.highest, stands.ackPoint]
    have : (map.baseTsn - 1 + BitVec.ofNat 32 m - (map.baseTsn - 1)).toNat = m := by bv_omega
    omega
  obtain ⟨fits, ones, zero⟩ := findFirstZeroBit_spec map.tsnMap m
  have missing : b + findFirstZeroBit map.tsnMap m ∉ received := by
    intro inside
    have := stands.above _ inside
    have := zero (by omega)
    rw [(stands.bits _).mpr inside] at this
    cases this
  unfold sctpTsnmapUpdate
  rw [len]
  dsimp only
  split
  next none =>
    rw [none] at missing
    exact ⟨b, m, stands, missing⟩
  · exact ⟨_, _, stands.slide fits fun i less => (stands.bits i).mp (ones i less), missing⟩

/-! ### The calls -/

/-- The highest number seen begins a word of the bitmap, and was received. -/
def LastBeginsWord (map : TsnMap) : Prop :=
  bitsPerLong ∣ (map.maxTsnSeen - map.baseTsn).toNat ∧
    map.tsnMap (map.maxTsnSeen - map.baseTsn).toNat = true

theorem Stands.max_sub :
    (map.maxTsnSeen - map.baseTsn).toNat = if m = 0 then 2 ^ 32 - 1 else m - 1 := by
  have : m ≤ 4096 := le_trans stands.room stands.size
  rw [stands.highest]
  split
  · bv_omega
  · bv_omega

/-- The part of the bitmap that is copied: up to the word of the last number before the highest. -/
theorem bitmapCopy_last {i : Nat} (set : map.tsnMap i = true) :
    bitmapCopy map.tsnMap (map.maxTsnSeen - map.baseTsn) i = true ↔
      i + 1 < m ∨ ¬ bitsPerLong ∣ i := by
  have inside := stands.bit_lt set
  have window : m ≤ 4096 := le_trans stands.room stands.size
  have last := stands.max_sub
  rw [if_neg (by omega)] at last
  have words : bitsToLongs (map.maxTsnSeen - map.baseTsn) = (m - 1 + 31) / 32 := by
    unfold bitsToLongs bitsPerLong
    congr 1
    bv_omega
  simp only [bitmapCopy, words, set, Bool.and_true, decide_eq_true_eq, bitsPerLong]
  omega

end

theorem align_spec (x : Nat) : x ≤ align x bitsPerLong ∧ align x bitsPerLong < x + bitsPerLong ∧
    bitsPerLong ∣ align x bitsPerLong := by
  unfold align bitsPerLong
  omega

variable (stands : Stands initial map received b m)

include stands

theorem sctpTsnmapGrow_spec (short : map.len ≤ d) (fits : d < tsnMapSize) :
    ∃ len, sctpTsnmapGrow map d = some { map with
      tsnMap := bitmapCopy map.tsnMap (map.maxTsnSeen - map.baseTsn), len := len } ∧
      d < len ∧ len ≤ tsnMapSize ∧ bitsPerLong ∣ len := by
  obtain ⟨lower, upper, words⟩ := align_spec (d - map.len)
  have old := stands.words
  unfold sctpTsnmapGrow
  rw [if_neg (not_le.mpr fits)]
  refine ⟨_, rfl, ?_⟩
  unfold tsnMapIncrement tsnMapInitial tsnMapSize bitsPerLong at *
  omega

/-- **Growing keeps the map, unless the highest number begins a word.** -/
theorem sctpTsnmapGrow_keeps (short : map.len ≤ d) (fits : d < tsnMapSize)
    (kept : ¬ LastBeginsWord map) :
    ∃ grown, sctpTsnmapGrow map d = some grown ∧ Stands initial grown received b m ∧
      grown.baseTsn = map.baseTsn ∧ d < grown.len := by
  obtain ⟨len, grows, longer, size, words⟩ := sctpTsnmapGrow_spec stands short fits
  refine ⟨_, grows, ⟨stands.base, stands.ackPoint, stands.highest, ?_, ?_, size, words, stands.below, ?_,
    stands.above⟩, rfl, longer⟩
  · exact le_trans stands.room (le_trans short (le_of_lt longer))
  · exact lt_of_le_of_lt (zero_le _) longer
  intro i
  rw [← stands.bits]
  constructor
  · intro copied
    simp only [bitmapCopy, and_eq_true] at copied
    exact copied.2
  intro set
  have inside := stands.bit_lt set
  refine (bitmapCopy_last stands set).mpr ?_
  by_contra lost
  refine kept ?_
  rw [LastBeginsWord, stands.max_sub, if_neg (by omega), show m - 1 = i by omega]
  exact ⟨by omega, set⟩

section

variable (gap : (tsn - map.baseTsn).toNat = d)

include gap

theorem Stands.raise_max (near : d < tsnMapSize) :
    (if tsnLt map.maxTsnSeen tsn then tsn else map.maxTsnSeen) =
      map.baseTsn - 1 + BitVec.ofNat 32 (max m (d + 1)) := by
  have window : m ≤ 4096 := le_trans stands.room stands.size
  unfold tsnMapSize at near
  have behind := @tsnLt_max map.baseTsn tsn d m gap (by omega) (by omega)
  rw [← stands.highest] at behind
  by_cases higher : m ≤ d
  · rw [if_pos (behind.mpr higher), max_eq_right (by omega)]
    bv_omega
  · rw [if_neg (mt behind.mp higher), max_eq_left (by omega), stands.highest]

theorem recordTsn_stands (inside : d < map.len) :
    ∃ b' m', Stands initial (recordTsn map tsn d) (insert (b + d) received) b' m' ∧
      b' ∉ insert (b + d) received := by
  have filled : Stands initial { map with
      maxTsnSeen := if tsnLt map.maxTsnSeen tsn then tsn else map.maxTsnSeen
      tsnMap := update map.tsnMap d true } (insert (b + d) received) b (max m (d + 1)) := by
    refine ⟨stands.base, stands.ackPoint, stands.raise_max gap (lt_of_lt_of_le inside stands.size),
      Nat.max_le.mpr ⟨stands.room, inside⟩, stands.pos, stands.size, stands.words,
      fun n less => Set.mem_insert_of_mem _ (stands.below n less), ?_, ?_⟩
    · intro i
      by_cases here : i = d
      · subst here
        simp
      · simp only [update_of_ne here, stands.bits, Set.mem_insert_iff]
        exact ⟨.inr, fun either => either.resolve_left (by omega)⟩
    · rintro n (rfl | old)
      · omega
      · have := stands.above n old
        omega
  unfold recordTsn
  split
  next next =>
    simp only [and_eq_true, not_eq_true', beq_iff_eq, sctpTsnmapHasGap,
      bne_eq_false_iff_eq] at next
    obtain ⟨noGap, rfl⟩ := next
    -- the ack point is the highest number seen, so that nothing is ahead of it
    have none : m = 0 := by
      have window : map.len ≤ 4096 := stands.size
      have room := stands.room
      rw [stands.ackPoint, stands.highest] at noGap
      bv_omega
    subst none
    have slid := filled.slide (z := 1) le_rfl fun i less => .inl (by omega)
    have bits : bitmapShiftRight (update map.tsnMap 0 true) 1 map.len = map.tsnMap := by
      funext i
      have unset : ∀ i, map.tsnMap i = false := fun i => eq_false_iff.mpr fun set =>
        absurd (stands.bit_lt set) (not_lt_zero _)
      simp [bitmapShiftRight, unset]
    have highest : (if tsnLt map.maxTsnSeen tsn then tsn else map.maxTsnSeen) = map.maxTsnSeen + 1 := by
      rw [stands.raise_max gap (by decide), stands.highest]
      bv_omega
    simp only [bits, highest] at slid
    exact ⟨_, _, slid, fun inside => absurd (slid.above _ inside) (lt_irrefl _)⟩
  · exact sctpTsnmapUpdate_stands filled

/-- **A mark of a new number**, unless it loses one. -/
theorem sctpTsnmapMark_stands (fits : d < tsnMapSize) (kept : map.len ≤ d → ¬ LastBeginsWord map) :
    ∃ b' m', Stands initial (sctpTsnmapMark map tsn) (insert (b + d) received) b' m' ∧
      b' ∉ insert (b + d) received := by
  have : d < 4096 := fits
  unfold sctpTsnmapMark
  rw [if_neg (by rw [tsnLt_base gap]; omega), gap, mod_eq_of_lt (by omega)]
  dsimp only
  split
  next short =>
    obtain ⟨grown, grows, stands', sameBase, longer⟩ :=
      sctpTsnmapGrow_keeps stands short fits (kept short)
    rw [grows]
    exact recordTsn_stands stands' (by rw [sameBase, gap]) longer
  next long => exact recordTsn_stands stands gap (Nat.lt_of_not_le long)

theorem sctpTsnmapSkip_stands (fits : d < tsnMapSize) :
    ∃ b' m', Stands initial (sctpTsnmapSkip map tsn) (received ∪ Set.Iic (b + d)) b' m' ∧
      b' ∉ received ∪ Set.Iic (b + d) := by
  have near : d < 4096 := fits
  have room := stands.room
  have toNat : (tsn - map.baseTsn + 1).toNat = d + 1 := by bv_omega
  have ofNat : tsn - map.baseTsn + 1 = BitVec.ofNat 32 (d + 1) := by
    rw [← toNat, BitVec.ofNat_toNat, BitVec.setWidth_eq]
  have raised := stands.raise_max gap fits
  have limit := @tsnLt_limit map.baseTsn tsn d tsnMapSize gap (by decide) (by omega)
  have below : ∀ n < b + (d + 1), n ∈ received ∪ Set.Iic (b + d) := fun n less =>
    .inr (show n ≤ b + d by omega)
  have above : ∀ n ∈ received ∪ Set.Iic (b + d), n < b + max m (d + 1) := by
    rintro n (old | new)
    · have := stands.above n old
      omega
    · have : n ≤ b + d := new
      omega
  unfold sctpTsnmapSkip
  rw [if_neg (by rw [tsnLt_base gap]; omega), if_neg (by simp [limit.mpr fits])]
  dsimp only
  rw [raised, toNat]
  split
  next short =>
    refine ⟨b + (d + 1), 0, ⟨?_, ?_, ?_, zero_le _, stands.pos, stands.size, stands.words, below,
      ?_, ?_⟩, ?_⟩
    · rw [ofNat, stands.base, tsnOf, tsnOf]
      bv_omega
    · rw [stands.ackPoint]
      bv_omega
    · bv_omega
    · intro i
      simp only [false_eq_true, false_iff]
      intro inside
      have := above _ inside
      omega
    · intro n inside
      have := above n inside
      omega
    · intro inside
      have := above _ inside
      omega
  next long =>
    -- before the map slides, all numbers up to the skipped one are received
    have filled : Stands initial { map with
        maxTsnSeen := map.baseTsn - 1 + BitVec.ofNat 32 (max m (d + 1))
        tsnMap := fun i => map.tsnMap i || decide (i < d + 1) } (received ∪ Set.Iic (b + d)) b
        (max m (d + 1)) := by
      refine ⟨stands.base, stands.ackPoint, rfl, ?_, stands.pos, stands.size, stands.words,
        fun n less => .inl (stands.below n less), ?_, above⟩
      · dsimp only
        omega
      · intro i
        simp only [or_eq_true, stands.bits, decide_eq_true_eq, Set.mem_union, Set.mem_Iic]
        exact or_congr Iff.rfl (by omega)
    have slid := filled.slide (z := d + 1) (le_max_right _ _) fun i less => below _ (by omega)
    have same : bitmapShiftRight (fun i => map.tsnMap i || decide (i < d + 1)) (d + 1) map.len =
        bitmapShiftRight map.tsnMap (d + 1) map.len := by
      funext i
      have : ¬ i + (d + 1) < d + 1 := by omega
      simp [bitmapShiftRight, this]
    rw [same, ← ofNat] at slid
    exact sctpTsnmapUpdate_stands slid

theorem sctpTsnmapRenege_stands (near : d < 2 ^ 31) :
    Stands initial (sctpTsnmapRenege map tsn) (received \ {b + d}) b m := by
  have window : map.len ≤ 4096 := stands.size
  have limit := @tsnLt_limit map.baseTsn tsn d map.len gap (by omega) near
  have below : ∀ n < b, n ∈ received \ {b + d} := fun n less =>
    ⟨stands.below n less, fun same => by
      have : n = b + d := same
      omega⟩
  unfold sctpTsnmapRenege
  rw [if_neg (by rw [tsnLt_base gap]; omega)]
  by_cases inside : d < map.len
  · rw [if_neg (by simp [limit.mpr inside]), gap]
    refine { stands with
      below, bits := fun i => ?_, above := fun n member => stands.above n member.1 }
    by_cases here : i = d
    · subst here
      simp
    · simp [stands.bits, here]
  have outside : tsnLt tsn (map.baseTsn + BitVec.ofNat 32 map.len) = false := by
    rw [← not_eq_true, limit]
    exact inside
  rw [if_pos (by simp [outside])]
  have absent : received \ {b + d} = received := by
    refine Set.sdiff_singleton_eq_self fun member => ?_
    have := stands.above _ member
    have := stands.room
    omega
  rw [absent]
  exact stands

end

/-- **Growing loses the highest number when it begins a word.** -/
theorem mark_loses (missing : b ∉ received) (gap : (tsn - map.baseTsn).toNat = d)
    (short : map.len ≤ d) (fits : d < tsnMapSize) (lost : LastBeginsWord map) :
    ¬ Tracks initial (sctpTsnmapMark map tsn) (insert (b + d) received) := by
  have near : d < 4096 := fits
  have room := stands.room
  obtain ⟨begins, set⟩ := lost
  have last := stands.max_sub
  have some : m ≠ 0 := by
    rintro rfl
    rw [last, if_pos rfl, bitsPerLong] at begins
    omega
  rw [if_neg some] at last
  rw [last] at begins set
  obtain ⟨len, grows, longer, size, -⟩ := sctpTsnmapGrow_spec stands short fits
  -- the base does not move, since its number is still missing
  have unset : bitmapCopy map.tsnMap (map.maxTsnSeen - map.baseTsn) 0 = false := by
    have : map.tsnMap 0 = false := by
      rw [← not_eq_true, stands.bits]
      exact missing
    rw [bitmapCopy, this, Bool.and_false]
  obtain ⟨ackPoint, base, bit⟩ :
      (sctpTsnmapMark map tsn).cumulativeTsnAckPoint = (sctpTsnmapMark map tsn).baseTsn - 1 ∧
      (sctpTsnmapMark map tsn).baseTsn = map.baseTsn ∧
      (sctpTsnmapMark map tsn).tsnMap (m - 1) = false := by
    unfold sctpTsnmapMark
    rw [if_neg (by rw [tsnLt_base gap]; omega), gap, mod_eq_of_lt (by omega)]
    rw [if_pos short, grows]
    dsimp only
    unfold recordTsn
    rw [if_neg (by simp; omega)]
    rw [sctpTsnmapUpdate_of_zero (by dsimp only; rwa [update_of_ne (by omega)])]
    refine ⟨stands.ackPoint, rfl, ?_⟩
    dsimp only
    rw [update_of_ne (by omega), ← not_eq_true, bitmapCopy_last stands set]
    rintro (less | not)
    · omega
    · exact not begins
  intro tracks
  have first : firstMissing (insert (b + d) received) = b := by
    refine firstMissing_eq (fun n less => Set.mem_insert_of_mem _ (stands.below n less)) ?_
    rintro (same | old)
    · omega
    · exact missing old
  have gap' : (tsnOf initial (b + (m - 1)) - (sctpTsnmapMark map tsn).baseTsn).toNat = m - 1 := by
    rw [base]
    exact stands.tsnOf_sub (by omega)
  have duplicate := (tracks.duplicate (tsnOf initial (b + (m - 1)))).mpr (.inr ⟨b + (m - 1),
    Set.mem_insert_of_mem _ ((stands.bits _).mp set), by rw [first]; exact le_add_right _ _, rfl⟩)
  rw [sctpTsnmapCheck_eq ackPoint gap', if_neg (by omega), if_neg (by unfold tsnMapSize; omega), bit]
    at duplicate
  simp at duplicate

end Stands

/-! ### All calls -/

/-- A call on the map, and on the ledger. -/
noncomputable def stepBoth (initial : BitVec 32) (state : TsnMap × Ledger) (call : Call) :
    Option (TsnMap × Ledger) :=
  some (perform state.1 call, note initial state.2 call)

/-- The call does not lose a number: the bitmap does not grow while the highest number begins a
word. -/
def LosesNone (state : TsnMap × Ledger) : Call → Prop
  | .mark tsn => ¬ (sctpTsnmapCheck state.1 tsn = 0 ∧
      state.1.len ≤ (tsn - state.1.baseTsn).toNat ∧ LastBeginsWord state.1)
  | _ => True

section Steps

variable {initial : BitVec 32} {map : TsnMap} {received : Ledger} {b m : Nat}
  (stands : Stands initial map received b m)

include stands

theorem Stands.ahead_eq (missing : b ∉ received) (tsn : BitVec 32) :
    ahead initial received tsn = (tsn - map.baseTsn).toNat := by
  rw [ahead, firstMissing_eq stands.below missing, stands.base]

theorem check_eq_zero_iff {tsn : BitVec 32} {d : Nat} (gap : (tsn - map.baseTsn).toNat = d) :
    sctpTsnmapCheck map tsn = 0 ↔ d < tsnMapSize ∧ b + d ∉ received := by
  rw [sctpTsnmapCheck_eq stands.ackPoint gap, if_congr stands.bit_inside rfl rfl, ← stands.bits]
  unfold tsnMapSize
  split_ifs with old large set
  · exact iff_of_false (by decide) fun both => absurd both.1 (by omega)
  · exact iff_of_false (by decide) fun both => absurd both.1 (not_lt.mpr large)
  · exact iff_of_false (by decide) fun both => both.2 set
  · exact iff_of_true rfl ⟨Nat.lt_of_not_le large, set⟩

/-- **A call that loses no number keeps the map and the ledger together.** -/
theorem perform_stands (missing : b ∉ received) (call : Call)
    (kept : LosesNone (map, received) call) :
    ∃ b' m', Stands initial (perform map call) (note initial received call) b' m' ∧
      b' ∉ note initial received call := by
  have first := firstMissing_eq stands.below missing
  cases call with
  | mark tsn =>
    obtain ⟨d, gap⟩ : ∃ d, (tsn - map.baseTsn).toNat = d := ⟨_, rfl⟩
    have new := check_eq_zero_iff stands gap
    simp only [perform, note, stands.ahead_eq missing, first, gap]
    by_cases fits : d < tsnMapSize
    · rw [if_pos fits]
      by_cases old : b + d ∈ received
      · rw [if_neg fun zero => (new.mp zero).2 old, Set.insert_eq_of_mem old]
        exact ⟨b, m, stands, missing⟩
      · have zero := new.mpr ⟨fits, old⟩
        rw [if_pos zero]
        refine sctpTsnmapMark_stands stands gap fits fun short lost => kept ⟨zero, ?_, lost⟩
        rwa [gap]
    · rw [if_neg fits, if_neg fun zero => fits (new.mp zero).1]
      exact ⟨b, m, stands, missing⟩
  | skip tsn =>
    obtain ⟨d, gap⟩ : ∃ d, (tsn - map.baseTsn).toNat = d := ⟨_, rfl⟩
    simp only [perform, note, stands.ahead_eq missing, first, gap]
    by_cases fits : d < tsnMapSize
    · rw [if_pos fits]
      exact sctpTsnmapSkip_stands stands gap fits
    have unchanged : sctpTsnmapSkip map tsn = map := by
      unfold sctpTsnmapSkip
      by_cases old : 2 ^ 31 ≤ d
      · rw [if_pos ((tsnLt_base gap).mpr old)]
      · have limit := @tsnLt_limit map.baseTsn tsn d tsnMapSize gap (by decide) (by omega)
        rw [if_neg (mt (tsnLt_base gap).mp old), if_pos (by simp [mt limit.mp fits])]
    rw [if_neg fits, unchanged]
    exact ⟨b, m, stands, missing⟩
  | renege tsn =>
    obtain ⟨d, gap⟩ : ∃ d, (tsn - map.baseTsn).toNat = d := ⟨_, rfl⟩
    simp only [perform, note, stands.ahead_eq missing, first, gap]
    by_cases near : d < 2 ^ 31
    · rw [if_pos near]
      exact ⟨b, m, sctpTsnmapRenege_stands stands gap near, fun inside => missing inside.1⟩
    have unchanged : sctpTsnmapRenege map tsn = map := by
      unfold sctpTsnmapRenege
      rw [if_pos ((tsnLt_base gap).mpr (Nat.le_of_not_lt near))]
    rw [if_neg near, unchanged]
    exact ⟨b, m, stands, missing⟩

end Steps

/-- **The map and the ledger agree after every call exactly when no call loses a number.** -/
theorem tsnmap_tracks_iff (initial : BitVec 32) (calls : List Call) :
    Along (stepBoth initial) LosesNone (sctpTsnmapInit initial, ∅) calls ↔
      Throughout (stepBoth initial) (fun _ _ next => Tracks initial next.1 next.2)
        (sctpTsnmapInit initial, ∅) calls := by
  refine along_iff_throughout
    (fun state => ∃ b m, Stands initial state.1 state.2 b m ∧ b ∉ state.2) ?_ ?_
    ⟨0, 0, stands_init initial, fun inside => inside⟩
  · rintro ⟨map, received⟩ call ⟨b, m, stands, missing⟩ kept
    obtain ⟨b', m', stands', missing'⟩ := perform_stands stands missing call kept
    exact ⟨_, rfl, stands'.tracks missing', b', m', stands', missing'⟩
  rintro ⟨map, received⟩ call _ ⟨b, m, stands, missing⟩ ⟨⟩ tracks
  cases call with
  | skip | renege => trivial
  | mark tsn =>
    rintro ⟨zero, short, lost⟩
    obtain ⟨fits, -⟩ := (check_eq_zero_iff stands rfl).mp zero
    refine mark_loses stands missing rfl short fits lost ?_
    simp only [perform, note, if_pos zero, stands.ahead_eq missing, if_pos fits,
      firstMissing_eq stands.below missing] at tracks
    exact tracks

/-- The map after three numbers ahead of the first: the last one makes the bitmap grow, and the second
is forgotten. -/
theorem received_tsn_lost :
    sctpTsnmapCheck ([.mark 41, .mark 65].foldl perform (sctpTsnmapInit 1)) 65 = 1 ∧
      sctpTsnmapCheck ([.mark 41, .mark 65, .mark 97].foldl perform (sctpTsnmapInit 1)) 65 = 0 := by
  decide +kernel

end KernelImx.Sctp
