/-
**Loads of netlink attributes** (net/core/filter.c, lib/nlattr.c).

`SKF_AD_NLATTR` and `SKF_AD_NLATTR_NEST` look for an attribute from the position in `A` on.

* **`attribute_loads_inside`**: when the loads stay inside the packet: the test of `A` wraps when
  the packet is shorter than an attribute, and the length of a nest is compared with `A - skb->len`
  where `skb->len - A` bytes are left.
-/

import KernelImx.Filter.Checked

namespace KernelImx.Filter

open List

/-! ### The positions that are read -/

/-- The bytes of a `u16`. -/
def halfReads (ptr : BitVec 32) : List (BitVec 32) := [ptr, ptr + 1]

/-- `nla_find` reads the length of an attribute, and its type if the attribute fits. -/
def nlaFindReads (skb : SkBuff) (attrtype : Int) : Nat → BitVec 32 → Int → List (BitVec 32)
  | 0, _, _ => []
  | left + 1, nla, rem =>
    if rem ≥ 4 then
      halfReads nla ++
        if skb.half nla ≥ 4 ∧ skb.half nla ≤ rem then
          halfReads (nla + 2) ++
            if (skb.half (nla + 2) % 0x4000 : Nat) = attrtype then []
            else
              let totlen := (skb.half nla + 3) / 4 * 4
              nlaFindReads skb attrtype left (nla + BitVec.ofNat 32 totlen) (rem - totlen)
        else []
    else []

def nlattrReads (skb : SkBuff) (s : State) : List (BitVec 32) :=
  if skb.frags ≠ [] ∨ s.a > BitVec.ofNat 32 skb.len - 4 then []
  else
    let rem := (BitVec.ofNat 32 skb.len - s.a).toInt
    nlaFindReads skb s.x.toInt rem.toNat s.a rem

def nlattrNestReads (skb : SkBuff) (s : State) : List (BitVec 32) :=
  if skb.frags ≠ [] ∨ s.a > BitVec.ofNat 32 skb.len - 4 then []
  else
    halfReads s.a ++
      if BitVec.ofNat 32 (skb.half s.a) > s.a - BitVec.ofNat 32 skb.len then []
      else
        let rem := (skb.half s.a : Int) - 4
        nlaFindReads skb s.x.toInt rem.toNat (s.a + 4) rem

section Search

variable {skb other : SkBuff} {attrtype : Int} {left : Nat} {nla : BitVec 32} {rem : Int}

theorem half_congr (same : ∀ pos ∈ halfReads nla, other.byte pos = skb.byte pos) :
    other.half nla = skb.half nla := by
  simp only [halfReads, forall_mem_cons] at same
  rw [SkBuff.half, SkBuff.half, same.1, same.2.1]

/-- **A search depends on the positions it reads only.** -/
theorem nlaFindLoop_congr
    (same : ∀ pos ∈ nlaFindReads skb attrtype left nla rem, other.byte pos = skb.byte pos) :
    nlaFindLoop other attrtype left nla rem = nlaFindLoop skb attrtype left nla rem := by
  induction left generalizing nla rem with
  | zero => rfl
  | succ left ih =>
    unfold nlaFindReads at same
    unfold nlaFindLoop
    by_cases room : rem ≥ 4
    · rw [if_pos room, forall_mem_append] at same
      rw [half_congr same.1]
      split
      next fits =>
        rw [if_pos fits.2, forall_mem_append] at same
        rw [half_congr same.2.1]
        split
        · rfl
        next differs => exact ih (by simpa only [if_neg differs] using same.2.2)
      · rfl
    · rw [if_neg fun both => room both.1, if_neg fun both => room both.1]

variable {stop : Nat}

theorem toNat_add_le (ptr offset : BitVec 32) : (ptr + offset).toNat ≤ ptr.toNat + offset.toNat := by
  rw [BitVec.toNat_add]
  exact Nat.mod_le _ _

theorem halfReads_inside (inside : nla.toNat + 2 ≤ stop) :
    ∀ pos ∈ halfReads nla, pos.toNat < stop := by
  have next : (nla + 1).toNat ≤ nla.toNat + 1 := toNat_add_le nla 1
  simp only [halfReads, forall_mem_cons]
  exact ⟨by omega, by omega, forall_mem_nil _⟩

/-- **A search stays in the range it is given.** -/
theorem nlaFindReads_inside (range : 4 ≤ rem → nla.toNat + rem ≤ stop) :
    ∀ pos ∈ nlaFindReads skb attrtype left nla rem, pos.toNat < stop := by
  induction left generalizing nla rem with
  | zero => exact forall_mem_nil _
  | succ left ih =>
    unfold nlaFindReads
    split
    next room =>
      have range := range room
      refine forall_mem_append.mpr ⟨halfReads_inside (by omega), ?_⟩
      split
      · have type : (nla + 2).toNat ≤ nla.toNat + 2 := toNat_add_le nla 2
        refine forall_mem_append.mpr ⟨halfReads_inside (by omega), ?_⟩
        split
        · exact forall_mem_nil _
        · have next := toNat_add_le nla (BitVec.ofNat 32 ((skb.half nla + 3) / 4 * 4))
          have total := (BitVec.toNat_ofNat ((skb.half nla + 3) / 4 * 4) 32).trans_le (Nat.mod_le _ _)
          exact ih fun _ => by omega
      · exact forall_mem_nil _
    · exact forall_mem_nil _

end Search

/-! ### The packet -/

/-- The header of a nest is in the packet, and what it contains as well. -/
def NestInside (skb : SkBuff) (a : BitVec 32) : Prop :=
  a.toNat + 2 ≤ skb.len ∧ (skb.half a < 8 ∨ a.toNat + skb.half a ≤ skb.len)

/-- **When the loads stay inside the packet.** -/
theorem attribute_loads_inside (skb : SkBuff) (s : State) (small : skb.len < 2 ^ 32) :
    ((∀ pos ∈ nlattrReads skb s, pos.toNat < skb.len) ↔ ¬ (skb.frags = [] ∧ skb.len < 4 ∧
      skb.len + 2 ^ 31 < s.a.toNat ∧ s.a.toNat + 4 ≤ 2 ^ 32 + skb.len)) ∧
    (skb.frags ≠ [] ∨ s.a > BitVec.ofNat 32 skb.len - 4 ∨ NestInside skb s.a →
      ∀ pos ∈ nlattrNestReads skb s, pos.toNat < skb.len) := by
  have modulo (offset : BitVec 32) : (BitVec.ofNat 32 skb.len - offset).toNat =
      (2 ^ 32 - offset.toNat + skb.len) % 2 ^ 32 := by
    rw [BitVec.toNat_sub, BitVec.toNat_ofNat, Nat.mod_eq_of_lt small]
  have limit : (BitVec.ofNat 32 skb.len - 4).toNat = (2 ^ 32 - 4 + skb.len) % 2 ^ 32 := modulo 4
  have bound := s.a.isLt
  constructor
  · unfold nlattrReads
    by_cases refused : skb.frags ≠ [] ∨ s.a > BitVec.ofNat 32 skb.len - 4
    · rw [if_pos refused]
      refine iff_of_true (forall_mem_nil _) fun wraps => ?_
      rcases refused with frags | beyond
      · exact frags wraps.1
      · rw [gt_iff_lt, BitVec.lt_def, limit] at beyond
        omega
    rw [if_neg refused]
    simp only [not_or, not_not, gt_iff_lt, BitVec.lt_def, limit, Nat.not_lt] at refused
    obtain ⟨linear, low⟩ := refused
    have signed := BitVec.toInt_eq_toNat_cond (BitVec.ofNat 32 skb.len - s.a)
    rw [modulo] at signed
    dsimp only
    generalize (BitVec.ofNat 32 skb.len - s.a).toInt = rem at signed ⊢
    by_cases wraps : skb.len < 4 ∧ skb.len + 2 ^ 31 < s.a.toNat
    · refine iff_of_false (fun inside => ?_) (not_not.mpr ⟨linear, wraps.1, wraps.2, by omega⟩)
      obtain ⟨left, fuel⟩ : ∃ left, rem.toNat = left + 1 := ⟨rem.toNat - 1, by split at signed <;> omega⟩
      have first : s.a ∈ nlaFindReads skb s.x.toInt rem.toNat s.a rem := by
        rw [fuel, nlaFindReads, if_pos (by split at signed <;> omega)]
        exact mem_append_left _ mem_cons_self
      have := inside s.a first
      omega
    · refine iff_of_true (nlaFindReads_inside fun _ => ?_) fun all => wraps ⟨all.2.1, all.2.2.1⟩
      split at signed <;> omega
  · intro inside
    unfold nlattrNestReads
    split
    · exact forall_mem_nil _
    next accepted =>
      obtain ⟨header, nest⟩ : NestInside skb s.a := by tauto
      refine forall_mem_append.mpr ⟨halfReads_inside header, ?_⟩
      split
      · exact forall_mem_nil _
      have next : (s.a + 4).toNat ≤ s.a.toNat + 4 := toNat_add_le s.a 4
      exact nlaFindReads_inside fun _ => by omega

/-- The first bytes of an attribute of 16 bytes with one of 8 bytes in it. -/
def nestPacket (len : Nat) : SkBuff :=
  { zeroPacket with
    byte := fun pos => if pos = 0 then 16 else if pos = 4 then 8 else 0
    headLen := len, frags := [] }

/-- **The loads leave the packet**: an empty packet is read at `A`, and a nest is searched behind the
packet. -/
theorem attribute_loads_leave :
    (∃ pos ∈ nlattrReads (nestPacket 0) ⟨0, -4, 0, fun _ => 0⟩, (nestPacket 0).len ≤ pos.toNat) ∧
      ∃ pos ∈ nlattrNestReads (nestPacket 8) ⟨0, 0, 5, fun _ => 0⟩,
        (nestPacket 8).len ≤ pos.toNat :=
  ⟨⟨-4, by decide +kernel, by decide⟩, ⟨12, by decide +kernel, by decide⟩⟩

/-- The nest in a packet that holds all of it. -/
theorem attribute_loads_inside_nest : (nestPacket 16).len < 2 ^ 32 ∧
    ∀ pos ∈ nlattrNestReads (nestPacket 16) ⟨0, 0, 5, fun _ => 0⟩, pos.toNat < (nestPacket 16).len :=
  ⟨by decide, (attribute_loads_inside (nestPacket 16) _ (by decide)).2
    (.inr (.inr ⟨by decide, .inr (by decide)⟩))⟩

end KernelImx.Filter
