/-
**Blocks of a power of two.**

A block of an order holds `2 ^ order` points from a multiple of `2 ^ order` on. Two blocks are apart,
or one is inside of the other. A block and its sibling are the two halves of their parent.
-/

import Mathlib.Data.Nat.Bitwise

namespace KernelImx.Lib.Dyadic

open Nat

/-! ### Blocks -/

structure Block where
  order : Nat
  index : Nat
  deriving DecidableEq, Repr

variable {point order : Nat} {block : Block}

namespace Block

def Holds (block : Block) (point : Nat) : Prop := point / 2 ^ block.order = block.index

instance (block : Block) (point : Nat) : Decidable (block.Holds point) :=
  inferInstanceAs (Decidable (_ = _))

def first (block : Block) : Nat := block.index * 2 ^ block.order

def parent (block : Block) : Block := ⟨block.order + 1, block.index / 2⟩

def sibling (block : Block) : Block :=
  ⟨block.order, if block.index % 2 = 0 then block.index + 1 else block.index - 1⟩

def ofPoint (order point : Nat) : Block := ⟨order, point / 2 ^ order⟩

variable {other : Block}

theorem holds_iff : block.Holds point ↔
    block.first ≤ point ∧ point < block.first + 2 ^ block.order := by
  have positive : 0 < 2 ^ block.order := Nat.two_pow_pos _
  rw [Holds, first, Nat.div_eq_iff positive]
  refine and_congr_right fun _ => ?_
  omega

theorem holds_first (block : Block) : block.Holds block.first :=
  Nat.mul_div_cancel _ (Nat.two_pow_pos _)

theorem dvd_first (block : Block) : 2 ^ block.order ∣ block.first := dvd_mul_left _ _

theorem ofPoint_holds (order point : Nat) : (ofPoint order point).Holds point := rfl

@[simp] theorem ofPoint_order (order point : Nat) : (ofPoint order point).order = order := rfl

theorem ofPoint_first (aligned : 2 ^ order ∣ point) : (ofPoint order point).first = point :=
  Nat.div_mul_cancel aligned

theorem ofPoint_holds_iff {member : Nat} (aligned : 2 ^ order ∣ point) :
    (ofPoint order point).Holds member ↔ point ≤ member ∧ member < point + 2 ^ order := by
  rw [holds_iff, ofPoint_first aligned, ofPoint_order]

theorem eq_of_holds (one : block.Holds point) (two : other.Holds point)
    (same : block.order = other.order) : block = other := by
  obtain ⟨order, index⟩ := block
  obtain ⟨_, index'⟩ := other
  cases same
  have same : index = index' := one.symm.trans two
  rw [same]

theorem eq_ofPoint (starts : block.first = point) (same : block.order = order) :
    block = ofPoint order point :=
  eq_of_holds (starts ▸ block.holds_first) (ofPoint_holds order point) same

theorem holds_of_le (larger : block.order ≤ order) (one : block.Holds point) :
    point / 2 ^ order = block.index / 2 ^ (order - block.order) := by
  rw [← one, Nat.div_div_eq_div_mul, ← pow_add, Nat.add_sub_cancel' larger]

/-- **Blocks that share a point are nested.** -/
theorem within (one : block.Holds point) (two : other.Holds point)
    (smaller : block.order ≤ other.order) {member : Nat} (inside : block.Holds member) :
    other.Holds member := by
  rw [Holds, holds_of_le smaller inside, ← holds_of_le smaller one]
  exact two

@[simp] theorem sibling_order : block.sibling.order = block.order := rfl

@[simp] theorem sibling_parent : block.sibling.parent = block.parent := by
  rw [parent, parent, sibling]
  congr 1
  dsimp only
  split <;> omega

@[simp] theorem sibling_sibling : block.sibling.sibling = block := by
  rw [sibling, sibling]
  congr 1
  dsimp only
  split <;> split <;> omega

theorem sibling_ne (block : Block) : block.sibling ≠ block := by
  intro equal
  have index := congrArg Block.index equal
  rw [sibling] at index
  dsimp only at index
  split at index <;> omega

theorem holds_parent (inside : block.Holds point) : block.parent.Holds point := by
  rw [Holds, parent, pow_succ, ← Nat.div_div_eq_div_mul, inside]

theorem parent_holds_iff :
    block.parent.Holds point ↔ block.Holds point ∨ block.sibling.Holds point := by
  constructor
  · intro inside
    rw [Holds, parent, pow_succ, ← Nat.div_div_eq_div_mul] at inside
    rw [Holds, Holds, sibling]
    dsimp only at inside ⊢
    split <;> omega
  · rintro (inside | inside)
    · exact holds_parent inside
    · exact sibling_parent ▸ holds_parent inside

theorem not_sibling_holds (inside : block.Holds point) : ¬ block.sibling.Holds point := fun both =>
  block.sibling_ne (eq_of_holds both inside rfl)

end Block

namespace Block

@[simp] theorem ofPoint_parent (order point : Nat) :
    (ofPoint order point).parent = ofPoint (order + 1) point := by
  rw [parent, ofPoint, ofPoint, pow_succ, Nat.div_div_eq_div_mul]

theorem ofPoint_upper (aligned : 2 ^ (order + 1) ∣ point) :
    ofPoint order (point + 2 ^ order) = (ofPoint order point).sibling := by
  obtain ⟨index, rfl⟩ := aligned
  have positive : 0 < 2 ^ order := Nat.two_pow_pos order
  have number : 2 ^ (order + 1) * index / 2 ^ order = 2 * index := by
    rw [pow_succ, mul_assoc, Nat.mul_div_cancel_left _ positive]
  rw [ofPoint, ofPoint, sibling, add_div_right _ positive, number]
  rw [if_pos (mul_mod_right 2 index)]

end Block

/-! ### Siblings and parents by bits -/

theorem xor_one (index : Nat) : index ^^^ 1 = if index % 2 = 0 then index + 1 else index - 1 := by
  have half : (index ^^^ 1) / 2 = index / 2 := by
    rw [xor_div_two]
    exact Nat.xor_zero _
  have parity : (index ^^^ 1) % 2 = (index + 1) % 2 := xor_mod_two_eq
  split <;> omega

theorem mul_two_pow_xor (index order : Nat) :
    (index * 2 ^ order) ^^^ (1 <<< order) = (index ^^^ 1) * 2 ^ order := by
  rw [← shiftLeft_eq, ← shiftLeft_eq, shiftLeft_xor_distrib]

theorem mul_two_pow_ldiff (index order : Nat) :
    (index * 2 ^ order).ldiff (1 <<< order) = (index / 2 * 2) * 2 ^ order := by
  refine eq_of_testBit_eq fun place => ?_
  rw [testBit_ldiff, testBit_mul_two_pow, testBit_mul_two_pow, shiftLeft_eq,
    one_mul, testBit_two_pow]
  rcases lt_trichotomy place order with below | same | above
  · rw [decide_eq_false (not_le.mpr below), Bool.false_and, Bool.false_and, Bool.false_and]
  · subst same
    have even : (index / 2 * 2).testBit 0 = false := by
      rw [testBit_zero]
      exact decide_eq_false (by omega)
    rw [decide_eq_true rfl, Bool.not_true, Bool.and_false, Nat.sub_self, even, Bool.and_false]
  · obtain ⟨rest, rfl⟩ : ∃ rest, place = order + (rest + 1) := ⟨place - order - 1, by omega⟩
    have half : index / 2 * 2 / 2 = index / 2 := Nat.mul_div_cancel _ Nat.two_pos
    rw [decide_eq_false (Nat.ne_of_lt above), Bool.not_false, Bool.and_true, Nat.add_sub_cancel_left,
      testBit_succ, testBit_succ, half]

/-! ### Families of blocks -/

/-- A family of blocks that are apart and hold the points of a set. -/
structure Tiles (top : Nat) (family : Block → Prop) (points : Nat → Prop) : Prop where
  bounded : ∀ block, family block → block.order ≤ top
  cover : ∀ point, points point ↔ ∃ block, family block ∧ block.Holds point
  apart : ∀ one two point, family one → family two → one.Holds point → two.Holds point → one = two

/-- No two siblings below the top order, but for the halves of the blocks that are excepted. -/
def Coalesced (top : Nat) (except family : Block → Prop) : Prop :=
  ∀ block, family block → family block.sibling → block.order < top → except block.parent

variable {top : Nat} {family except : Block → Prop} {points : Nat → Prop}

section

variable (tiles : Tiles top family points)

include tiles

theorem Tiles.points_of_member (member : family block)
    (inside : block.Holds point) : points point :=
  (tiles.cover point).mpr ⟨block, member, inside⟩

theorem Tiles.remove (member : family block) : Tiles top (fun other => family other ∧ other ≠ block)
      (fun point => points point ∧ ¬ block.Holds point) := by
  refine ⟨fun other inside => tiles.bounded other inside.1, fun point => ?_,
    fun one two point first second => tiles.apart one two point first.1 second.1⟩
  constructor
  · rintro ⟨inside, outside⟩
    obtain ⟨other, belongs, holds⟩ := (tiles.cover point).mp inside
    exact ⟨other, ⟨belongs, fun equal => outside (equal ▸ holds)⟩, holds⟩
  · rintro ⟨other, ⟨belongs, differs⟩, holds⟩
    exact ⟨tiles.points_of_member belongs holds, fun inside =>
      differs (tiles.apart other block point belongs member holds inside)⟩

theorem Tiles.insert (small : block.order ≤ top)
    (free : ∀ point, block.Holds point → ¬ points point) :
    Tiles top (fun other => family other ∨ other = block)
      (fun point => points point ∨ block.Holds point) := by
  refine ⟨?_, fun point => ?_, ?_⟩
  · rintro other (belongs | rfl)
    · exact tiles.bounded other belongs
    · exact small
  · constructor
    · rintro (inside | inside)
      · obtain ⟨other, belongs, holds⟩ := (tiles.cover point).mp inside
        exact ⟨other, .inl belongs, holds⟩
      · exact ⟨block, .inr rfl, inside⟩
    · rintro ⟨other, belongs | rfl, holds⟩
      · exact .inl (tiles.points_of_member belongs holds)
      · exact .inr holds
  · rintro one two point (first | rfl) (second | rfl) holds holds'
    · exact tiles.apart one two point first second holds holds'
    · exact absurd (tiles.points_of_member first holds) (free point holds')
    · exact absurd (tiles.points_of_member second holds') (free point holds)
    · rfl

theorem Tiles.not_member (inside : block.Holds point)
    (free : ¬ points point) : ¬ family block := fun member =>
  free (tiles.points_of_member member inside)

end

theorem Coalesced.remove (coalesced : Coalesced top except family) :
    Coalesced top except (fun other => family other ∧ other ≠ block) :=
  fun other member sibling => coalesced other member.1 sibling.1

theorem Coalesced.insert (coalesced : Coalesced top except family)
    (alone : block.order < top → ¬ family block.sibling) :
    Coalesced top except (fun other => family other ∨ other = block) := by
  rintro other (belongs | rfl) (sibling | equal) below
  · exact coalesced other belongs sibling below
  · have same : other = block.sibling := by rw [← equal, Block.sibling_sibling]
    exact absurd (same ▸ belongs) (alone (by rw [← equal]; exact below))
  · exact absurd sibling (alone below)
  · exact absurd equal other.sibling_ne

end KernelImx.Lib.Dyadic
