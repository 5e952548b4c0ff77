/-
**An arena tiled by blocks with headers.**

A region is cut into blocks; each block starts with a header of `header` bytes, the rest of it is
data. The region is backed by pages of `page` bytes, given by their addresses. A page is `Touched`
when a header or the data of a used block lies on it.
-/

import Mathlib.Algebra.Order.Group.Nat
import Mathlib.Tactic.Tauto

namespace KernelImx.Lib

open List

structure Block where
  addr : Nat
  used : Bool

/-- Where the block before these ones ends. -/
def bound (hi : Nat) : List Block → Nat
  | [] => hi
  | block :: _ => block.addr

/-- The blocks tile the bytes from `lo` to `hi`. -/
def Tiles (header hi : Nat) : Nat → List Block → Prop
  | lo, [] => lo = hi
  | lo, block :: rest =>
    block.addr = lo ∧ lo + header ≤ bound hi rest ∧ Tiles header hi (bound hi rest) rest

/-- Some byte from `lo` on and before `hi` lies on the page. -/
def Meets (page lo hi addr : Nat) : Prop := lo < hi ∧ lo < addr + page ∧ addr < hi

/-- The whole page lies from `lo` to `hi`. -/
def Inside (page lo hi addr : Nat) : Prop := lo ≤ addr ∧ addr + page ≤ hi

def Touched (header page hi : Nat) : List Block → Nat → Prop
  | [], _ => False
  | block :: rest, addr =>
    Meets page block.addr (block.addr + header) addr ∨
      (block.used = true ∧ Meets page (block.addr + header) (bound hi rest) addr) ∨
      Touched header page hi rest addr

/-- A header lies on the page, or the page lies inside the data of a used block. -/
def Kept (header page hi : Nat) : List Block → Nat → Prop
  | [], _ => False
  | block :: rest, addr =>
    Meets page block.addr (block.addr + header) addr ∨
      (block.used = true ∧ Inside page (block.addr + header) (bound hi rest) addr) ∨
      Kept header page hi rest addr

variable {blocks : List Block}

section Arena

variable {header page hi lo addr : Nat} {front back : List Block} {block : Block}

@[simp] theorem bound_nil : bound hi [] = hi := rfl

@[simp] theorem bound_cons : bound hi (block :: back) = block.addr := rfl

theorem bound_append : bound hi (front ++ back) = bound (bound hi back) front := by
  cases front <;> rfl

theorem tiles_append : Tiles header hi lo (front ++ back) ↔
    Tiles header (bound hi back) lo front ∧ Tiles header hi (bound hi back) back := by
  induction front generalizing lo with
  | nil =>
    cases back with
    | nil => simp [Tiles, bound]
    | cons block rest =>
      simp only [nil_append, Tiles, bound]
      constructor
      · rintro ⟨start, room, tiles⟩
        exact ⟨start.symm, trivial, start ▸ room, tiles⟩
      · rintro ⟨start, -, room, tiles⟩
        exact ⟨start.symm, start ▸ room, tiles⟩
  | cons block rest ih =>
    simp only [cons_append, Tiles, bound_append, ih, and_assoc]

theorem kept_append : Kept header page hi (front ++ back) addr ↔
    Kept header page (bound hi back) front addr ∨ Kept header page hi back addr := by
  induction front with
  | nil => simp [Kept]
  | cons block rest ih =>
    simp only [cons_append, Kept, bound_append, ih, or_assoc]

section

variable (tiles : Tiles header hi lo blocks)

include tiles

theorem Tiles.le : lo ≤ hi := by
  induction blocks generalizing lo with
  | nil => exact le_of_eq tiles
  | cons block rest ih =>
    obtain ⟨-, room, tiles⟩ := tiles
    exact ((Nat.le_add_right lo header).trans room).trans (ih tiles)

theorem Tiles.sorted (headed : 0 < header) : (∀ block ∈ blocks, lo ≤ block.addr) ∧
      blocks.Pairwise fun first second => first.addr < second.addr := by
  induction blocks generalizing lo with
  | nil => exact ⟨nofun, Pairwise.nil⟩
  | cons block rest ih =>
    obtain ⟨rfl, room, tiles⟩ := tiles
    obtain ⟨above, sorted⟩ := ih tiles
    refine ⟨forall_mem_cons.mpr ⟨le_rfl, fun other member => ?_⟩,
      pairwise_cons.mpr ⟨fun other member => ?_, sorted⟩⟩
    · have := above other member
      omega
    · have := above other member
      omega

theorem Tiles.kept_meets (paged : 0 < page)
    (kept : Kept header page hi blocks addr) : lo < addr + page ∧ addr < hi := by
  induction blocks generalizing lo with
  | nil => exact kept.elim
  | cons block rest ih =>
    obtain ⟨rfl, room, tiles⟩ := tiles
    have := tiles.le
    rcases kept with ⟨-, before, after⟩ | ⟨-, inside⟩ | later
    · exact ⟨before, by omega⟩
    · obtain ⟨start, finish⟩ := inside
      exact ⟨by omega, by omega⟩
    · have := ih tiles later
      exact ⟨by omega, this.2⟩

/-- **The data of a block matters only for the pages inside it.** -/
theorem touched_iff_kept (headed : 0 < header)
    (positive : 0 < page) (last : addr < hi → addr + page ≤ hi) :
    Touched header page hi blocks addr ↔ Kept header page hi blocks addr := by
  induction blocks generalizing lo with
  | nil => exact Iff.rfl
  | cons block rest ih =>
    obtain ⟨rfl, room, tiles⟩ := tiles
    have later := ih tiles
    constructor
    · rintro (here | ⟨used, -, before, after⟩ | there)
      · exact .inl here
      · by_cases start : block.addr + header ≤ addr
        · by_cases finish : addr + page ≤ bound hi rest
          · exact .inr (.inl ⟨used, start, finish⟩)
          cases rest with
          | nil =>
            exact absurd (last after) finish
          | cons next rest =>
            simp only [bound_cons] at after finish
            exact .inr (.inr (.inl ⟨by omega, by omega, by omega⟩))
        · exact .inl ⟨by omega, by omega, by omega⟩
      · exact .inr (.inr (later.mp there))
    · rintro (here | ⟨used, start, finish⟩ | there)
      · exact .inl here
      · exact .inr (.inl ⟨used, by omega, by omega, by omega⟩)
      · exact .inr (.inr (later.mpr there))

end

theorem Tiles.not_kept_inside (tiles : Tiles header hi lo (front ++ block :: back))
    (positive : 0 < page) (free : block.used = false)
    (inside : Inside page (block.addr + header) (bound hi back) addr) :
    ¬ Kept header page hi (front ++ block :: back) addr := by
  obtain ⟨before, -, room, after⟩ := tiles_append.mp tiles
  obtain ⟨start, finish⟩ := inside
  rw [kept_append]
  rintro (early | here | data | late)
  · have meets := before.kept_meets positive early
    simp only [bound_cons] at meets
    omega
  · obtain ⟨-, -, overlap⟩ := here
    omega
  · simp [free] at data
  · have meets := after.kept_meets positive late
    omega

section Change

variable {start mid : Nat}

/-- **A block is used**: the pages inside its data are added. -/
theorem kept_use : Kept header page hi (front ++ ⟨start, true⟩ :: back) addr ↔
    Kept header page hi (front ++ ⟨start, false⟩ :: back) addr ∨
      Inside page (start + header) (bound hi back) addr := by
  simp only [kept_append, Kept, bound_cons]
  tauto

/-- **The first part of a block is used** and the rest of it becomes a free block: the pages up to
the new header are added. -/
theorem kept_split (tiles : Tiles header hi lo (front ++ ⟨start, false⟩ :: back))
    (headed : 0 < header) (last : addr < hi → addr + page ≤ hi) (room : start + header ≤ mid)
    (rest : mid + header ≤ bound hi back) :
    Kept header page hi (front ++ ⟨start, true⟩ :: ⟨mid, false⟩ :: back) addr ↔
      Kept header page hi (front ++ ⟨start, false⟩ :: back) addr ∨
        (Inside page (start + header) (bound hi back) addr ∧ addr < mid + header) := by
  have next : bound hi back ≤ addr + page - 1 → addr < bound hi back →
      Kept header page hi back addr := by
    intro reaches before
    cases back with
    | nil =>
      simp only [bound_nil] at reaches before
      omega
    | cons block back =>
      simp only [bound_cons] at reaches before
      exact .inl ⟨by omega, by omega, by omega⟩
  simp only [kept_append, Kept, bound_cons, Bool.false_eq_true, false_and, false_or, true_and]
  constructor
  · rintro (early | here | ⟨from_, upto⟩ | ⟨-, before, after⟩ | late)
    · exact .inl (.inl early)
    · exact .inl (.inr (.inl here))
    · exact .inr ⟨⟨from_, by omega⟩, by omega⟩
    · by_cases low : start + header ≤ addr
      · by_cases high : addr + page ≤ bound hi back
        · exact .inr ⟨⟨low, high⟩, after⟩
        · exact .inl (.inr (.inr (next (by omega) (by omega))))
      · exact .inl (.inr (.inl ⟨by omega, by omega, by omega⟩))
    · exact .inl (.inr (.inr late))
  · rintro ((early | here | late) | ⟨⟨low, high⟩, before⟩)
    · exact .inl early
    · exact .inr (.inl here)
    · exact .inr (.inr (.inr (.inr late)))
    · by_cases inside : addr + page ≤ mid
      · exact .inr (.inr (.inl ⟨low, inside⟩))
      · exact .inr (.inr (.inr (.inl ⟨by omega, by omega, before⟩)))

/-- **A block is freed**: the pages inside its data are given back. -/
theorem kept_release (tiles : Tiles header hi lo (front ++ ⟨start, true⟩ :: back))
    (positive : 0 < page) :
    Kept header page hi (front ++ ⟨start, false⟩ :: back) addr ↔
      Kept header page hi (front ++ ⟨start, true⟩ :: back) addr ∧
        ¬ Inside page (start + header) (bound hi back) addr := by
  have same : Tiles header hi lo (front ++ ⟨start, false⟩ :: back) := by
    rw [tiles_append] at tiles ⊢
    exact tiles
  have apart := fun inside => @Tiles.not_kept_inside header page hi lo addr front back
    ⟨start, false⟩ same positive rfl inside
  rw [kept_use]
  tauto

/-- **A free block is merged with the free block before it**: the pages of its header are given
back, unless another header lies on them. -/
theorem kept_merge (tiles : Tiles header hi lo (front ++ ⟨start, false⟩ :: ⟨mid, false⟩ :: back))
    (positive : 0 < page) :
    Kept header page hi (front ++ ⟨start, false⟩ :: back) addr ↔
      Kept header page hi (front ++ ⟨start, false⟩ :: ⟨mid, false⟩ :: back) addr ∧
        ¬ (Meets page mid (mid + header) addr ∧ ¬ Meets page start (start + header) addr ∧
          ∀ next ∈ back.head?, ¬ Meets page next.addr (next.addr + header) addr) := by
  obtain ⟨before, -, room, -, space, after⟩ := tiles_append.mp tiles
  simp only [bound_cons] at before room space
  simp only [kept_append, Kept, bound_cons, Bool.false_eq_true, false_and, false_or]
  constructor
  · intro kept
    refine ⟨by tauto, fun ⟨⟨_, low, high⟩, notStart, notNext⟩ => ?_⟩
    rcases kept with early | here | late
    · have meets := before.kept_meets positive early
      exact notStart ⟨by omega, by omega, by omega⟩
    · exact notStart here
    cases back with
    | nil => exact late
    | cons next back =>
      have meets := after.kept_meets positive late
      simp only [bound_cons] at space meets
      refine notNext next (by simp) ⟨by omega, by omega, by omega⟩
  · rintro ⟨(early | here | middle | late), shared⟩
    · exact .inl early
    · exact .inr (.inl here)
    · by_cases first : Meets page start (start + header) addr
      · exact .inr (.inl first)
      cases back with
      | nil => exact (shared ⟨middle, first, by simp⟩).elim
      | cons next back =>
        by_cases second : Meets page next.addr (next.addr + header) addr
        · exact .inr (.inr (.inl second))
        · exact (shared ⟨middle, first, by simpa using second⟩).elim
    · exact .inr (.inr late)

end Change

end Arena

end KernelImx.Lib
