/-
**A heap of records.**

Records by their addresses, over Mathlib's `AList`: a record is found by its address or by a
property, and records can be counted.
-/

import Mathlib.Data.List.AList
import Mathlib.Data.List.Count

namespace KernelImx.Lib

open List Option

variable {ρ : Type*}

structure Heap (ρ : Type*) where
  records : AList fun _ : Nat => ρ

namespace Heap

def empty : Heap ρ := ⟨∅⟩

variable (heap : Heap ρ)

def get (addr : Nat) : Option ρ := heap.records.lookup addr

def set (addr : Nat) (record : ρ) : Heap ρ := ⟨heap.records.insert addr record⟩

def free (addr : Nat) : Heap ρ := ⟨heap.records.erase addr⟩

def count (p : ρ → Bool) : Nat := heap.records.entries.countP fun entry => p entry.2

def find (p : ρ → Bool) : Option Nat :=
  (heap.records.entries.find? fun entry => p entry.2).map Sigma.fst

section Get

variable {heap : Heap ρ} {addr : Nat} {record : ρ} {p : ρ → Bool}

theorem get_set (heap : Heap ρ) (addr other : Nat) (record : ρ) :
    (heap.set addr record).get other = if other = addr then some record else heap.get other := by
  by_cases same : other = addr
  · subst same
    rw [if_pos rfl]
    exact AList.lookup_insert _
  · rw [if_neg same]
    exact AList.lookup_insert_ne same

theorem get_free (heap : Heap ρ) (addr other : Nat) :
    (heap.free addr).get other = if other = addr then none else heap.get other := by
  by_cases same : other = addr
  · subst same
    rw [if_pos rfl]
    exact AList.lookup_erase _ _
  · rw [if_neg same]
    exact AList.lookup_erase_ne same

variable {other : Nat} {now : ρ}

theorem get_set_eq_some : (heap.set addr record).get other = some now ↔
    other = addr ∧ record = now ∨ other ≠ addr ∧ heap.get other = some now := by
  by_cases same : other = addr <;> simp [get_set, same]

theorem get_free_eq_some :
    (heap.free addr).get other = some now ↔ other ≠ addr ∧ heap.get other = some now := by
  by_cases same : other = addr <;> simp [get_free, same]

theorem get_set_eq_none (there : heap.get addr = some now) (absent : heap.get other = none) :
    (heap.set addr record).get other = none := by
  rw [get_set, if_neg, absent]
  rintro rfl
  rw [absent] at there
  cases there

theorem get_free_eq_none (absent : heap.get other = none) : (heap.free addr).get other = none := by
  rw [get_free, absent, ite_self]

theorem mem_entries_iff : (⟨addr, record⟩ : Sigma fun _ : Nat => ρ) ∈ heap.records.entries ↔
    heap.get addr = some record :=
  AList.mem_lookup_iff.symm

theorem find_some (found : heap.find p = some addr) :
    ∃ record, heap.get addr = some record ∧ p record = true := by
  obtain ⟨⟨_, record⟩, first, rfl⟩ := map_eq_some_iff.mp found
  exact ⟨record, mem_entries_iff.mp (mem_of_find?_eq_some first),
    by simpa using find?_some first⟩

theorem find_none (found : heap.find p = none) (there : heap.get addr = some record) :
    p record = false := by
  have first := find?_eq_none.mp (map_eq_none_iff.mp found)
  simpa using first ⟨addr, record⟩ (mem_entries_iff.mpr there)

end Get

section Count

theorem ite_toNat (condition : Bool) : (if condition = true then 1 else 0) = condition.toNat := by
  cases condition <;> rfl

variable {heap : Heap ρ} {addr : Nat} {old : ρ} (p : ρ → Bool)

theorem count_free (there : heap.get addr = some old) :
    (heap.free addr).count p + (p old).toNat = heap.count p := by
  have member := mem_entries_iff.mpr there
  obtain ⟨record, front, back, -, parts, rest⟩ := exists_of_kerase (mem_keys_of_mem member)
  have same : record = old := by
    have again : (⟨addr, record⟩ : Sigma fun _ : Nat => ρ) ∈ heap.records.entries := by
      rw [parts]
      simp
    exact some.inj ((mem_entries_iff.mp again).symm.trans there)
  subst same
  show countP _ (kerase addr heap.records.entries) + _ = countP _ heap.records.entries
  rw [rest, parts, countP_append, countP_append, countP_cons, ← ite_toNat]
  exact Nat.add_assoc _ _ _

theorem count_new (absent : heap.get addr = none) (new : ρ) :
    (heap.set addr new).count p = heap.count p + (p new).toNat := by
  show countP _ (heap.records.insert addr new).entries = _
  rw [AList.entries_insert_of_notMem (AList.lookup_eq_none.mp absent), countP_cons, ite_toNat]
  rfl

theorem count_set (there : heap.get addr = some old) (new : ρ) :
    (heap.set addr new).count p + (p old).toNat = heap.count p + (p new).toNat := by
  have erased := count_free p there
  have inserted : (heap.set addr new).count p = (heap.free addr).count p + (p new).toNat := by
    show countP _ (heap.records.insert addr new).entries = _
    rw [AList.entries_insert, countP_cons, ite_toNat]
    rfl
  omega

variable {p}

theorem count_congr {q : ρ → Bool}
    (same : ∀ addr record, heap.get addr = some record → p record = q record) :
    heap.count p = heap.count q := by
  refine countP_congr ?_
  rintro ⟨addr, record⟩ member
  rw [same addr record (mem_entries_iff.mp member)]

theorem count_eq_zero_iff : heap.count p = 0 ↔
    ∀ addr record, heap.get addr = some record → p record = false := by
  unfold count
  rw [countP_eq_zero]
  constructor
  · intro none addr record there
    simpa using none ⟨addr, record⟩ (mem_entries_iff.mpr there)
  · rintro none ⟨addr, record⟩ member
    simpa using none addr record (mem_entries_iff.mp member)

end Count

/-! ### Keys -/

section Distinct

variable {κ : Type*} {heap : Heap ρ} {key : ρ → Option κ} {addr : Nat} {old new : ρ}

/-- No two records have the same key; a record may have none. -/
def Distinct (heap : Heap ρ) (key : ρ → Option κ) : Prop :=
  ∀ {addr other record now k}, heap.get addr = some record → heap.get other = some now →
    key record = some k → key now = some k → addr = other

variable (distinct : heap.Distinct key)

include distinct

theorem Distinct.set
    (absent : ∀ other now k, heap.get other = some now → other ≠ addr → key new = some k →
      key now ≠ some k) :
    (heap.set addr new).Distinct key := by
  intro first second one two k found₁ found₂ is₁ is₂
  rcases get_set_eq_some.mp found₁ with ⟨rfl, rfl⟩ | ⟨differ₁, old₁⟩ <;>
    rcases get_set_eq_some.mp found₂ with ⟨rfl, rfl⟩ | ⟨differ₂, old₂⟩
  · rfl
  · exact (absent second two k old₂ differ₂ is₁ is₂).elim
  · exact (absent first one k old₁ differ₁ is₂ is₁).elim
  · exact distinct old₁ old₂ is₁ is₂

theorem Distinct.change (there : heap.get addr = some old)
    (kept : ∀ k, key new = some k → key old = some k) : (heap.set addr new).Distinct key :=
  distinct.set fun _ _ k found differ is same => differ (distinct found there same (kept k is))

theorem Distinct.free : (heap.free addr).Distinct key :=
  fun found₁ found₂ => distinct (get_free_eq_some.mp found₁).2 (get_free_eq_some.mp found₂).2

end Distinct

/-! ### Heaps within one another -/

section Within

variable {ι : Type*} {ident : ρ → ι} {heap first second third : Heap ρ} {addr : Nat} {old new : ρ}

/-- What is on the first heap is on the second one, with the same identity. -/
def Within (ident : ρ → ι) (first second : Heap ρ) : Prop :=
  ∀ addr record, first.get addr = some record →
    ∃ other, second.get addr = some other ∧ ident other = ident record

theorem Within.refl (heap : Heap ρ) : Within ident heap heap := fun _ record there =>
  ⟨record, there, rfl⟩

theorem Within.trans (one : Within ident first second) (two : Within ident second third) :
    Within ident first third := by
  intro addr record there
  obtain ⟨middle, there, same⟩ := one addr record there
  obtain ⟨last, there, equal⟩ := two addr middle there
  exact ⟨last, there, equal.trans same⟩

theorem within_set (there : heap.get addr = some old) (same : ident new = ident old) :
    Within ident heap (heap.set addr new) ∧ Within ident (heap.set addr new) heap := by
  refine ⟨fun other record found => ?_, fun other record found => ?_⟩
  · rw [get_set]
    split
    next here =>
      rw [here, there] at found
      exact ⟨new, rfl, same.trans (congrArg ident (some.inj found))⟩
    · exact ⟨record, found, rfl⟩
  · rcases get_set_eq_some.mp found with ⟨rfl, rfl⟩ | ⟨-, found⟩
    · exact ⟨old, there, same.symm⟩
    · exact ⟨record, found, rfl⟩

theorem within_free (heap : Heap ρ) (addr : Nat) : Within ident (heap.free addr) heap :=
  fun _ record found => ⟨record, (get_free_eq_some.mp found).2, rfl⟩

theorem within_new (absent : heap.get addr = none) (new : ρ) :
    Within ident heap (heap.set addr new) := by
  intro other record found
  rw [get_set, if_neg]
  · exact ⟨record, found, rfl⟩
  · rintro rfl
    rw [absent] at found
    cases found

end Within

end Heap

end KernelImx.Lib
