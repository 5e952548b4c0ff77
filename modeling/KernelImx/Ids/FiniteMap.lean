/-
**An idr is a finite map below `2 ^ 30`.**

A run allocates ids, replaces and removes the pointers of allocated ids, in any order. Beside the idr
goes the map of what has been handed out.

* **`idr_finite_map`**: as long as every allocation finds a free id in `[starting_id, 2 ^ 30)`, the
  new id is the smallest free one, it is found, and nothing else changes.
-/

import KernelImx.Lib.Runs
import KernelImx.Ids.Growth

namespace KernelImx.Ids

open KernelImx.Lib Nat Option
open List hiding count

variable {α : Type} {l h id level : Nat} {slot top : Slot α} {ary : Nat → Slot α} {bitmap : BitVec 32}
  {idr : Idr α} {map : Nat → Option (Option α)}

/-! ### The other calls -/

theorem Tree.ptrAt_of_unused (tree : Tree l slot) (free : used l slot id = false) :
    ptrAt l slot id = none := by
  induction l generalizing slot <;> obtain ⟨bitmap, ary, count, rfl⟩ := tree.is_layer
  case zero => exact congrArg Slot.toPtr (eq_null (tree.2.2 _ (digit_lt id 0) free))
  case succ l ih =>
    by_cases null : (ary (digit id (l + 1))).isNull = true
    · exact congrArg Prod.snd (cell_of_isNull null l id)
    · exact ih ((tree.2.2 _ (digit_lt id (l + 1))).2 (by simpa using null)) free

theorem idrFind_spec (holds : Holds idr map) (small : id < maxIdBit) :
    idrFind idr id = some (map id).join := by
  rcases holds with ⟨null, empty⟩ | ⟨h, -, -, shown⟩
  · rw [empty]
    unfold idrFind
    rw [eq_null null]
    rfl
  obtain ⟨bitmap, ary, count, top⟩ := shown.tree.is_layer
  rw [shown.value id]
  unfold idrFind
  simp only [top, mod_eq_of_lt small]
  rw [← top]
  by_cases inside : id < idrSize ^ (h + 1)
  · rw [if_neg (not_le.mpr inside), findLoop_spec shown.tree, if_pos inside, held]
    split
    · rfl
    next free =>
      rw [shown.tree.ptrAt_of_unused (Bool.eq_false_iff.mpr free)]
      rfl
  · rw [if_pos (not_lt.mp inside), if_neg inside]
    rfl

theorem Shows.inside (shown : Shows h top map) (there : map id ≠ none) :
    id < idrSize ^ (h + 1) ∧ used h top id = true := by
  by_cases inside : id < idrSize ^ (h + 1)
  · exact ⟨inside, shown.isSome_eq inside ▸ isSome_iff_ne_none.mpr there⟩
  · rw [shown.value, if_neg inside] at there
    exact absurd rfl there

theorem lt_maxIdBit_of_inside (high : h ≤ 5) (inside : id < idrSize ^ (h + 1)) :
    id < maxIdBit := by
  have bound := pow_idrSize_le high
  unfold maxIdBit
  omega

theorem idrReplace_spec (holds : Holds idr map) (there : map id ≠ none) (ptr : Option α) :
    ∃ idr', idrReplace idr ptr id = (idr', .ok (map id).join) ∧ Holds idr' (put map id (some ptr)) := by
  rcases holds with ⟨-, empty⟩ | ⟨h, high, layers, shown⟩
  · exact absurd (empty id) there
  obtain ⟨inside, taken⟩ := shown.inside there
  obtain ⟨next, run, tree, -, changed⟩ := @replaceLoop_spec α h id _ ptr shown.tree taken
  obtain ⟨bitmap, ary, count, top⟩ := shown.tree.is_layer
  refine ⟨{ idr with top := next }, ?_, .inr ⟨h, high, layers, tree, shown.put inside changed⟩⟩
  unfold idrReplace
  simp only [top, mod_eq_of_lt (lt_maxIdBit_of_inside high inside)]
  rw [← top, if_neg (not_le.mpr inside), run, shown.value, if_pos inside,
    show held (cell h idr.top id) = _ from if_pos taken]
  rfl

theorem Tree.only_first (tree : Tree (l + 1) (.layer bitmap ary 1 level))
    (first : (ary 0).isNull = false) {n : Nat} (inside : n < idrSize) (other : n ≠ 0) :
    (ary n).isNull = true := by
  have empty := Lib.countP_eq_one tree.2.1.symm (mem_range.mpr (by decide))
    (by rw [first]; rfl) n (mem_range.mpr inside) other
  simpa using empty

theorem Shows.lower (shown : Shows (l + 1) (.layer bitmap ary 1 level) map)
    (first : (ary 0).isNull = false) : Shows l (ary 0) map := by
  refine ⟨(shown.tree.2.2 0 (by decide)).2 first, fun other => ?_⟩
  have below : cell (l + 1) (.layer bitmap ary 1 level) other = cell l (ary (digit other (l + 1))) other :=
    rfl
  rw [shown.value, below]
  by_cases inside : other < idrSize ^ (l + 1)
  · rw [(digit_eq_zero_iff (lt_pow_succ inside)).mpr inside, if_pos inside, if_pos (lt_pow_succ inside)]
  split
  next wide =>
    have above : digit other (l + 1) ≠ 0 := fun zero => inside ((digit_eq_zero_iff wide).mp zero)
    rw [cell_of_isNull (shown.tree.only_first first (digit_lt other (l + 1)) above)]
    rfl
  · rfl

theorem shrink_spec (holds : Holds idr map) : Holds (shrink idr) map := by
  unfold shrink
  split
  case h_1 bitmap ary level top =>
    split
    case isTrue can =>
      rcases holds with ⟨null, -⟩ | ⟨h, high, layers, shown⟩
      · rw [top] at null
        cases null
      cases h with
      | zero => omega
      | succ h =>
        rw [top] at shown
        exact .inr ⟨h, by omega, by show idr.layers - 1 = h + 1; omega, shown.lower can.2⟩
    case isFalse => exact holds
  case h_2 => exact holds

theorem idrRemove_spec (holds : Holds idr map) (there : map id ≠ none) :
    Holds (idrRemove idr id) (put map id none) := by
  rcases holds with ⟨-, empty⟩ | ⟨h, high, layers, shown⟩
  · exact absurd (empty id) there
  obtain ⟨inside, taken⟩ := shown.inside there
  obtain ⟨left, result, tree, changed⟩ := @subRemove_spec α h id _ shown.tree taken
  have removed : Holds { idr with top := left, layers := if left.isNull then 0 else idr.layers }
      (put map id none) := by
    have values := shown.put inside changed
    by_cases null : left.isNull = true
    · refine .inl ⟨null, fun other => (values other).trans ?_⟩
      rw [cell_of_isNull null]
      simp [held]
    · refine .inr ⟨h, high, ?_, tree (by simpa using null), values⟩
      rw [if_neg null, layers]
  have shrunk := shrink_spec removed
  unfold idrRemove
  simp only [mod_eq_of_lt (lt_maxIdBit_of_inside high inside), layers, Nat.add_sub_cancel,
    result]
  rw [layers] at shrunk
  exact shrunk

/-! ### Runs -/

inductive Call (α : Type)
  | preGet (granted : Nat)
  | getNewAbove (ptr : Option α) (startingId : Nat)
  | replace (ptr : Option α) (id : Nat)
  | remove (id : Nat)

/-- The idr, and what has been handed out: `none` is a free id, `some ptr` an allocated one. -/
structure Handed (α : Type) where
  idr : Idr α
  map : Nat → Option (Option α)

/-- `idr_init` -/
def Handed.init : Handed α := ⟨⟨.null, 0, 0⟩, fun _ => none⟩

/-- What the caller may count on after `idr_get_new_above`. -/
def handedAfter (map : Nat → Option (Option α)) (ptr : Option α) :
    Except Errno Nat → Nat → Option (Option α)
  | .ok id => put map id (some ptr)
  | .error _ => map

/-- A call; `none` is a `BUG`. -/
def step (state : Handed α) : Call α → Option (Handed α)
  | .preGet granted => some ⟨(idrPreGet state.idr granted).1, state.map⟩
  | .getNewAbove ptr startingId =>
    (idrGetNewAbove state.idr ptr startingId).map fun (idr, result) =>
      ⟨idr, handedAfter state.map ptr result⟩
  | .replace ptr id => some ⟨(idrReplace state.idr ptr id).1, put state.map id (some ptr)⟩
  | .remove id => some ⟨idrRemove state.idr id, put state.map id none⟩

/-- The calls of the contract: the free list is filled, and only allocated ids are replaced or
removed. -/
def Proper (state : Handed α) : Call α → Prop
  | .preGet _ => True
  | .getNewAbove _ startingId => startingId < maxIdBit ∧ idrFreeMax ≤ state.idr.idFreeCnt
  | .replace _ id => state.map id ≠ none
  | .remove id => state.map id ≠ none

/-- **An id below `2 ^ 30` is free**: six layers have thirty bits. -/
def FreeBelow (state : Handed α) : Call α → Prop
  | .getNewAbove _ startingId => ∃ id, startingId ≤ id ∧ id < 2 ^ 30 ∧ state.map id = none
  | _ => True

theorem step_holds {state : Handed α} {call : Call α} (same : Holds state.idr state.map)
    (proper : Proper state call) (free : FreeBelow state call) :
    ∃ next, step state call = some next ∧ Holds next.idr next.map := by
  cases call with
  | preGet granted => exact ⟨_, rfl, same⟩
  | getNewAbove ptr startingId =>
    obtain ⟨idr, id, run, -, holds⟩ := idrGetNewAbove_spec same proper.2 free ptr
    refine ⟨⟨idr, put state.map id (some ptr)⟩, ?_, holds⟩
    rw [step, run]
    rfl
  | replace ptr id =>
    obtain ⟨idr, run, holds⟩ := idrReplace_spec same proper ptr
    refine ⟨⟨idr, put state.map id (some ptr)⟩, ?_, holds⟩
    rw [step, run]
  | remove id => exact ⟨_, rfl, idrRemove_spec same proper⟩

/-- **An idr is a finite map.** Along every run with free ids below `2 ^ 30`, `idr_find` returns
what was handed out, and an allocation returns the smallest free id from `starting_id` on and
changes no other. -/
theorem idr_finite_map {calls : List (Call α)}
    (along : Along step (fun state call => Proper state call ∧ FreeBelow state call) Handed.init calls) :
    ∃ state, exec step Handed.init calls = some state ∧
      (∀ id < maxIdBit, idrFind state.idr id = some (state.map id).join) ∧
      ∀ ptr startingId, Proper state (.getNewAbove ptr startingId) →
        FreeBelow state (.getNewAbove ptr startingId) →
          ∃ idr id, idrGetNewAbove state.idr ptr startingId = some (idr, .ok id) ∧
            IsLeast {x | startingId ≤ x ∧ state.map x = none} id ∧
            idrFind idr id = some ptr ∧
            ∀ other < maxIdBit, other ≠ id → idrFind idr other = idrFind state.idr other := by
  obtain ⟨state, run, same⟩ := exec_defined_along (fun state : Handed α => Holds state.idr state.map)
    (fun _ _ same good => step_holds same good.1 good.2) (.inl ⟨rfl, fun _ => rfl⟩) along
  refine ⟨state, run, fun id small => idrFind_spec same small, fun ptr startingId proper free => ?_⟩
  obtain ⟨idr, id, get, least, holds⟩ := idrGetNewAbove_spec same proper.2 free ptr
  have small : id < maxIdBit := by
    obtain ⟨x, low, high, unused⟩ := free
    have first : id ≤ x := least.2 ⟨low, unused⟩
    unfold maxIdBit
    omega
  refine ⟨idr, id, get, least, ?_, fun other inside differ => ?_⟩
  · rw [idrFind_spec holds small, put, if_pos rfl]
    rfl
  · rw [idrFind_spec holds inside, idrFind_spec same inside, put, if_neg differ]

def allocAndRemove : List (Call Nat) :=
  [.preGet 14, .getNewAbove (some 7) 40, .remove 40]

theorem idr_finite_map_alloc_and_remove : ∃ state, exec step Handed.init allocAndRemove = some state ∧
    ∀ id < maxIdBit, idrFind state.idr id = some (state.map id).join := by
  have along : Along step (fun state call => Proper state call ∧ FreeBelow state call) Handed.init
      allocAndRemove := by
    refine ⟨⟨trivial, trivial⟩, fun filled pre_get => ⟨?_, fun next get => ⟨⟨?_, trivial⟩, ?_⟩⟩⟩
    · cases pre_get
      exact ⟨⟨by decide, by decide⟩, 40, le_rfl, by decide, rfl⟩
    · cases pre_get
      have handed : (step (⟨(idrPreGet Handed.init.idr 14).1, Handed.init.map⟩ : Handed Nat)
          (.getNewAbove (some 7) 40)).map (fun next => (next.map 40).isSome) = some true := by
        decide +kernel
      rw [get] at handed
      exact isSome_iff_ne_none.mp (some.inj handed)
    · exact fun _ _ => trivial
  obtain ⟨state, run, found, -⟩ := idr_finite_map along
  exact ⟨state, run, found⟩

/-- **From `2 ^ 30` on** the tree does not grow: the new id is not found, and its pointer is found
under an id that was never handed out. -/
theorem new_id_not_found : ∃ state : Handed Nat,
    exec step Handed.init [.preGet 14] = some state ∧
      Proper state (.getNewAbove (some 7) (2 ^ 30)) ∧
      ∃ idr, idrGetNewAbove state.idr (some 7) (2 ^ 30) = some (idr, .ok (2 ^ 30)) ∧
        idrFind idr (2 ^ 30) = some none ∧
        idrFind state.idr 0 = some none ∧ idrFind idr 0 = some (some 7) := by
  refine ⟨⟨⟨.null, 0, 14⟩, fun _ => none⟩, rfl, ⟨by decide, by decide⟩, ?_⟩
  have run : (idrGetNewAbove (⟨.null, 0, 14⟩ : Idr Nat) (some 7) (2 ^ 30)).map
      (fun result => (result.2.toOption, idrFind result.1 (2 ^ 30), idrFind result.1 0)) =
        some (some (2 ^ 30), some none, some (some 7)) := by decide +kernel
  obtain ⟨⟨idr, result⟩, get, values⟩ := map_eq_some_iff.mp run
  simp only [Prod.mk.injEq] at values
  cases result with
  | error error => cases values.1
  | ok id =>
    obtain ⟨same, first, second⟩ := values
    cases same
    exact ⟨idr, get, first, rfl, second⟩

end KernelImx.Ids
