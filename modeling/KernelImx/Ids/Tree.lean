/-
**The radix tree of an `idr`.**
-/

import KernelImx.Ids.Layer
import KernelImx.Lib.Counting

namespace KernelImx.Ids

open BitVec Nat Bool
open List hiding count

variable {α : Type} {bitmap bitmap' : BitVec 32} {n i l id first second level count : Nat}
  {ary : Nat → Slot α} {slot child : Slot α} {ptr : Option α}

/-! ### Bits and digits -/

theorem digit_lt (id l : Nat) : digit id l < idrSize := mod_lt _ (by decide)

theorem getLsbD_setBit (small : i < idrSize) :
    (setBit bitmap n).getLsbD i = if i = n then true else bitmap.getLsbD i := by
  unfold setBit
  have inside : i < 32 := small
  by_cases same : i = n
  · subst same
    simp [inside]
  · simp [same, Ne.symm same]

theorem getLsbD_clearBit (small : i < idrSize) :
    (clearBit bitmap n).getLsbD i = if i = n then false else bitmap.getLsbD i := by
  unfold clearBit
  have inside : i < 32 := small
  by_cases same : i = n
  · subst same
    simp [inside]
  · simp [same, inside]

theorem getLsbD_same {value : Bool} (bit : bitmap.getLsbD n = value) (i : Nat) :
    bitmap.getLsbD i = if i = n then value else bitmap.getLsbD i := by
  split
  next same => rw [same, bit]
  · rfl

theorem getLsbD_mark {full : Prop} [Decidable full] (clear : bitmap.getLsbD n = false)
    (small : i < idrSize) : (if full then setBit bitmap n else bitmap).getLsbD i =
      if i = n then decide full else bitmap.getLsbD i := by
  by_cases isFull : full
  · rw [if_pos isFull, getLsbD_setBit small, decide_eq_true isFull]
  · rw [if_neg isFull, decide_eq_false isFull]
    exact getLsbD_same clear i

theorem getLsbD_of_full (full : decide (bitmap = idrFull) = true) (small : i < idrSize) :
    bitmap.getLsbD i = true := by
  rw [of_decide_eq_true full, idrFull, getLsbD_allOnes]
  exact decide_eq_true small

theorem countP_range_update {p q : Nat → Bool} (small : n < idrSize)
    (same : ∀ i < idrSize, i ≠ n → q i = p i) :
    (range idrSize).countP q + (p n).toNat = (range idrSize).countP p + (q n).toNat :=
  Lib.countP_update nodup_range (mem_range.mpr small) fun i inside => same i (mem_range.mp inside)

/-! ### The tree -/

/-- Is the id taken in the tree below a layer at level `l`? -/
def used : Nat → Slot α → Nat → Bool
  | 0, .layer bitmap _ _ _, id => bitmap.getLsbD (digit id 0)
  | l + 1, .layer _ ary _ _, id => used l (ary (digit id (l + 1))) id
  | _, _, _ => false

def ptrAt : Nat → Slot α → Nat → Option α
  | 0, .layer _ ary _ _, id => (ary (digit id 0)).toPtr
  | l + 1, .layer _ ary _ _, id => ptrAt l (ary (digit id (l + 1))) id
  | _, _, _ => none

/-- What the tree says about an id. -/
def cell (l : Nat) (slot : Slot α) (id : Nat) : Bool × Option α := (used l slot id, ptrAt l slot id)

/-- **A layer at level `l` in order.** -/
def Tree : Nat → Slot α → Prop
  | 0, .layer bitmap ary count level =>
    level = 0 ∧ count = (range idrSize).countP (fun n => bitmap.getLsbD n) ∧
      ∀ n < idrSize, bitmap.getLsbD n = false → (ary n).isNull = true
  | l + 1, .layer bitmap ary count level =>
    level = l + 1 ∧ count = (range idrSize).countP (fun n => !(ary n).isNull) ∧
      ∀ n < idrSize, bitmap.getLsbD n = (ary n).full ∧ ((ary n).isNull = false → Tree l (ary n))
  | _, _ => False

theorem eq_null (null : slot.isNull = true) : slot = .null := by
  cases slot with
  | null => rfl
  | user | layer => cases null

theorem cell_of_isNull (null : slot.isNull = true) (l id : Nat) : cell l slot id = (false, none) := by
  rw [eq_null null]
  cases l <;> rfl

theorem Tree.not_null (tree : Tree l slot) : slot.isNull = false := by
  cases slot with
  | null => cases l <;> exact tree.elim
  | user | layer => rfl

theorem Tree.is_layer (tree : Tree l slot) :
    ∃ bitmap ary count, slot = .layer bitmap ary count l := by
  cases slot with
  | null | user => cases l <;> exact tree.elim
  | layer bitmap ary count level =>
    have level_eq : level = l := by cases l <;> exact tree.1
    exact ⟨bitmap, ary, count, level_eq ▸ rfl⟩

theorem full_of_isNull (null : slot.isNull = true) : slot.full = false := by
  rw [eq_null null]
  rfl

theorem not_null_of_full (full : slot.full = true) : slot.isNull = false := by
  cases slot with
  | null | user => cases full
  | layer => rfl

/-- Every id below a layer with a full bitmap is taken. -/
theorem Tree.used_of_full (tree : Tree l slot) (full : slot.full = true) (id : Nat) :
    used l slot id = true := by
  induction l generalizing slot <;> obtain ⟨bitmap, ary, count, rfl⟩ := tree.is_layer
  case zero => exact getLsbD_of_full full (digit_lt id 0)
  case succ l ih =>
    have small := digit_lt id (l + 1)
    obtain ⟨bit, child⟩ := tree.2.2 _ small
    rw [getLsbD_of_full full small] at bit
    exact ih (child (not_null_of_full bit.symm)) bit.symm

theorem Tree.not_full (tree : Tree l slot) (free : used l slot id = false) :
    slot.full = false := by
  by_contra full
  rw [tree.used_of_full (by simpa using full) id] at free
  cases free

/-! ### A pointer goes in -/

/-- Two ids with the same way down from level `l`. -/
def SameBelow (l first second : Nat) : Prop := ∀ k ≤ l, digit first k = digit second k

theorem SameBelow.refl (l id : Nat) : SameBelow l id id := fun _ _ => rfl

theorem sameBelow_zero : SameBelow 0 first second ↔ digit first 0 = digit second 0 :=
  ⟨fun same => same 0 (le_refl 0), fun same _ low => le_zero.mp low ▸ same⟩

theorem sameBelow_succ : SameBelow (l + 1) first second ↔
    digit first (l + 1) = digit second (l + 1) ∧ SameBelow l first second := by
  constructor
  · exact fun same => ⟨same (l + 1) le_rfl, fun k low => same k (le_succ_of_le low)⟩
  rintro ⟨here, below⟩ k low
  rcases lt_or_eq_of_le low with less | rfl
  · exact below k (Nat.lt_succ_iff.mp less)
  · exact here

instance decidableSameBelow (l first second : Nat) : Decidable (SameBelow l first second) := by
  induction l with
  | zero => exact decidable_of_iff _ sameBelow_zero.symm
  | succ l ih => exact decidable_of_iff _ sameBelow_succ.symm

/-- The way down to the leaf of an id is there. -/
def Present : Nat → Slot α → Nat → Prop
  | 0, slot, _ => slot.isNull = false
  | l + 1, .layer _ ary _ _, id => Present l (ary (digit id (l + 1))) id
  | _ + 1, _, _ => False

/-- The pointer is installed in its leaf, and the full bits above are set. -/
def ins (id : Nat) (ptr : Option α) : Nat → Slot α → Slot α
  | 0, slot => installPtr id ptr slot
  | l + 1, .layer bitmap ary count level =>
    let n := digit id (l + 1)
    let child := ins id ptr l (ary n)
    .layer (if child.full then setBit bitmap n else bitmap) (setAry ary n child) count level
  | _ + 1, slot => slot

theorem isNull_of_present (present : Present l slot id) : slot.isNull = false := by
  cases slot with
  | null => cases l <;> cases present
  | user | layer => rfl

@[simp] theorem setAry_self (ary : Nat → Slot α) (n : Nat) (slot : Slot α) :
    setAry ary n slot n = slot := if_pos rfl

theorem setAry_ne (ary : Nat → Slot α) {other : Nat} (slot : Slot α) (differ : other ≠ n) :
    setAry ary n slot other = ary other := if_neg differ

theorem toPtr_ofPtr (ptr : Option α) : (Slot.ofPtr ptr).toPtr = ptr := by
  cases ptr <;> rfl

theorem cell_setAry (other : Nat) : cell (l + 1) (.layer bitmap (setAry ary n child) count level) other =
    if digit other (l + 1) = n then cell l child other else cell l (ary (digit other (l + 1))) other := by
  show cell l (setAry ary n child (digit other (l + 1))) other = _
  unfold setAry
  split <;> rfl

theorem cell_setChild {value : Bool × Option α} {count' level' : Nat}
    (changed : ∀ other, cell l child other =
      if SameBelow l other id then value else cell l (ary (digit id (l + 1))) other) (other : Nat) :
    cell (l + 1) (.layer bitmap' (setAry ary (digit id (l + 1)) child) count' level') other =
      if SameBelow (l + 1) other id then value
      else cell (l + 1) (.layer bitmap ary count level) other := by
  rw [cell_setAry, changed]
  by_cases same : digit other (l + 1) = digit id (l + 1)
  · simp [sameBelow_succ, same, cell, used, ptrAt]
  · rw [if_neg same, if_neg fun both => same (sameBelow_succ.mp both).1]
    rfl

/-- **A child is changed**: the bit of the child says whether it is full, the other bits stay. -/
theorem Tree.setChild (tree : Tree (l + 1) (.layer bitmap ary count level)) (small : n < idrSize)
    (count' : Nat) (below : child.isNull = false → Tree l child)
    (bits : ∀ i < idrSize, bitmap'.getLsbD i = if i = n then child.full else bitmap.getLsbD i)
    (counts : count' = count + (!child.isNull).toNat - (!(ary n).isNull).toNat) :
    Tree (l + 1) (.layer bitmap' (setAry ary n child) count' level) := by
  obtain ⟨level_eq, count_eq, children⟩ := tree
  refine ⟨level_eq, ?_, fun i inside => ?_⟩
  · have step := @countP_range_update n (fun i => !(ary i).isNull)
      (fun i => !(setAry ary n child i).isNull) small fun i _ differ => by rw [setAry_ne _ _ differ]
    rw [setAry_self] at step
    omega
  rw [bits i inside]
  by_cases same : i = n
  · rw [if_pos same, same, setAry_self]
    exact ⟨rfl, below⟩
  · rw [if_neg same, setAry_ne _ _ same]
    exact children i inside

theorem not_null_of_used (taken : used l slot id = true) : slot.isNull = false := by
  by_contra null
  cases taken.symm.trans (congrArg Prod.fst (cell_of_isNull (by simpa using null) l id))

theorem Tree.setLeaf (tree : Tree 0 (.layer bitmap ary count level)) (value : Bool) (ptr : Option α)
    (count' : Nat)
    (bits : ∀ i < idrSize, bitmap'.getLsbD i = if i = digit id 0 then value else bitmap.getLsbD i)
    (counts : count' = count + value.toNat - (bitmap.getLsbD (digit id 0)).toNat)
    (null : value = false → ptr = none) :
    Tree 0 (.layer bitmap' (setAry ary (digit id 0) (.ofPtr ptr)) count' level) ∧ ∀ other,
      cell 0 (.layer bitmap' (setAry ary (digit id 0) (.ofPtr ptr)) count' level) other =
        if SameBelow 0 other id then (value, ptr) else cell 0 (.layer bitmap ary count level) other := by
  obtain ⟨level_eq, count_eq, pointers⟩ := tree
  have small := digit_lt id 0
  refine ⟨⟨level_eq, ?_, fun n inside clear => ?_⟩, fun other => ?_⟩
  · have step := @countP_range_update _ (fun n => bitmap.getLsbD n) (fun n => bitmap'.getLsbD n) small
      fun i inside differ => (bits i inside).trans (if_neg differ)
    rw [bits _ small, if_pos rfl] at step
    omega
  · rw [bits n inside] at clear
    by_cases same : n = digit id 0
    · rw [if_pos same] at clear
      rw [same, setAry_self, null clear]
      rfl
    · rw [if_neg same] at clear
      rw [setAry_ne _ _ same]
      exact pointers n inside clear
  · show (bitmap'.getLsbD (digit other 0), (setAry ary _ (.ofPtr ptr) (digit other 0)).toPtr) = _
    rw [bits _ (digit_lt other 0)]
    by_cases same : digit other 0 = digit id 0
    · rw [if_pos (sameBelow_zero.mpr same), if_pos same, same, setAry_self, toPtr_ofPtr]
    · rw [if_neg fun below => same (sameBelow_zero.mp below), if_neg same, setAry_ne _ _ same]
      rfl

theorem ins_spec (tree : Tree l slot) (present : Present l slot id)
    (free : used l slot id = false) :
    Tree l (ins id ptr l slot) ∧ ∀ other, cell l (ins id ptr l slot) other =
      if SameBelow l other id then (true, ptr) else cell l slot other := by
  induction l generalizing slot <;> obtain ⟨bitmap, ary, count, rfl⟩ := tree.is_layer
  case zero =>
    have free' : bitmap.getLsbD (digit id 0) = false := free
    exact tree.setLeaf _ _ _ (fun i inside => getLsbD_setBit inside) (by rw [free']; rfl) nofun
  case succ l ih =>
    have small := digit_lt id (l + 1)
    obtain ⟨bit, child⟩ := tree.2.2 _ small
    have there : (ary (digit id (l + 1))).isNull = false := isNull_of_present present
    obtain ⟨below, changed⟩ := ih (child there) present free
    rw [(child there).not_full free] at bit
    refine ⟨tree.setChild small _ (fun _ => below) (fun i inside => ?_) ?_, cell_setChild changed⟩
    · rw [getLsbD_mark bit inside, decide_eq_true]
    · rw [there, below.not_null]
      rfl

/-! ### A pointer is replaced or found -/

theorem replaceLoop_spec (tree : Tree l slot) (taken : used l slot id = true) :
    ∃ next, replaceLoop id ptr l slot = some (next, ptrAt l slot id) ∧
      Tree l next ∧ next.full = slot.full ∧ ∀ other, cell l next other =
        if SameBelow l other id then (true, ptr) else cell l slot other := by
  induction l generalizing slot <;> obtain ⟨bitmap, ary, count, rfl⟩ := tree.is_layer
  case zero =>
    have bit : bitmap.getLsbD (digit id 0) = true := taken
    obtain ⟨below, changed⟩ := tree.setLeaf true ptr count (fun i _ => getLsbD_same bit i)
      (by rw [bit]; rfl) nofun
    exact ⟨_, by rw [replaceLoop, if_pos bit]; rfl, below, rfl, changed⟩
  case succ l ih =>
    have small := digit_lt id (l + 1)
    obtain ⟨bit, child⟩ := tree.2.2 _ small
    have taken' : used l (ary (digit id (l + 1))) id = true := taken
    have there := not_null_of_used taken'
    obtain ⟨next, call, below, full, changed⟩ := ih (child there) taken'
    refine ⟨.layer bitmap (setAry ary (digit id (l + 1)) next) count (l + 1),
      by rw [replaceLoop, call]; rfl,
      tree.setChild small _ (fun _ => below) (fun i _ => getLsbD_same (bit.trans full.symm) i) ?_, rfl,
      cell_setChild changed⟩
    rw [there, below.not_null]
    rfl

theorem findLoop_null (id : Nat) (null : slot.isNull = true) (n : Nat) :
    findLoop id n slot = some .null := by
  rw [eq_null null]
  cases n <;> rfl

theorem findLoop_spec (tree : Tree l slot) :
    (findLoop id (l + 1) slot).map Slot.toPtr = some (ptrAt l slot id) := by
  induction l generalizing slot <;> obtain ⟨bitmap, ary, count, rfl⟩ := tree.is_layer
  case zero => rfl
  case succ l ih =>
    rw [findLoop, if_neg (not_not.mpr rfl)]
    cases there : (ary (digit id (l + 1))).isNull with
    | true =>
      rw [findLoop_null id there]
      exact congrArg some (congrArg Prod.snd (cell_of_isNull there l id)).symm
    | false => exact ih ((tree.2.2 _ (digit_lt id (l + 1))).2 there)

/-! ### A pointer goes out -/

theorem Tree.slots_of_count (tree : Tree l (.layer bitmap ary 0 level)) :
    level = l ∧ ∀ n < idrSize, bitmap.getLsbD n = false ∧ (ary n).isNull = true := by
  cases l with
  | zero =>
    obtain ⟨level_eq, count_eq, pointers⟩ := tree
    refine ⟨level_eq, fun n inside => ?_⟩
    have clear : bitmap.getLsbD n = false := by
      simpa using countP_eq_zero.mp count_eq.symm _ (mem_range.mpr inside)
    exact ⟨clear, pointers n inside clear⟩
  | succ l =>
    obtain ⟨level_eq, count_eq, children⟩ := tree
    refine ⟨level_eq, fun n inside => ?_⟩
    have null : (ary n).isNull = true := by
      simpa using countP_eq_zero.mp count_eq.symm _ (mem_range.mpr inside)
    exact ⟨(children n inside).1.trans (full_of_isNull null), null⟩

theorem Tree.cell_of_count (tree : Tree l (.layer bitmap ary 0 level)) (id : Nat) :
    cell l (.layer bitmap ary 0 level) id = (false, none) := by
  obtain ⟨-, slots⟩ := tree.slots_of_count
  obtain ⟨clear, null⟩ := slots _ (digit_lt id l)
  cases l with
  | zero => exact congrArg₂ Prod.mk clear (congrArg Slot.toPtr (eq_null null))
  | succ l => exact cell_of_isNull null l id

theorem dropCount_spec (tree : Tree l (.layer bitmap ary (count - 1) level)) :
    ∃ slot, dropCount (.layer bitmap ary count level) = slot ∧ (slot.isNull = false → Tree l slot) ∧
      cell l slot = cell l (.layer bitmap ary (count - 1) level) := by
  have shape : dropCount (.layer bitmap ary count level) =
      if count = 1 then .null else .layer bitmap ary (count - 1) level := rfl
  rw [shape]
  by_cases one : count = 1
  · subst one
    refine ⟨.null, rfl, nofun, funext fun other => ?_⟩
    exact (@cell_of_isNull α .null rfl l other).trans (tree.cell_of_count other).symm
  · rw [if_neg one]
    exact ⟨_, rfl, fun _ => tree, rfl⟩

theorem subRemove_spec (tree : Tree l slot) (taken : used l slot id = true) :
    ∃ left, subRemove id l slot = (left, true) ∧ (left.isNull = false → Tree l left) ∧
      ∀ other, cell l left other =
        if SameBelow l other id then (false, none) else cell l slot other := by
  induction l generalizing slot <;> obtain ⟨bitmap, ary, count, rfl⟩ := tree.is_layer
  case zero =>
    have bit : bitmap.getLsbD (digit id 0) = true := taken
    obtain ⟨leaf, changed⟩ := tree.setLeaf false none (count - 1)
      (fun i inside => getLsbD_clearBit inside) (by rw [bit]; rfl) fun _ => rfl
    obtain ⟨_, dropped, kept, same⟩ := dropCount_spec leaf
    rw [subRemove, if_pos bit]
    exact ⟨_, congrArg (·, true) dropped, kept, same ▸ changed⟩
  case succ l ih =>
    have small := digit_lt id (l + 1)
    obtain ⟨-, child⟩ := tree.2.2 _ small
    have taken' : used l (ary (digit id (l + 1))) id = true := taken
    have there := not_null_of_used taken'
    obtain ⟨left, found, below, changed⟩ := ih (child there) taken'
    have notFull : left.full = false := by
      cases freed : left.isNull with
      | true => exact full_of_isNull freed
      | false =>
        refine @Tree.not_full α l id left (below freed) ?_
        exact congrArg Prod.fst ((changed id).trans (if_pos (SameBelow.refl l id)))
    have set := tree.setChild small (count - left.isNull.toNat) below
      (fun i inside => notFull.symm ▸ getLsbD_clearBit inside) (by rw [there]; cases left.isNull <;> rfl)
    rw [subRemove]
    simp only [found, Bool.true_and]
    cases freed : left.isNull with
    | true =>
      rw [freed] at set
      obtain ⟨_, dropped, kept, same⟩ := dropCount_spec set
      rw [if_pos rfl, dropped]
      exact ⟨_, rfl, kept, same ▸ cell_setChild changed⟩
    | false =>
      rw [freed] at set
      exact ⟨_, rfl, fun _ => set, cell_setChild changed⟩

/-! ### Layers at the top -/

theorem emptyLayer_tree (l : Nat) : Tree l (emptyLayer l : Slot α) := by
  have clear : ∀ n, (0 : BitVec 32).getLsbD n = false := fun n => getLsbD_zero
  cases l with
  | zero =>
    refine ⟨rfl, ?_, fun n _ _ => rfl⟩
    exact (countP_eq_zero.mpr fun n _ => by rw [clear]; exact false_ne_true).symm
  | succ l =>
    refine ⟨rfl, ?_, fun n _ => ⟨clear n, nofun⟩⟩
    exact (countP_eq_zero.mpr fun n _ => false_ne_true).symm

theorem lift_tree (tree : Tree l (.layer bitmap ary 0 level)) :
    Tree (l + 1) (.layer bitmap ary 0 (level + 1)) := by
  obtain ⟨rfl, slots⟩ := tree.slots_of_count
  refine ⟨rfl, ?_, fun n inside => ?_⟩
  · refine (countP_eq_zero.mpr fun n member => ?_).symm
    rw [(slots n (mem_range.mp member)).2]
    exact false_ne_true
  · obtain ⟨clear, null⟩ := slots n inside
    rw [clear, full_of_isNull null, null]
    exact ⟨rfl, nofun⟩

/-- **A layer is added at the top**: the tree below is its child 0. -/
theorem raise_spec (tree : Tree l slot) :
    Tree (l + 1) (raise slot (l + 1)) ∧ ∀ other, cell (l + 1) (raise slot (l + 1)) other =
      if digit other (l + 1) = 0 then cell l slot other else (false, none) := by
  obtain ⟨bitmap, ary, count, rfl⟩ := tree.is_layer
  refine ⟨(emptyLayer_tree (l + 1)).setChild (by decide) _ (fun _ => tree)
    (fun i inside => getLsbD_mark getLsbD_zero inside) rfl, fun other => ?_⟩
  · unfold raise
    rw [cell_setAry, @cell_of_isNull α .null rfl]

end KernelImx.Ids
