/-
**The search for a free slot** (`sub_alloc`).

The search keeps a pointer to a layer on the way of the id and the layers above it in `pa`. When a
layer has nothing free from the id on, the id moves on to the next block and the search goes up one
layer, or starts again at the top when the block is under another layer.

Main result: `subAlloc_spec`.
-/

import KernelImx.Ids.Tree

namespace KernelImx.Ids

open Nat Bool
open List hiding count

variable {α : Type} {second first l id x m h level count : Nat} {slot : Slot α} {p q : List Nat}
  {ary : Nat → Slot α} {bitmap : BitVec 32} {change other : Slot α → Slot α}

/-! ### Paths -/

theorem at_null (p : List Nat) : (Slot.null : Slot α).at p = .null := by
  cases p <;> rfl

theorem at_append : slot.at (p ++ q) = (slot.at p).at q := by
  induction p generalizing slot with
  | nil => rfl
  | cons n rest ih =>
    cases slot with
    | null | user => exact (at_null q).symm
    | layer bitmap ary count level => exact ih

theorem not_null_of_at (there : (slot.at (p ++ q)).isNull = false) :
    (slot.at p).isNull = false := by
  rw [at_append] at there
  cases eq : slot.at p with
  | null =>
    rw [eq, at_null] at there
    cases there
  | user | layer => rfl

theorem modify_append : slot.modify change (p ++ q) = slot.modify (Slot.modify change q) p := by
  induction p generalizing slot with
  | nil => rfl
  | cons n rest ih =>
    cases slot with
    | null | user => rfl
    | layer bitmap ary count level =>
      rw [cons_append, Slot.modify, ih]
      rfl

theorem modify_congr (same : change (slot.at p) = other (slot.at p)) :
    slot.modify change p = slot.modify other p := by
  induction p generalizing slot with
  | nil => exact same
  | cons n rest ih =>
    cases slot with
    | null | user => rfl
    | layer bitmap ary count level =>
      show Slot.layer bitmap (setAry ary n _) count level = .layer bitmap (setAry ary n _) count level
      rw [ih same]

theorem modify_modify :
    (slot.modify change p).modify other p = slot.modify (fun here => other (change here)) p := by
  induction p generalizing slot with
  | nil => rfl
  | cons n rest ih =>
    cases slot with
    | null | user => rfl
    | layer bitmap ary count level =>
      show Slot.layer bitmap (setAry (setAry ary n _) n _) count level =
        .layer bitmap (setAry ary n _) count level
      rw [setAry_self, ih]
      congr 1
      funext other
      unfold setAry
      split <;> rfl

theorem at_modify (there : (slot.at p).isNull = false) :
    (slot.modify change p).at p = change (slot.at p) := by
  induction p generalizing slot with
  | nil => rfl
  | cons n rest ih =>
    cases slot with
    | null | user => cases there
    | layer bitmap ary count level =>
      show (setAry ary n _ n).at rest = change ((ary n).at rest)
      rw [setAry_self]
      exact ih there

/-! ### The way of an id -/

/-- The indices from a layer `steps` above level `l` down to level `l`. -/
def route (id l : Nat) : Nat → List Nat
  | 0 => []
  | steps + 1 => digit id (l + steps + 1) :: route id l steps

theorem route_snoc (id l steps : Nat) :
    route id l (steps + 1) = route id (l + 1) steps ++ [digit id (l + 1)] := by
  induction steps with
  | zero => rfl
  | succ steps ih =>
    rw [route, ih, route, cons_append]
    congr 2
    omega

theorem div_pow_congr {k : Nat} (same : first / idrSize ^ l = second / idrSize ^ l) (high : l ≤ k) :
    first / idrSize ^ k = second / idrSize ^ k := by
  obtain ⟨more, rfl⟩ := Nat.exists_eq_add_of_le high
  rw [pow_add, ← Nat.div_div_eq_div_mul, ← Nat.div_div_eq_div_mul, same]

theorem digit_congr {k : Nat} (same : first / idrSize ^ l = second / idrSize ^ l) (high : l ≤ k) :
    digit first k = digit second k := by
  unfold digit
  rw [div_pow_congr same high]

theorem route_congr (same : first / idrSize ^ (l + 1) = second / idrSize ^ (l + 1)) (steps : Nat) :
    route first l steps = route second l steps := by
  induction steps with
  | zero => rfl
  | succ steps ih => rw [route, route, ih, digit_congr same (by omega)]

theorem used_route (steps : Nat) (same : ∀ k, l < k → k ≤ l + steps → digit x k = digit id k) :
    used (l + steps) slot x = used l (slot.at (route id l steps)) x ∧
      (Tree (l + steps) slot → (slot.at (route id l steps)).isNull = false →
        Tree l (slot.at (route id l steps))) := by
  induction steps generalizing slot with
  | zero => exact ⟨rfl, fun tree _ => tree⟩
  | succ steps ih =>
    cases slot with
    | null | user =>
      refine ⟨?_, fun _ null => nomatch null⟩
      exact (congrArg Prod.fst (@cell_of_isNull α .null rfl l x)).symm
    | layer bitmap ary count level =>
      obtain ⟨values, trees⟩ := @ih (ary (digit id (l + steps + 1)))
        fun k low high => same k low (by omega)
      refine ⟨?_, fun tree there => ?_⟩
      · show used (l + steps) (ary (digit x (l + steps + 1))) x = _
        rw [same (l + steps + 1) (by omega) le_rfl]
        exact values
      refine trees ((tree.2.2 _ (digit_lt id (l + steps + 1))).2 ?_) there
      exact @not_null_of_at α (.layer bitmap ary count level) [_] _ there

theorem present_of_route (there : (slot.at (route id 0 l)).isNull = false) : Present l slot id := by
  induction l generalizing slot with
  | zero => exact there
  | succ l ih =>
    cases slot with
    | null | user => cases there
    | layer bitmap ary count level =>
      refine ih ?_
      have there' : ((ary (digit id (0 + l + 1))).at (route id 0 l)).isNull = false := there
      rwa [zero_add] at there'

/-! ### The moves of the id -/

theorem div_pow_succ (x l : Nat) : x / idrSize ^ (l + 1) = x / idrSize ^ l / idrSize := by
  rw [pow_succ, Nat.div_div_eq_div_mul]

theorem pow_idrSize_pos (l : Nat) : 0 < idrSize ^ l := Nat.pow_pos (by decide)

def roundUp (id l : Nat) : Nat := (id / idrSize ^ l + 1) * idrSize ^ l

theorem lt_roundUp (id l : Nat) : id < roundUp id l := by
  rw [roundUp, mul_comm]
  exact lt_mul_div_succ id (pow_idrSize_pos l)

theorem digit_roundUp (low : id ≤ x) (high : x < roundUp id (l + 1)) :
    x / idrSize ^ (l + 1) = id / idrSize ^ (l + 1) ∧ digit id l ≤ digit x l := by
  have block : x / idrSize ^ (l + 1) = id / idrSize ^ (l + 1) := by
    refine le_antisymm ?_ (Nat.div_le_div_right low)
    exact Nat.lt_succ_iff.mp ((div_lt_iff_lt_mul (pow_idrSize_pos _)).mpr high)
  refine ⟨block, ?_⟩
  have quotients : id / idrSize ^ l ≤ x / idrSize ^ l := Nat.div_le_div_right low
  rw [div_pow_succ, div_pow_succ] at block
  unfold digit idrSize at *
  omega

def skipTo (id l m : Nat) : Nat := (id / idrSize ^ l - digit id l + m) * idrSize ^ l

/-- **The digit goes up**: the block above is the same, and the ids in between have a digit in
between. -/
theorem skipTo_spec (more : digit id l < m) (small : m < idrSize) :
    id < skipTo id l m ∧ skipTo id l m / idrSize ^ (l + 1) = id / idrSize ^ (l + 1) ∧
      digit (skipTo id l m) l = m ∧ ∀ x, id ≤ x → x < skipTo id l m →
        x / idrSize ^ (l + 1) = id / idrSize ^ (l + 1) ∧ digit id l ≤ digit x l ∧ digit x l < m := by
  have pos := pow_idrSize_pos l
  have quotient : skipTo id l m / idrSize ^ l = id / idrSize ^ l - digit id l + m :=
    Nat.mul_div_cancel _ pos
  have less : id < skipTo id l m := by
    refine (lt_mul_div_succ id pos).trans_le ?_
    rw [skipTo, mul_comm]
    refine mul_le_mul_right _ ?_
    omega
  have block : skipTo id l m / idrSize ^ (l + 1) = id / idrSize ^ (l + 1) := by
    rw [div_pow_succ, div_pow_succ, quotient]
    unfold digit at more ⊢
    generalize id / idrSize ^ l = upper at more ⊢
    unfold idrSize at *
    omega
  refine ⟨less, block, ?_, fun x low high => ?_⟩
  · unfold digit idrSize at *
    omega
  have first : id / idrSize ^ l ≤ x / idrSize ^ l := Nat.div_le_div_right low
  have second : x / idrSize ^ l < id / idrSize ^ l - digit id l + m := by
    rw [div_lt_iff_lt_mul pos]
    exact high
  rw [div_pow_succ, div_pow_succ]
  unfold digit at more second ⊢
  generalize id / idrSize ^ l = upper at more first second ⊢
  unfold idrSize at *
  omega

theorem lt_pow_of_div_eq {y : Nat} (same : x / idrSize ^ (l + 1) = y / idrSize ^ (l + 1))
    (high : l ≤ h) (small : y < idrSize ^ (h + 1)) : x < idrSize ^ (h + 1) := by
  have zero := div_pow_congr same (succ_le_succ high)
  rw [div_eq_of_lt small] at zero
  exact (Nat.div_eq_zero_iff.mp zero).resolve_left (pow_idrSize_pos _).ne'

theorem roundUp_le (high : l ≤ h) (small : id < idrSize ^ h) : roundUp id l ≤ idrSize ^ h := by
  obtain ⟨more, rfl⟩ := Nat.exists_eq_add_of_le high
  rw [roundUp, pow_add, mul_comm (idrSize ^ l)]
  refine mul_le_mul_right _ ?_
  rw [pow_add, mul_comm] at small
  exact Nat.div_lt_of_lt_mul (by rwa [mul_comm])

theorem findNextZero_spec (bitmap : BitVec 32) (n : Nat) :
    (findNextZero bitmap n = idrSize ∧ ∀ i < idrSize, n ≤ i → bitmap.getLsbD i = true) ∨
      (findNextZero bitmap n < idrSize ∧ n ≤ findNextZero bitmap n ∧
        bitmap.getLsbD (findNextZero bitmap n) = false ∧
        ∀ i, n ≤ i → i < findNextZero bitmap n → bitmap.getLsbD i = true) := by
  unfold findNextZero
  cases found : (range idrSize).find? fun m => n ≤ m && !bitmap.getLsbD m with
  | none =>
    refine .inl ⟨rfl, fun i inside low => ?_⟩
    have set := find?_eq_none.mp found i (mem_range.mpr inside)
    simpa [low] using set
  | some m =>
    refine .inr ⟨mem_range.mp (mem_of_find?_eq_some found), ?_, ?_, fun i low high => ?_⟩
    · have is := find?_some found
      simp only [and_eq_true, decide_eq_true_eq] at is
      exact is.1
    · have is := find?_some found
      simp only [and_eq_true, not_eq_true'] at is
      exact is.2
    · have earlier := (find?_range_eq_some.mp found).2.2 i high
      simpa [low] using earlier

/-! ### A layer on the way is changed -/

theorem Tree.used_of_bit (tree : Tree l (.layer bitmap ary count level))
    (bit : bitmap.getLsbD (digit x l) = true) :
    used l (.layer bitmap ary count level) x = true := by
  cases l with
  | zero => exact bit
  | succ l =>
    obtain ⟨full, below⟩ := tree.2.2 _ (digit_lt x (l + 1))
    rw [bit] at full
    exact (below (not_null_of_full full.symm)).used_of_full full.symm x

/-- Two slots that say the same about every id. -/
structure Alike (l : Nat) (first second : Slot α) : Prop where
  tree : Tree l second
  full : second.full = first.full
  cells : ∀ x, cell l second x = cell l first x

theorem Alike.setChild {child : Slot α} {count' : Nat}
    (tree : Tree (l + 1) (.layer bitmap ary count level)) (small : m < idrSize) (below : Tree l child)
    (full : child.full = bitmap.getLsbD m)
    (counts : count' = count + (!child.isNull).toNat - (!(ary m).isNull).toNat)
    (cells : ∀ x, cell l child x = cell l (ary m) x) :
    Alike (l + 1) (.layer bitmap ary count level) (.layer bitmap (setAry ary m child) count' level) := by
  refine ⟨tree.setChild small _ (fun _ => below) (fun i _ => ?_) counts, rfl, fun x => ?_⟩
  · exact getLsbD_same full.symm i
  rw [cell_setAry]
  split
  case isTrue eq =>
    rw [cells, ← eq]
    rfl
  case isFalse => rfl

/-- **A change that no id sees in a layer is a change that no id sees in the tree.** -/
theorem Alike.modify (steps : Nat) (tree : Tree (l + steps) slot)
    (there : (slot.at (route id l steps)).isNull = false)
    (same : Alike l (slot.at (route id l steps)) (change (slot.at (route id l steps)))) :
    Alike (l + steps) slot (slot.modify change (route id l steps)) := by
  induction steps generalizing slot with
  | zero => exact same
  | succ steps ih =>
    cases slot with
    | null | user => cases there
    | layer bitmap ary count level =>
      have child : (ary (digit id (l + steps + 1))).isNull = false :=
        @not_null_of_at α (.layer bitmap ary count level) [_] _ there
      obtain ⟨bit, below⟩ := tree.2.2 _ (digit_lt id (l + steps + 1))
      obtain ⟨tree', full', cells'⟩ := ih (below child) there same
      refine Alike.setChild tree (digit_lt id _) tree' (full'.trans bit.symm) ?_ cells'
      rw [child, tree'.not_null]
      rfl

theorem Alike.addLayer (tree : Tree (l + 1) (.layer bitmap ary count level)) (small : m < idrSize)
    (null : (ary m).isNull = true) :
    Alike (l + 1) (.layer bitmap ary count level) (Ids.addLayer m l (.layer bitmap ary count level)) := by
  refine Alike.setChild tree small (emptyLayer_tree l) ?_ ?_ fun x => ?_
  · rw [(tree.2.2 m small).1, full_of_isNull null]
    rfl
  · rw [null]
    rfl
  · exact ((emptyLayer_tree l).cell_of_count x).trans (cell_of_isNull null l x).symm

/-! ### The map of a tree -/

def held (cell : Bool × Option α) : Option (Option α) := if cell.1 then some cell.2 else none

/-- **A tree as a map**: an id of the tree that is taken has its pointer. -/
structure Shows (h : Nat) (top : Slot α) (map : Nat → Option (Option α)) : Prop where
  tree : Tree h top
  value : ∀ id, map id = if id < idrSize ^ (h + 1) then held (cell h top id) else none

variable {map : Nat → Option (Option α)} {top : Slot α}

theorem Shows.isSome_eq (shown : Shows h top map) (inside : id < idrSize ^ (h + 1)) :
    (map id).isSome = used h top id := by
  rw [shown.value, if_pos inside, held]
  show _ = (cell h top id).1
  cases (cell h top id).1 <;> rfl

theorem Shows.congr {other : Slot α} (shown : Shows h top map) (ids : Alike h top other) :
    Shows h other map := by
  refine ⟨ids.tree, fun id => ?_⟩
  rw [shown.value, ids.cells]

/-! ### The search -/

/-- Nothing is free in the layer, or nothing is taken: a layer the search has added. -/
def Slot.fresh : Slot α → Prop
  | .layer bitmap ary _ _ => ∀ n < idrSize, bitmap.getLsbD n = false ∧ (ary n).isNull = true
  | _ => False

/-- The search from `start` on has come to an id of a tree with `h + 1` layers. -/
structure Reached (map : Nat → Option (Option α)) (h start : Nat) (idr : Idr α) (id : Nat) : Prop where
  layers : idr.layers = h + 1
  shown : Shows h idr.top map
  low : start ≤ id
  high : id < idrSize ^ (h + 1)
  /-- Everything up to the id is taken. -/
  taken : ∀ x, start ≤ x → x < id → (map x).isSome = true

/-- **The invariant of the search**, which began in `idr₀`. -/
structure Searching (idr₀ : Idr α) (map : Nat → Option (Option α)) (h start : Nat) (s : Search α) :
    Prop extends Reached map h start s.idr s.id where
  level : s.l ≤ h
  path : s.p = route s.id s.l (h - s.l)
  there : (s.idr.top.at s.p).isNull = false
  passed : ∀ k, s.l < k → k ≤ h → s.pa k = some (route s.id k (h - k))
  top : s.pa (h + 1) = none
  /-- A layer is only added on the last way down, and there are enough of them. -/
  room : s.idr = idr₀ ∧ h ≤ s.idr.idFreeCnt ∨
    (s.idr.top.at s.p).fresh ∧ s.l ≤ s.idr.idFreeCnt

/-- **What the search finds**: the first free id, with the layers of its way. -/
structure EmptySlot (map : Nat → Option (Option α)) (start : Nat) (idr : Idr α) (pa : Passed)
    (id h : Nat) : Prop extends Reached map h start idr id where
  small : h ≤ 5
  free : (map id).isSome = false
  there : (idr.top.at (route id 0 h)).isNull = false
  passed : ∀ k ≤ h, pa k = some (route id k (h - k))
  top : pa (h + 1) = none

/-- How the search ends: with the first free id, or with nothing free from the start on. -/
def Concludes (idr₀ : Idr α) (map : Nat → Option (Option α)) (h start : Nat)
    (result : Option (Idr α × Passed × AllocResult)) : Prop :=
  (∃ idr pa id, result = some (idr, pa, .found id) ∧ EmptySlot map start idr pa id h) ∨
    (∃ pa, result = some (idr₀, pa, .needToGrow (idrSize ^ (h + 1)))) ∧
      ∀ x, start ≤ x → x < idrSize ^ (h + 1) → (map x).isSome = true

/-- The layer the search is at, and what it says about the ids below it. -/
structure AtLayer (idr₀ : Idr α) (map : Nat → Option (Option α)) (h start : Nat) (s : Search α)
    (bitmap : BitVec 32) (ary : Nat → Slot α) (count level : Nat) : Prop where
  inv : Searching idr₀ map h start s
  here : s.idr.top.at s.p = .layer bitmap ary count level
  tree : Tree s.l (.layer bitmap ary count level)
  values : ∀ x, x / idrSize ^ (s.l + 1) = s.id / idrSize ^ (s.l + 1) →
    (map x).isSome = used s.l (.layer bitmap ary count level) x

variable {pa : Passed} {idr idr₀ : Idr α} {start rounds : Nat} {s : Search α}

theorem Searching.layer (inv : Searching idr₀ map h start s) :
    ∃ bitmap ary count level, AtLayer idr₀ map h start s bitmap ary count level := by
  obtain ⟨steps, height⟩ := Nat.exists_eq_add_of_le inv.level
  have path : s.p = route s.id s.l steps := by rw [inv.path, height, Nat.add_sub_cancel_left]
  have tree : Tree s.l (s.idr.top.at s.p) := by
    rw [path]
    refine (used_route steps fun k _ _ => rfl).2 ?_ (path ▸ inv.there)
    exact height ▸ inv.shown.tree
  have values : ∀ x, x / idrSize ^ (s.l + 1) = s.id / idrSize ^ (s.l + 1) →
      (map x).isSome = used s.l (s.idr.top.at s.p) x := by
    intro x block
    rw [inv.shown.isSome_eq (lt_pow_of_div_eq block inv.level inv.high), path, height]
    exact (used_route steps fun k above _ => digit_congr block above).1
  obtain ⟨bitmap, ary, count, eq⟩ := tree.is_layer
  rw [eq] at tree values
  exact ⟨bitmap, ary, count, _, inv, eq, tree, values⟩

theorem Searching.passed_block (inv : Searching idr₀ map h start ⟨idr, id, l, p, pa⟩) {id' k n : Nat}
    (block : id / idrSize ^ (n + 1) = id' / idrSize ^ (n + 1)) (from_block : n ≤ k) (above : l < k)
    (high : k ≤ h) : pa k = some (route id' k (h - k)) := by
  refine (inv.passed k above high).trans (congrArg some (route_congr ?_ _))
  exact div_pow_congr block (succ_le_succ from_block)

theorem Reached.restart (reached : Reached map h start idr id) (keep : idr = idr₀ ∧ h ≤ idr.idFreeCnt) :
    Searching idr₀ map h start (restart idr id pa) := by
  have top : idr.layers - 1 = h := by rw [reached.layers, Nat.add_sub_cancel]
  refine ⟨reached, top.le, ?_, reached.shown.tree.not_null, fun k above high => ?_, ?_, .inl keep⟩
  · show [] = route _ _ (h - (idr.layers - 1))
    rw [top, Nat.sub_self]
    rfl
  · have above' : idr.layers - 1 < k := above
    omega
  · show (if h + 1 = idr.layers then none else pa (h + 1)) = none
    rw [if_pos reached.layers.symm]

/-- **Up**: the id moves on to the next block, and the search goes on in the layer above. -/
theorem Searching.up (inv : Searching idr₀ map h start ⟨idr, id, l, p, pa⟩)
    (keep : idr = idr₀ ∧ h ≤ idr.idFreeCnt) (reached : Reached map h start idr (roundUp id (l + 1)))
    (below : l < h) (block : id / idrSize ^ (l + 2) = roundUp id (l + 1) / idrSize ^ (l + 2)) :
    Searching idr₀ map h start ⟨idr, roundUp id (l + 1), l + 1, route id (l + 1) (h - (l + 1)), pa⟩ := by
  refine ⟨reached, below, route_congr block _, ?_,
    fun k above high => inv.passed_block block (le_of_lt above) (lt_of_succ_lt above) high, inv.top,
    .inl keep⟩
  have there : (idr.top.at p).isNull = false := inv.there
  have path : p = route id l (h - l) := inv.path
  rw [path, show h - l = h - (l + 1) + 1 by omega, route_snoc] at there
  exact not_null_of_at there

theorem AtLayer.move (layer : AtLayer idr₀ map h start s bitmap ary count level)
    (small : m < idrSize) (from_digit : digit s.id s.l ≤ m)
    (set : ∀ i, digit s.id s.l ≤ i → i < m → bitmap.getLsbD i = true) :
    ∃ id, (if m ≠ digit s.id s.l then
        (s.id / idrSize ^ s.l - digit s.id s.l + m) * idrSize ^ s.l else s.id) = id ∧
      s.id ≤ id ∧ Reached map h start s.idr id ∧ digit id s.l = m ∧
      id / idrSize ^ (s.l + 1) = s.id / idrSize ^ (s.l + 1) := by
  obtain ⟨inv, -, tree, values⟩ := layer
  by_cases same : m = digit s.id s.l
  · exact ⟨s.id, if_neg fun differ => differ same, le_rfl, inv.toReached, same.symm, rfl⟩
  obtain ⟨less, block, here, between⟩ :=
    skipTo_spec (lt_of_le_of_ne from_digit (Ne.symm same)) small
  refine ⟨skipTo s.id s.l m, if_pos same, less.le, ⟨inv.layers, inv.shown, inv.low.trans less.le,
    lt_pow_of_div_eq block inv.level inv.high, fun x low high => ?_⟩, here, block⟩
  rcases lt_or_ge x s.id with before | after
  · exact inv.taken x low before
  · obtain ⟨inside, first, last⟩ := between x after high
    rw [values x inside]
    exact tree.used_of_bit (set _ first last)

/-- **Down**: the search goes on in the layer below, which is there or is added. -/
theorem AtLayer.down (layer : AtLayer idr₀ map h start ⟨idr, id, l + 1, p, pa⟩ bitmap ary count level)
    {id' : Nat} (reached : Reached map h start idr id')
    (block : id' / idrSize ^ (l + 2) = id / idrSize ^ (l + 2)) :
    ((ary (digit id' (l + 1))).isNull = false → Searching idr₀ map h start
        ⟨idr, id', l, p ++ [digit id' (l + 1)], pa.set (l + 1) (some p)⟩) ∧
      ((ary (digit id' (l + 1))).isNull = true → 0 < idr.idFreeCnt ∧ Searching idr₀ map h start
        ⟨{ idr with top := idr.top.modify (addLayer (digit id' (l + 1)) l) p,
                    idFreeCnt := idr.idFreeCnt - 1 },
          id', l, p ++ [digit id' (l + 1)], pa.set (l + 1) (some p)⟩) := by
  obtain ⟨inv, here, tree, -⟩ := layer
  have below : l + 1 ≤ h := inv.level
  obtain ⟨steps, height⟩ := Nat.exists_eq_add_of_le below
  have path : p = route id' (l + 1) steps := by
    rw [show p = route id (l + 1) (h - (l + 1)) from inv.path, height, Nat.add_sub_cancel_left]
    exact route_congr block.symm steps
  have path' : p ++ [digit id' (l + 1)] = route id' l (h - l) := by
    rw [path, ← route_snoc, height]
    congr 1
    omega
  have passed : ∀ k, l < k → k ≤ h → Passed.set pa (l + 1) (some p) k = some (route id' k (h - k)) := by
    intro k above high
    unfold Passed.set
    split
    case isTrue eq =>
      rw [path, eq, height, Nat.add_sub_cancel_left]
    case isFalse differ => exact inv.passed_block block.symm above (by omega) high
  have top : Passed.set pa (l + 1) (some p) (h + 1) = none := by
    unfold Passed.set
    rw [if_neg (by omega)]
    exact inv.top
  refine ⟨fun there => ?_, fun null => ?_⟩
  · refine ⟨reached, le_of_lt below, path', ?_, passed, top, ?_⟩
    · rw [at_append, here]
      exact there
    rcases inv.room with keep | ⟨fresh, -⟩
    · exact .inl keep
    have fresh' : (idr.top.at p).fresh := fresh
    rw [here] at fresh'
    have null := (fresh' _ (digit_lt id' (l + 1))).2
    rw [there] at null
    cases null
  have free : l + 1 ≤ idr.idFreeCnt := by
    rcases inv.room with ⟨-, enough⟩ | ⟨-, enough⟩
    · exact below.trans enough
    · exact enough
  have child : (idr.top.modify (addLayer (digit id' (l + 1)) l) p).at (p ++ [digit id' (l + 1)]) =
      emptyLayer l := by
    rw [at_append, at_modify inv.there, here]
    exact setAry_self ary _ _
  have same : Alike h idr.top (idr.top.modify (addLayer (digit id' (l + 1)) l) p) := by
    rw [height, path]
    refine Alike.modify steps (height ▸ reached.shown.tree) (path ▸ inv.there) ?_
    rw [← path, here]
    exact Alike.addLayer tree (digit_lt id' (l + 1)) null
  refine ⟨by omega, { reached with shown := reached.shown.congr same }, le_of_lt below, path', ?_, passed,
    top, .inr ⟨?_, ?_⟩⟩
  · rw [child]
    rfl
  · rw [child]
    exact fun n _ => ⟨BitVec.getLsbD_zero, rfl⟩
  · show l ≤ idr.idFreeCnt - 1
    omega

theorem pow_idrSize_le (small : h ≤ 5) : idrSize ^ (h + 1) ≤ 2 ^ 30 := by
  calc idrSize ^ (h + 1) ≤ idrSize ^ 6 := Nat.pow_le_pow_right (by decide) (by omega)
    _ = 2 ^ 30 := by decide

def Search.left (h : Nat) (s : Search α) : Nat := (idrSize ^ (h + 1) - s.id) * 8 + s.l

section Round

variable (small : h ≤ 5)
  (layer : AtLayer idr₀ map h start ⟨idr, id, l, p, pa⟩ bitmap ary count level)
  (next : ∀ s : Search α, Searching idr₀ map h start s → s.left h < Search.left h ⟨idr, id, l, p, pa⟩ →
    Concludes idr₀ map h start (subAllocLoop rounds s))

include small layer next

theorem round_full (none_free : findNextZero bitmap (digit id l) = idrSize)
    (set : ∀ i < idrSize, digit id l ≤ i → bitmap.getLsbD i = true) :
    Concludes idr₀ map h start (subAllocLoop (rounds + 1) ⟨idr, id, l, p, pa⟩) := by
  obtain ⟨inv, here, tree, values⟩ := layer
  have bound := pow_idrSize_le small
  have inside : id < idrSize ^ (h + 1) := inv.high
  have height : l ≤ h := inv.level
  have layers : idr.layers = h + 1 := inv.layers
  have keep : idr = idr₀ ∧ h ≤ idr.idFreeCnt := by
    refine inv.room.resolve_right fun ⟨fresh, _⟩ => ?_
    have fresh' : (idr.top.at p).fresh := fresh
    rw [here] at fresh'
    have clear := (fresh' _ (digit_lt id l)).1
    rw [set _ (digit_lt id l) le_rfl] at clear
    cases clear
  have taken : ∀ x, start ≤ x → x < roundUp id (l + 1) → (map x).isSome = true := by
    intro x low high
    rcases lt_or_ge x id with before | after
    · exact inv.taken x low before
    obtain ⟨block, more⟩ := digit_roundUp after high
    rw [values x block]
    exact tree.used_of_bit (set _ (digit_lt x l) more)
  have le : roundUp id (l + 1) ≤ idrSize ^ (h + 1) := roundUp_le (by omega) inside
  have moved : (id / idrSize ^ (l + 1) + 1) * idrSize ^ (l + 1) % 2 ^ 32 = roundUp id (l + 1) :=
    mod_eq_of_lt (by show roundUp id (l + 1) < 2 ^ 32; omega)
  have more := lt_roundUp id (l + 1)
  rw [subAllocLoop]
  simp only [here]
  rw [if_pos none_free, moved, layers]
  rcases lt_or_ge (roundUp id (l + 1)) (idrSize ^ (h + 1)) with within | behind
  · have below : l < h := by
      refine lt_of_le_of_ne height fun eq => ?_
      rw [eq, roundUp, div_eq_of_lt inside, zero_add, one_mul] at within
      exact lt_irrefl _ within
    have reached : Reached map h start idr (roundUp id (l + 1)) :=
      ⟨layers, inv.shown, inv.low.trans more.le, within, taken⟩
    rw [if_neg (fun grow => absurd within (not_lt.mpr grow.2)),
      show pa (l + 1) = _ from inv.passed (l + 1) (lt_succ_self l) below]
    dsimp only
    split
    case isTrue block =>
      refine next _ (inv.up keep reached below block) ?_
      show (idrSize ^ (h + 1) - roundUp id (l + 1)) * 8 + (l + 1) < (idrSize ^ (h + 1) - id) * 8 + l
      omega
    case isFalse block =>
      refine next _ (reached.restart keep) ?_
      show (idrSize ^ (h + 1) - roundUp id (l + 1)) * 8 + (idr.layers - 1) <
        (idrSize ^ (h + 1) - id) * 8 + l
      omega
  · have all : roundUp id (l + 1) = idrSize ^ (h + 1) := le_antisymm le behind
    refine .inr ⟨⟨pa, ?_⟩, fun x low high => taken x low (all ▸ high)⟩
    rw [if_pos ⟨by rw [all]; unfold maxIdBit; omega, behind⟩, all, keep.1]

theorem round_free (within : findNextZero bitmap (digit id l) < idrSize)
    (from_digit : digit id l ≤ findNextZero bitmap (digit id l))
    (free : bitmap.getLsbD (findNextZero bitmap (digit id l)) = false)
    (set : ∀ i, digit id l ≤ i → i < findNextZero bitmap (digit id l) → bitmap.getLsbD i = true) :
    Concludes idr₀ map h start (subAllocLoop (rounds + 1) ⟨idr, id, l, p, pa⟩) := by
  have bound := pow_idrSize_le small
  obtain ⟨id', id_eq, more, reached, digit_eq, block⟩ := layer.move within from_digit set
  have ⟨inv, here, _, values⟩ := layer
  have inside := reached.high
  simp only at id_eq more digit_eq block
  have moved : (if findNextZero bitmap (digit id l) ≠ digit id l then
      (id / idrSize ^ l - digit id l + findNextZero bitmap (digit id l)) * idrSize ^ l % 2 ^ 32
      else id) = id' := by
    rw [← id_eq] at inside ⊢
    split
    case isTrue differ =>
      rw [if_pos differ] at inside
      exact mod_eq_of_lt (by omega)
    case isFalse => rfl
  have allowed : ¬ id' ≥ maxIdBit := by
    unfold maxIdBit
    omega
  rw [subAllocLoop]
  simp only [here]
  rw [if_neg (Nat.ne_of_lt within), moved, if_neg allowed]
  cases l with
  | zero =>
    have path : p = route id' 0 h := by
      rw [show p = route id 0 (h - 0) from inv.path, Nat.sub_zero]
      exact route_congr block.symm h
    refine .inl ⟨idr, pa.set 0 (some p), id', rfl, reached, small, ?_, path ▸ inv.there,
      fun k high => ?_, inv.top⟩
    · rw [values id' block]
      show bitmap.getLsbD (digit id' 0) = false
      rw [digit_eq, free]
    · unfold Passed.set
      split
      case isTrue zero =>
        rw [zero, Nat.sub_zero, path]
      case isFalse differ => exact inv.passed_block block.symm (zero_le k) (pos_of_ne_zero differ) high
  | succ l =>
    have less : (idrSize ^ (h + 1) - id') * 8 + l < (idrSize ^ (h + 1) - id) * 8 + (l + 1) := by omega
    obtain ⟨there, absent⟩ := layer.down reached block
    rw [digit_eq] at there absent
    dsimp only
    split
    case isTrue null =>
      obtain ⟨some_free, inv'⟩ := absent null
      rw [if_neg some_free.ne']
      exact next _ inv' less
    case isFalse null => exact next _ (there (by simpa using null)) less

end Round

/-- **The loop ends**, with the first free id or behind the last id of the tree. -/
theorem subAllocLoop_spec (small : h ≤ 5) (inv : Searching idr₀ map h start s)
    (less : s.left h < rounds) : Concludes idr₀ map h start (subAllocLoop rounds s) := by
  induction rounds generalizing s with
  | zero => exact absurd less (not_lt_zero _)
  | succ rounds ih =>
    obtain ⟨bitmap, ary, count, level, layer⟩ := inv.layer
    have next : ∀ s', Searching idr₀ map h start s' → s'.left h < s.left h →
        Concludes idr₀ map h start (subAllocLoop rounds s') :=
      fun s' inv' less' => ih inv' (by omega)
    rcases findNextZero_spec bitmap (digit s.id s.l) with ⟨none_free, set⟩ | ⟨within, low, free, set⟩
    · exact round_full small layer next none_free set
    · exact round_free small layer next within low free set

/-- **The search** (`sub_alloc`) in a tree of at most six layers, with enough free layers. -/
theorem subAlloc_spec (small : h ≤ 5) (layers : idr.layers = h + 1)
    (shown : Shows h idr.top map) (within : start < idrSize ^ (h + 1)) (enough : h ≤ idr.idFreeCnt) :
    Concludes idr map h start (subAlloc idr start pa) := by
  have bound := pow_idrSize_le small
  have reached : Reached map h start idr start :=
    ⟨layers, shown, le_rfl, within, fun x low high => absurd high (not_lt.mpr low)⟩
  refine subAllocLoop_spec small (reached.restart ⟨rfl, enough⟩) ?_
  show (idrSize ^ (h + 1) - start) * 8 + (idr.layers - 1) < 8 * 2 ^ 31
  omega

end KernelImx.Ids
