/-
**Growth, and a new id** (`idr_get_empty_slot`, `idr_mark_full`, `idr_get_new_above`).

The tree is raised until the id fits, but not above six layers, that is thirty bits. The search runs
in it, and when it finds nothing the tree is raised again.

Main results: `idrGetEmptySlot_spec`, `idrGetNewAbove_spec`.
-/

import KernelImx.Ids.Search

namespace KernelImx.Ids

open Nat

variable {α : Type} {h id l start left free first second : Nat} {map : Nat → Option (Option α)}
  {idr : Idr α} {slot top : Slot α} {ptr : Option α} {pa : Passed}

/-! ### The map of an idr -/

/-- **The map of an idr.** Without a top it is empty. -/
def Holds (idr : Idr α) (map : Nat → Option (Option α)) : Prop :=
  (idr.top.isNull = true ∧ ∀ id, map id = none) ∨
    ∃ h ≤ 5, idr.layers = h + 1 ∧ Shows h idr.top map

theorem digit_eq_zero_iff (inside : id < idrSize ^ (h + 2)) :
    digit id (h + 1) = 0 ↔ id < idrSize ^ (h + 1) := by
  have pos := pow_idrSize_pos (h + 1)
  have less : id / idrSize ^ (h + 1) < idrSize := by
    rw [div_lt_iff_lt_mul pos, mul_comm, ← pow_succ]
    exact inside
  rw [digit, mod_eq_of_lt less, Nat.div_eq_zero_iff]
  exact ⟨fun small => small.resolve_left pos.ne', .inr⟩

theorem lt_pow_succ (inside : id < idrSize ^ (h + 1)) : id < idrSize ^ (h + 2) :=
  inside.trans_le (Nat.pow_le_pow_right (by decide) (le_succ _))

theorem Shows.raise (shown : Shows h top map) :
    Shows (h + 1) (Ids.raise top (h + 1)) map := by
  obtain ⟨tree, values⟩ := raise_spec shown.tree
  refine ⟨tree, fun id => ?_⟩
  rw [shown.value, values id]
  by_cases wide : id < idrSize ^ (h + 2)
  · simp only [if_pos wide, digit_eq_zero_iff wide]
    split <;> rfl
  · rw [if_neg wide, if_neg fun inside => wide (lt_pow_succ inside)]

theorem Shows.lift {bitmap : BitVec 32} {ary : Nat → Slot α} {level : Nat}
    (shown : Shows h (.layer bitmap ary 0 level) map) :
    Shows (h + 1) (.layer bitmap ary 0 (level + 1)) map := by
  have tree := lift_tree shown.tree
  refine ⟨tree, fun id => ?_⟩
  rw [shown.value, shown.tree.cell_of_count, tree.cell_of_count]
  simp [held]

theorem Shows.empty (none_there : ∀ id, map id = none) : Shows 0 (emptyLayer 0) map := by
  refine ⟨emptyLayer_tree 0, fun id => ?_⟩
  rw [none_there, emptyLayer, (emptyLayer_tree 0).cell_of_count id]
  simp [held]

/-! ### Raising the tree -/

theorem growLoop_spec (small : id < 2 ^ 30) (height : h + left = 5) (shown : Shows h top map)
    (enough : left ≤ free) :
    ∃ h' top' free', growLoop id left top (h + 1) free = some (top', h' + 1, free') ∧ h' ≤ 5 ∧
      Shows h' top' map ∧ id < idrSize ^ (h' + 1) ∧ free + h ≤ free' + h' := by
  induction left generalizing h top free with
  | zero =>
    have five : h = 5 := height
    subst five
    exact ⟨5, top, free, rfl, le_rfl, shown, small, le_rfl⟩
  | succ left ih =>
    by_cases fits : id ≥ idrSize ^ (h + 1)
    · obtain ⟨top', free', step, shown', enough', less⟩ : ∃ top' free',
          growLoop id (left + 1) top (h + 1) free = growLoop id left top' (h + 2) free' ∧
            Shows (h + 1) top' map ∧ left ≤ free' ∧ free ≤ free' + 1 := by
        obtain ⟨bitmap, ary, count, rfl⟩ := shown.tree.is_layer
        cases count with
        | zero => exact ⟨_, free, if_pos fits, shown.lift, by omega, by omega⟩
        | succ count =>
          refine ⟨_, free - 1, ?_, shown.raise, by omega, by omega⟩
          exact (if_pos fits).trans (if_neg (by omega))
      obtain ⟨h', top', free', grown, high, shown', inside, room⟩ := ih (by omega) shown' enough'
      exact ⟨h', top', free', step.trans grown, high, shown', inside, by omega⟩
    · refine ⟨h, top, free, ?_, by omega, shown, lt_of_not_ge fits, le_rfl⟩
      show (if id ≥ idrSize ^ (h + 1) then _ else _) = _
      rw [if_neg fits]

/-- Enough free layers to raise the tree to six layers and to go down in it. -/
def Enough (idr : Idr α) : Prop :=
  if idr.top.isNull then idrFreeMax ≤ idr.idFreeCnt else idrFreeMax ≤ idr.idFreeCnt + idr.layers

theorem enough_of_full (full : idrFreeMax ≤ idr.idFreeCnt) : Enough idr := by
  unfold Enough
  split
  · exact full
  · omega

/-- **The tree is built up** until the id fits. -/
theorem buildUp_spec (holds : Holds idr map) (small : id < 2 ^ 30) (enough : Enough idr) :
    ∃ h top free, buildUp idr id = some ⟨top, h + 1, free⟩ ∧ h ≤ 5 ∧ Shows h top map ∧
      id < idrSize ^ (h + 1) ∧ idrFreeMax ≤ free + (h + 1) := by
  unfold Enough at enough
  have fourteen : idrFreeMax = 14 := rfl
  rcases holds with ⟨null, empty⟩ | ⟨h, high, layers, shown⟩
  · rw [if_pos null] at enough
    obtain ⟨h', top', free', grown, high', shown', inside, room⟩ :=
      @growLoop_spec α 0 id 5 (idr.idFreeCnt - 1) map _ small (zero_add 5) (Shows.empty empty)
        (by omega)
    refine ⟨h', top', free', ?_, high', shown', inside, by omega⟩
    have some_free : idr.idFreeCnt ≠ 0 := by omega
    rw [buildUp, if_pos null, if_neg some_free]
    exact congrArg (Option.map _) grown
  have there := Bool.eq_false_iff.mp shown.tree.not_null
  rw [if_neg there, layers] at enough
  obtain ⟨h', top', free', grown, high', shown', inside, room⟩ :=
    @growLoop_spec α h id (5 - h) idr.idFreeCnt map _ small (by omega) shown (by omega)
  refine ⟨h', top', free', ?_, high', shown', inside, by omega⟩
  rw [buildUp, if_neg there, layers]
  have left : maxLevel - 1 - (h + 1) = 5 - h := by
    show 6 - (h + 1) = 5 - h
    omega
  rw [left, grown]
  rfl

/-! ### The first free id -/

theorem emptySlotLoop_spec {rounds j : Nat} (holds : Holds idr map) (enough : Enough idr)
    (unused : ∃ x, start ≤ x ∧ x < 2 ^ 30 ∧ map x = none) (behind : j = 0 ∨ idrSize ^ j ≤ start)
    (many : 6 < j + rounds) :
    ∃ idr' pa' id h, emptySlotLoop rounds idr start pa = some (idr', pa', .found id) ∧
      EmptySlot map start idr' pa' id h := by
  obtain ⟨x, low, high, free⟩ := unused
  induction rounds generalizing idr start j pa with
  | zero =>
    have six : idrSize ^ 6 ≤ idrSize ^ j := Nat.pow_le_pow_right (by decide) (by omega)
    have number : idrSize ^ 6 = 2 ^ 30 := by decide
    omega
  | succ rounds ih =>
    obtain ⟨h, top, count, built, small, shown, inside, room⟩ :=
      buildUp_spec holds (lt_of_le_of_lt low high) enough
    have fourteen : idrFreeMax = 14 := rfl
    rcases @subAlloc_spec α h map pa ⟨top, h + 1, count⟩ start small rfl shown inside
      (by show h ≤ count; omega) with ⟨idr', pa', id, run, slot⟩ | ⟨⟨pa', run⟩, all⟩
    · refine ⟨idr', pa', id, h, ?_, slot⟩
      rw [emptySlotLoop, built]
      simp only [run]
    -- everything from the start on is taken: the free id is behind the tree
    have outside : idrSize ^ (h + 1) ≤ x := by
      by_contra within
      have taken := all x low (not_le.mp within)
      rw [free] at taken
      cases taken
    have grows : j < h + 1 := by
      rcases behind with zero | le
      · omega
      · exact (Nat.pow_lt_pow_iff_right (by decide : 1 < idrSize)).mp (le.trans_lt inside)
    obtain ⟨idr'', pa'', id, h', again, slot⟩ :=
      @ih (idrSize ^ (h + 1)) ⟨top, h + 1, count⟩ pa' (h + 1) (.inr ⟨h, small, rfl, shown⟩)
        ((if_neg (Bool.eq_false_iff.mp shown.tree.not_null)).mpr room) (.inr le_rfl) (by omega)
        outside
    refine ⟨idr'', pa'', id, h', ?_,
      { slot with low := inside.le.trans slot.low, taken := fun y from_start before => ?_ }⟩
    · rw [emptySlotLoop, built]
      simp only [run]
      exact again
    · rcases lt_or_ge y (idrSize ^ (h + 1)) with within | behind
      · exact all y from_start within
      · exact slot.taken y behind before

/-- The first free id, when there is one below `2 ^ 30`. -/
theorem idrGetEmptySlot_spec (holds : Holds idr map) (full : idrFreeMax ≤ idr.idFreeCnt)
    (free : ∃ x, start ≤ x ∧ x < 2 ^ 30 ∧ map x = none) :
    ∃ idr' pa id h, idrGetEmptySlot idr start = some (idr', pa, .found id) ∧
      EmptySlot map start idr' pa id h :=
  @emptySlotLoop_spec α start map idr _ (2 ^ 31) 0 holds (enough_of_full full) free (.inl rfl) (by decide)

/-! ### The marks on the way up -/

theorem modify_ins_of_not_full (steps : Nat) (tree : Tree (l + steps) slot)
    (free : used (l + steps) slot id = false) (there : (slot.at (route id l steps)).isNull = false)
    (open_ : (ins id ptr l (slot.at (route id l steps))).full = false) :
    slot.modify (ins id ptr l) (route id l steps) = ins id ptr (l + steps) slot ∧
      (ins id ptr (l + steps) slot).full = false := by
  induction steps generalizing slot with
  | zero => exact ⟨rfl, open_⟩
  | succ steps ih =>
    obtain ⟨bitmap, ary, count, rfl⟩ := tree.is_layer
    have child : (ary (digit id (l + steps + 1))).isNull = false :=
      @not_null_of_at α (.layer bitmap ary count (l + (steps + 1))) [_] _ there
    obtain ⟨same, rest⟩ := ih ((tree.2.2 _ (digit_lt id _)).2 child) free there open_
    have shape : ins id ptr (l + steps + 1) (.layer bitmap ary count (l + (steps + 1))) =
        .layer bitmap (setAry ary (digit id (l + steps + 1))
          (ins id ptr (l + steps) (ary (digit id (l + steps + 1))))) count (l + (steps + 1)) := by
      show Slot.layer (if _ then _ else bitmap) _ count _ = _
      rw [if_neg (Bool.eq_false_iff.mp rest)]
    refine ⟨?_, ?_⟩
    · show Slot.layer bitmap (setAry ary _ _) count _ = _
      rw [same]
      exact shape.symm
    · show (ins id ptr (l + steps + 1) _).full = false
      rw [shape]
      exact tree.not_full free

/-- The marks on the way up are the recursive insertion. -/
theorem markLoop_eq_ins (steps : Nat) (more : steps < left) (tree : Tree (l + steps) slot)
    (free : used (l + steps) slot id = false) (there : (slot.at (route id l steps)).isNull = false)
    (passed : ∀ k, l < k → k ≤ l + steps → pa k = some (route id k (l + steps - k)))
    (top : pa (l + steps + 1) = none) :
    markLoop pa id left l (route id l steps)
      (slot.modify (ins id ptr l) (route id l steps)) = ins id ptr (l + steps) slot := by
  induction steps generalizing l left slot with
  | zero =>
    obtain ⟨left, rfl⟩ := exists_eq_succ_of_ne_zero (ne_of_gt more)
    rw [markLoop]
    split
    · rw [show pa (l + 1) = none from top]
      rfl
    · rfl
  | succ steps ih =>
    obtain ⟨left, rfl⟩ := exists_eq_succ_of_ne_zero (ne_of_gt (zero_lt_of_lt more))
    have above : (slot.at (route id (l + 1) steps)).isNull = false := by
      rw [route_snoc] at there
      exact not_null_of_at there
    rw [markLoop, at_modify there]
    by_cases full : (ins id ptr l (slot.at (route id l (steps + 1)))).full = true
    · rw [if_pos full, passed (l + 1) (lt_succ_self l) (by omega),
        show l + (steps + 1) - (l + 1) = steps by omega]
      have marked : (slot.modify (ins id ptr l) (route id l (steps + 1))).modify
          (Slot.mark (digit id (l + 1))) (route id (l + 1) steps) =
          slot.modify (ins id ptr (l + 1)) (route id (l + 1) steps) := by
        rw [route_snoc, modify_append, modify_modify]
        refine modify_congr ?_
        rw [route_snoc, at_append] at full
        cases node : slot.at (route id (l + 1) steps) with
        | null | user =>
          rw [route_snoc, at_append, node] at there
          cases there
        | layer bitmap ary count level =>
          rw [node] at full
          have full' : (ins id ptr l (ary (digit id (l + 1)))).full = true := full
          show Slot.layer (setBit bitmap _) _ count level = .layer (if _ then _ else _) _ count level
          rw [if_pos full']
          rfl
      simp only []
      rw [marked]
      rw [show l + (steps + 1) = l + 1 + steps by omega] at tree free passed top ⊢
      exact ih (by omega) tree free above (fun k low => passed k (by omega)) top
    · rw [if_neg full]
      exact (modify_ins_of_not_full (steps + 1) tree free there (by simpa using full)).1

/-! ### The new id -/

def put (map : Nat → Option (Option α)) (id : Nat) (value : Option (Option α)) :
    Nat → Option (Option α) :=
  fun other => if other = id then value else map other

theorem mod_pow_of_sameBelow (same : SameBelow h first second) :
    first % idrSize ^ (h + 1) = second % idrSize ^ (h + 1) := by
  induction h with
  | zero =>
    have digits := sameBelow_zero.mp same
    simpa [digit] using digits
  | succ h ih =>
    obtain ⟨here, below⟩ := sameBelow_succ.mp same
    unfold digit at here
    rw [mod_pow_succ, ih below, here, ← mod_pow_succ]

theorem sameBelow_iff (inside : first < idrSize ^ (h + 1)) (inside' : second < idrSize ^ (h + 1)) :
    SameBelow h first second ↔ first = second := by
  constructor
  · intro same
    have equal := mod_pow_of_sameBelow same
    rwa [mod_eq_of_lt inside, mod_eq_of_lt inside'] at equal
  · rintro rfl
    exact SameBelow.refl h first

theorem Shows.put {next : Slot α} {value : Bool × Option α} (shown : Shows h top map)
    (inside : id < idrSize ^ (h + 1))
    (changed : ∀ other, cell h next other = if SameBelow h other id then value else cell h top other)
    (other : Nat) : Ids.put map id (held value) other =
      if other < idrSize ^ (h + 1) then held (cell h next other) else none := by
  rw [Ids.put, shown.value, changed]
  by_cases within : other < idrSize ^ (h + 1)
  · simp only [sameBelow_iff within inside, if_pos within]
    split <;> rfl
  · rw [if_neg within, if_neg within, if_neg fun eq : other = id => within (eq ▸ inside)]

/-- **`idr_get_new_above`**: the first free id goes into the map. -/
theorem idrGetNewAbove_spec (holds : Holds idr map) (full : idrFreeMax ≤ idr.idFreeCnt)
    (free : ∃ x, start ≤ x ∧ x < 2 ^ 30 ∧ map x = none) (ptr : Option α) :
    ∃ idr' id, idrGetNewAbove idr ptr start = some (idr', .ok id) ∧
      IsLeast {x | start ≤ x ∧ map x = none} id ∧ Holds idr' (put map id (some ptr)) := by
  obtain ⟨idr', pa, id, h, run, slot⟩ := idrGetEmptySlot_spec holds full free
  have unused : used h idr'.top id = false := slot.shown.isSome_eq slot.high ▸ slot.free
  have marks : markLoop pa id maxLevel 0 (route id 0 h)
      (idr'.top.modify (installPtr id ptr) (route id 0 h)) = ins id ptr h idr'.top := by
    have marked := @markLoop_eq_ins α id 0 maxLevel idr'.top ptr pa h
    rw [zero_add] at marked
    exact marked (lt_of_le_of_lt slot.small (by decide)) slot.shown.tree unused slot.there
      (fun k _ high => slot.passed k high) slot.top
  obtain ⟨tree, changed⟩ := @ins_spec α h id _ ptr slot.shown.tree (present_of_route slot.there) unused
  refine ⟨{ idr' with top := ins id ptr h idr'.top }, id, ?_, ⟨⟨slot.low, ?_⟩, ?_⟩,
    .inr ⟨h, slot.small, slot.layers, tree, slot.shown.put slot.high changed⟩⟩
  · have entry : pa 0 = some (route id 0 h) := slot.passed 0 (zero_le h)
    rw [idrGetNewAbove, run]
    simp only [entry]
    rw [marks]
  · simpa using slot.free
  · rintro y ⟨from_start, unused⟩
    by_contra less
    have taken := slot.taken y from_start (Nat.lt_of_not_le less)
    rw [unused] at taken
    cases taken

end KernelImx.Ids
