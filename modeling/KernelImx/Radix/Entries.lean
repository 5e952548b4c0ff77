/-
**What a radix tree holds.**

The tags of a slot are not kept in the slot but in the node above it, or in the root. `Sound` takes
them as an argument, so that the root and every node are treated alike:

Each walk of the source has one lemma that says what it does to all three: `insertAt_spec`,
`tagSetAt_spec`, `clearAt_spec`, `removeAt_spec`.
-/

import KernelImx.Radix.Tree
import KernelImx.Lib.Counting
import Mathlib.Data.Nat.ModEq

namespace KernelImx.Radix

open Function Nat
open List hiding count

variable {α : Type}

/-! ### Indices -/

theorem offset_lt (index h : Nat) : offset index h < mapSize :=
  mod_lt _ (by decide)

/-- Two indices go the same way from a slot of height `h`. -/
def SameLow (h first second : Nat) : Prop :=
  first % mapSize ^ h = second % mapSize ^ h

instance (h first second : Nat) : Decidable (SameLow h first second) :=
  inferInstanceAs (Decidable (_ = _))

theorem sameLow_zero (first second : Nat) : SameLow 0 first second := by
  rw [SameLow, pow_zero, mod_one, mod_one]

variable {second h first i : Nat} {slot : Slot α} {bits : Tag → Bool}

theorem sameLow_succ : SameLow (h + 1) first second ↔
    offset first h = offset second h ∧ SameLow h first second := by
  unfold SameLow offset
  rw [pow_succ, mod_mul, mod_mul]
  constructor
  · intro whole
    have positive : 0 < mapSize ^ h := Nat.pow_pos (by decide)
    have low : first % mapSize ^ h = second % mapSize ^ h := by
      have left := add_mul_mod_self_left (first % mapSize ^ h) (mapSize ^ h)
        (first / mapSize ^ h % mapSize)
      have right := add_mul_mod_self_left (second % mapSize ^ h) (mapSize ^ h)
        (second / mapSize ^ h % mapSize)
      rw [whole, mod_mod] at left
      rw [mod_mod] at right
      exact left.symm.trans right
    rw [low] at whole
    exact ⟨Nat.eq_of_mul_eq_mul_left positive (add_left_cancel whole), low⟩
  · rintro ⟨high, low⟩
    rw [high, low]

/-! ### Slots in order -/

/-- **The tree below a slot is in order**, and `bits` are its tags. -/
def Sound : Nat → Slot α → (Tag → Bool) → Prop
  | _, .null, bits => ∀ tag, bits tag = false
  | 0, .item _, _ => True
  | h + 1, .node height count slots tags, bits =>
    height = h + 1 ∧ count = (range mapSize).countP (fun off => !(slots off).isNull) ∧
      (∀ tag, bits tag = anyTagSet tags tag) ∧
      ∀ off < mapSize, Sound h (slots off) fun tag => tags tag off
  | _, _, _ => False

/-- The item at an index and its tags. -/
def entry : Nat → Slot α → (Tag → Bool) → Nat → Option (α × (Tag → Bool))
  | 0, .item ptr, bits, _ => some (ptr, bits)
  | h + 1, .node _ _ slots tags, _, i =>
    entry h (slots (offset i h)) (fun tag => tags tag (offset i h)) i
  | _, _, _, _ => none

theorem entry_congr (same : SameLow h first second) :
    entry h slot bits first = entry h slot bits second := by
  induction h generalizing slot bits with
  | zero =>
    cases slot <;> rfl
  | succ h ih =>
    obtain ⟨high, low⟩ := sameLow_succ.mp same
    cases slot with
    | node height count slots tags =>
      rw [entry, entry, high]
      exact ih low
    | _ => rfl

/-- No node below the slot is empty. -/
def Full : Nat → Slot α → Prop
  | h + 1, .node _ count slots _ => count ≠ 0 ∧ ∀ off < mapSize, Full h (slots off)
  | _, _ => True

theorem sound_null : Sound h (.null : Slot α) bits ↔ ∀ tag, bits tag = false := by
  cases h <;> rfl

@[simp] theorem entry_null : entry h (.null : Slot α) bits i = none := by
  cases h <;> rfl

theorem full_null : Full h (.null : Slot α) := by
  cases h <;> trivial

theorem eq_null_of_isNull (null : slot.isNull = true) : slot = .null := by
  cases slot with
  | null => rfl
  | item ptr | node height count slots tags => cases null

theorem Sound.cases_succ (sound : Sound (h + 1) slot bits) :
    slot = .null ∨ ∃ count slots tags, slot = .node (h + 1) count slots tags := by
  cases slot with
  | null => exact .inl rfl
  | item ptr => exact sound.elim
  | node height count slots tags =>
    obtain ⟨rfl, -⟩ := sound
    exact .inr ⟨count, slots, tags, rfl⟩

theorem Sound.cases_zero (sound : Sound 0 slot bits) : slot = .null ∨ ∃ ptr, slot = .item ptr := by
  cases slot with
  | null => exact .inl rfl
  | item ptr => exact .inr ⟨ptr, rfl⟩
  | node height count slots tags => exact sound.elim

@[elab_as_elim] theorem Sound.walk
    {motive : (h : Nat) → (slot : Slot α) → (bits : Tag → Bool) → Sound h slot bits → Prop}
    (null : ∀ h bits sound, motive h .null bits sound)
    (item : ∀ ptr bits sound, motive 0 (.item ptr) bits sound)
    (node : ∀ h count slots tags bits sound,
      (∀ off (inside : off < mapSize), motive h (slots off) _ (sound.2.2.2 off inside)) →
      motive (h + 1) (.node (h + 1) count slots tags) bits sound)
    (sound : Sound h slot bits) : motive h slot bits sound := by
  induction h generalizing slot bits with
  | zero =>
    rcases sound.cases_zero with rfl | ⟨ptr, rfl⟩
    · exact null 0 bits sound
    · exact item ptr bits sound
  | succ h ih =>
    rcases sound.cases_succ with rfl | ⟨count, slots, tags, rfl⟩
    · exact null (h + 1) bits sound
    · exact node h count slots tags bits sound fun off inside => ih _

variable {tags tags' : Tag → Nat → Bool} {tag : Tag} {slots : Nat → Slot α} {child : Slot α}
  {height off count count' index : Nat} {bits' : Tag → Bool} {ptr : α}

theorem anyTagSet_iff : anyTagSet tags tag = true ↔ ∃ off < mapSize, tags tag off = true := by
  simp [anyTagSet]

theorem anyTagSet_eq_false :
    anyTagSet tags tag = false ↔ ∀ off < mapSize, tags tag off = false := by
  simp [anyTagSet]

theorem Sound.null_of_empty (sound : Sound (h + 1) (.node height 0 slots tags) bits)
    (inside : off < mapSize) : slots off = .null := by
  have empty := countP_eq_zero.mp sound.2.1.symm off (mem_range.mpr inside)
  exact eq_null_of_isNull (by simpa using empty)

theorem Sound.tags_of_empty (sound : Sound (h + 1) (.node height 0 slots tags) bits) (tag : Tag) :
    bits tag = false := by
  rw [sound.2.2.1, anyTagSet_eq_false]
  intro off inside
  have child := sound.2.2.2 off inside
  rw [sound.null_of_empty inside, sound_null] at child
  exact child tag

/-- A slot that is in use is counted. -/
theorem Sound.count_pos (sound : Sound (h + 1) (.node height count slots tags) bits)
    (inside : off < mapSize) (used : (slots off).isNull = false) : 0 < count := by
  rw [sound.2.1, countP_pos_iff]
  exact ⟨off, mem_range.mpr inside, by rw [used]; rfl⟩

/-! ### Changing one slot of a node -/

/-- **A node with another slot is in order** when the slot is, and the count and the tags follow. -/
theorem Sound.setChild (sound : Sound (h + 1) (.node height count slots tags) bits)
    (small : off < mapSize) (inOrder : Sound h child fun tag => tags' tag off)
    (others : ∀ tag i, i ≠ off → tags' tag i = tags tag i)
    (counted : count' + (!(slots off).isNull).toNat = count + (!child.isNull).toNat)
    (union : ∀ tag, bits' tag = anyTagSet tags' tag) :
    Sound (h + 1) (.node height count' (update slots off child) tags') bits' := by
  obtain ⟨rfl, total, -, below⟩ := sound
  refine ⟨rfl, ?_, union, fun i inside => ?_⟩
  · have step := @Lib.countP_update (fun i => !(slots i).isNull)
      (fun i => !(update slots off child i).isNull) off _ nodup_range (mem_range.mpr small)
      fun i _ differs => by rw [update_of_ne differs]
    rw [update_self] at step
    omega
  by_cases here : i = off
  · subst here
    rwa [update_self]
  · rw [update_of_ne here]
    refine (congrArg (Sound h (slots i)) (funext fun tag => ?_)).mpr (below i inside)
    exact others tag i here

/-- The tree below a slot has another value at one index, and is in order. -/
structure Changed (h index : Nat) (value : Option (α × (Tag → Bool))) (bits bits' : Tag → Bool)
    (slot slot' : Slot α) : Prop where
  sound : Sound h slot' bits'
  entries : ∀ i, entry h slot' bits' i = if SameLow h i index then value else entry h slot bits i

/-- **The store on the way back**: one slot of a node is changed. -/
theorem Changed.store {value : Option (α × (Tag → Bool))}
    (sound : Sound (h + 1) (.node height count slots tags) bits)
    (done : Changed h index value (fun tag => tags tag (offset index h))
      (fun tag => tags' tag (offset index h)) (slots (offset index h)) child)
    (others : ∀ tag i, i ≠ offset index h → tags' tag i = tags tag i)
    (counted : count' + (!(slots (offset index h)).isNull).toNat = count + (!child.isNull).toNat)
    (union : ∀ tag, bits' tag = anyTagSet tags' tag) :
    Changed (h + 1) index value bits bits' (.node height count slots tags)
      (.node height count' (update slots (offset index h) child) tags') := by
  refine ⟨sound.setChild (offset_lt index h) done.sound others counted union, fun i => ?_⟩
  rw [entry, entry]
  by_cases here : offset i h = offset index h
  · rw [here, update_self, done.entries i]
    simp only [sameLow_succ, here, true_and]
  · have apart : ¬ SameLow (h + 1) i index := fun same => here (sameLow_succ.mp same).1
    rw [if_neg apart, update_of_ne here]
    exact congrArg (fun bits => entry h (slots (offset i h)) bits i)
      (funext fun tag => others tag _ here)

theorem Full.setChild (full : ∀ i < mapSize, Full h (slots i)) (below : Full h child)
    (some_there : count' ≠ 0) :
    Full (h + 1) (.node height count' (update slots off child) tags') := by
  refine ⟨some_there, fun i inside => ?_⟩
  by_cases here : i = off
  · subst here
    rwa [update_self]
  · rw [update_of_ne here]
    exact full i inside

theorem sound_emptyNode (h : Nat) : Sound (h + 1) (emptyNode (h + 1) : Slot α) fun _ => false := by
  refine ⟨rfl, by simp [Slot.isNull], fun tag => ?_, fun off _ => sound_null.mpr fun _ => rfl⟩
  exact (anyTagSet_eq_false.mpr fun _ _ => rfl).symm

/-! ### Insertion -/

/-- What an insertion leaves at its index: the item, or what was there. -/
def leaves (ptr : α) (old : Option (α × (Tag → Bool))) :
    Except Errno Unit → Option (α × (Tag → Bool))
  | .ok _ => some (ptr, fun _ => false)
  | .error _ => old

/-- What insertion below a slot comes to: the item is there, or an error says why nothing changed. -/
structure Inserts (h index : Nat) (ptr : α) (bits : Tag → Bool) (slot : Slot α)
    (result : Except Errno Unit) (slot' : Slot α) : Prop where
  changed : Changed h index (leaves ptr (entry h slot bits index) result) bits bits slot slot'
  kept : slot.isNull = false → slot'.isNull = false
  full : result ≠ .error .enomem → Full h slot → Full h slot'
  ok : result = .ok () → slot'.isNull = false ∧ entry h slot bits index = none
  error : ∀ errno, result = .error errno →
    (errno = .eexist ∧ entry h slot bits index ≠ none) ∨ errno = .enomem

variable {result : Except Errno Unit}

theorem Inserts.there {slot' : Slot α}
    (done : Inserts h index ptr bits slot result slot') (enough : result ≠ .error .enomem) :
    slot'.isNull = false := by
  cases result with
  | ok _ => exact (done.ok rfl).1
  | error errno =>
    rcases done.error errno rfl with ⟨-, present⟩ | rfl
    · refine done.kept ?_
      cases slot with
      | null => exact absurd entry_null present
      | item ptr | node height count slots tags => rfl
    · exact absurd rfl enough

theorem Inserts.store (sound : Sound (h + 1) (.node height count slots tags) bits)
    (done : Inserts h index ptr (fun tag => tags tag (offset index h)) (slots (offset index h))
      result child) :
    Changed (h + 1) index
        (leaves ptr (entry (h + 1) (.node height count slots tags) bits index) result) bits bits
        (.node height count slots tags)
        (storeSlot height count slots tags (offset index h) child) ∧
      (result ≠ .error .enomem → (∀ off < mapSize, Full h (slots off)) →
        Full (h + 1) (storeSlot height count slots tags (offset index h) child)) := by
  refine ⟨done.changed.store sound (fun _ _ _ => rfl) ?_ sound.2.2.1, fun enough full =>
    Full.setChild full (done.full enough (full _ (offset_lt index h))) ?_⟩
  · have kept := done.kept
    cases old : (slots (offset index h)).isNull <;> cases new : child.isNull <;> simp_all
  · have new := done.there enough
    rw [new, Bool.not_false, Bool.and_true]
    split
    · exact succ_ne_zero count
    next old =>
      exact (sound.count_pos (offset_lt index h) (Bool.eq_false_iff.mpr old)).ne'

theorem insertAt_spec {grants : Nat} (sound : Sound h slot bits) :
    ∃ result slot', insertAt index ptr h grants bits slot = some (result, slot') ∧
      Inserts h index ptr bits slot result slot' := by
  induction h generalizing grants slot bits with
  | zero =>
    rcases sound.cases_zero with rfl | ⟨old, rfl⟩
    · have clear := sound_null.mp sound
      refine ⟨.ok (), .item ptr, ?_, ⟨trivial, fun i => ?_⟩, nofun, fun _ _ => trivial,
        fun _ => ⟨rfl, rfl⟩, nofun⟩
      · rw [insertAt, clear 0, clear 1]
        rfl
      · rw [if_pos (sameLow_zero i index), entry]
        exact congrArg (fun bits => some (ptr, bits)) (funext clear)
    · exact ⟨.error .eexist, .item old, rfl, ⟨sound, fun _ => (ite_self _).symm⟩, fun _ => rfl,
        fun _ full => full, nofun, fun errno error => .inl ⟨by cases error; rfl, nofun⟩⟩
  | succ h ih =>
    rcases sound.cases_succ with rfl | ⟨count, slots, tags, rfl⟩
    · cases grants with
      | zero =>
        exact ⟨.error .enomem, .null, rfl, ⟨sound, fun _ => (ite_self _).symm⟩, fun there => there,
          fun enough => absurd rfl enough, nofun, fun errno error => .inr (by cases error; rfl)⟩
      | succ grants =>
        -- the node from the slab is filled like any other
        have empty : bits = fun _ => false := funext (sound_null.mp sound)
        subst empty
        obtain ⟨result, child, below, done⟩ :=
          @ih .null (fun _ => false) grants (sound_null.mpr fun _ => rfl)
        have old : ∀ i, entry h (.null : Slot α) (fun _ => false) i =
            entry (h + 1) .null (fun _ => false) i := fun i => entry_null.trans entry_null.symm
        obtain ⟨⟨sound', entries⟩, full⟩ := Inserts.store (sound_emptyNode h) done
        refine ⟨result, _, by rw [insertAt, below]; rfl, ⟨sound', fun i => ?_⟩, nofun,
          fun enough _ => full enough fun _ _ => full_null, fun isOk => ⟨rfl, entry_null⟩, ?_⟩
        · rw [← old, ← old]
          exact entries i
        · rw [← old]
          exact done.error
    · obtain ⟨result, child, below, done⟩ :=
        @ih _ _ grants (sound.2.2.2 (offset index h) (offset_lt index h))
      obtain ⟨changed, full⟩ := Inserts.store sound done
      exact ⟨result, _, by rw [insertAt, below]; rfl, changed, fun _ => rfl,
        fun enough old => full enough old.2, fun isOk => ⟨rfl, (done.ok isOk).2⟩, done.error⟩

/-! ### Readers -/

theorem lookupAt_spec (index : Nat) (sound : Sound h slot bits) :
    (lookupAt index h slot).toPtr = (entry h slot bits index).map Prod.fst ∧
      ((lookupAt index h slot).isNull = true ↔ entry h slot bits index = none) := by
  induction sound using Sound.walk with
  | null h => cases h <;> exact ⟨rfl, iff_of_true rfl rfl⟩
  | item => exact ⟨rfl, iff_of_false nofun nofun⟩
  | node h _ _ _ _ _ ih => exact ih _ (offset_lt index h)

def tagOf (found : Option (α × (Tag → Bool))) (tag : Tag) : Bool :=
  (found.map fun item => item.2 tag).getD false

theorem tagGetAt_spec (sound : Sound (h + 1) slot bits) :
    tagGetAt index tag (h + 1) slot = tagOf (entry (h + 1) slot bits index) tag := by
  induction h generalizing slot bits with
  | zero =>
    rcases sound.cases_succ with rfl | ⟨count, slots, tags, rfl⟩
    · rfl
    have below := sound.2.2.2 _ (offset_lt index 0)
    rw [tagGetAt, entry]
    rcases below.cases_zero with null | ⟨ptr, item⟩
    · rw [null, sound_null] at below
      rw [null, below tag]
      rfl
    · rw [item]
      rfl
  | succ h ih =>
    rcases sound.cases_succ with rfl | ⟨count, slots, tags, rfl⟩
    · rfl
    · exact ih (sound.2.2.2 _ (offset_lt index (h + 1)))

/-! ### Setting a tag -/

theorem setTag_self (tags : Tag → Nat → Bool) (tag : Tag) (off : Nat) (value : Bool) :
    (fun other => setTag tags tag off value other off)
      = update (fun other => tags other off) tag value := by
  funext other
  by_cases same : other = tag
  · subst same
    simp [setTag]
  · simp [setTag, same]

variable {other : Tag} {value : Bool} {found : α × (Tag → Bool)} {own : Tag → Bool}

theorem setTag_of_ne (differs : i ≠ off) : setTag tags tag off value other i = tags other i :=
  if_neg fun both => differs both.2

theorem anyTagSet_setTag (differs : other ≠ tag) :
    anyTagSet (setTag tags tag off value) other = anyTagSet tags other := by
  unfold anyTagSet
  congr 1
  funext i
  exact if_neg fun both => differs both.1

theorem not_null_of_entry (there : entry h slot bits index = some found) : slot.isNull = false := by
  cases slot with
  | null =>
    rw [entry_null] at there
    cases there
  | item ptr | node height count slots tags => rfl

/-- What a walk that changes the tags of one item comes to. -/
structure Retags (h index : Nat) (found : α × (Tag → Bool)) (bits bits' : Tag → Bool)
    (slot slot' : Slot α) : Prop extends Changed h index (some found) bits bits' slot slot' where
  kept : slot'.isNull = false
  full : Full h slot → Full h slot'

theorem Retags.store (sound : Sound (h + 1) (.node height count slots tags) bits)
    (old : (slots (offset index h)).isNull = false)
    (done : Retags h index found (fun tag => tags tag (offset index h))
      (fun tag => tags' tag (offset index h)) (slots (offset index h)) child)
    (others : ∀ tag i, i ≠ offset index h → tags' tag i = tags tag i)
    (union : ∀ tag, bits' tag = anyTagSet tags' tag) :
    Retags (h + 1) index found bits bits' (.node height count slots tags)
      (.node height count (update slots (offset index h) child) tags') where
  toChanged := done.toChanged.store sound others (by rw [old, done.kept]) union
  kept := rfl
  full := fun full => Full.setChild full.2 (done.full (full.2 _ (offset_lt index h))) full.1

/-- **What the loop of `radix_tree_tag_set` does** to an item that is present. -/
theorem tagSetAt_spec (tag : Tag) (sound : Sound h slot bits)
    (there : entry h slot bits index = some (ptr, own)) :
    ∃ slot', tagSetAt index tag h slot = some slot' ∧
      Retags h index (ptr, update own tag true) bits (update bits tag true)
        slot slot' := by
  induction sound using Sound.walk with
  | null => exact nomatch entry_null.symm.trans there
  | item =>
    cases there
    exact ⟨.item ptr, rfl, ⟨trivial, fun i => (if_pos (sameLow_zero i index)).symm⟩, rfl,
      fun full => full⟩
  | node h count slots tags bits sound ih =>
    obtain ⟨child, set, done⟩ := ih _ (offset_lt index h) there
    refine ⟨_, by rw [tagSetAt, set]; rfl, ?_⟩
    rw [← setTag_self] at done
    refine Retags.store sound (not_null_of_entry there) done
      (fun other i differs => setTag_of_ne differs) fun other => ?_
    by_cases same : other = tag
    · subst same
      rw [update_self, eq_comm, anyTagSet_iff]
      exact ⟨offset index h, offset_lt index h, if_pos ⟨rfl, rfl⟩⟩
    · rw [update_of_ne same, anyTagSet_setTag same]
      exact sound.2.2.1 other

/-! ### Clearing a tag -/

/-- The tags of a slot after the walk that clears one: it is cleared when nothing below carries it. -/
def bitsAfter (bits : Tag → Bool) (tag : Tag) (clear : Bool) : Tag → Bool :=
  if clear then update bits tag false else bits

/-- **What the second loop of `radix_tree_tag_clear` does** to an item that is present. -/
theorem clearAt_spec (tag : Tag) (sound : Sound h slot bits)
    (there : entry h slot bits index = some (ptr, own)) :
    Retags h index (ptr, update own tag false) bits
      (bitsAfter bits tag (clearAt index tag h slot).2) slot (clearAt index tag h slot).1 := by
  induction sound using Sound.walk with
  | null => exact nomatch entry_null.symm.trans there
  | item =>
    cases there
    exact ⟨⟨trivial, fun i => (if_pos (sameLow_zero i index)).symm⟩, rfl, fun full => full⟩
  | node h count slots tags bits sound ih =>
    have done := ih _ (offset_lt index h) there
    have old : (slots (offset index h)).isNull = false := not_null_of_entry there
    have union := sound.2.2.1
    rw [clearAt]
    generalize clearAt index tag h (slots (offset index h)) = walked at done ⊢
    obtain ⟨child, clear⟩ := walked
    cases clear with
    | false => exact Retags.store sound old done (fun _ _ _ => rfl) union
    | true =>
      dsimp only [bitsAfter, if_true] at done ⊢
      split
      case isFalse unset =>
        -- the tag was not set here, so nothing changes further up
        have same : update (fun other => tags other (offset index h)) tag false
            = fun other => tags other (offset index h) := by
          rw [update_eq_self_iff]
          exact (Bool.eq_false_iff.mpr unset).symm
        rw [same] at done
        exact Retags.store sound old done (fun _ _ _ => rfl) union
      case isTrue set =>
        rw [← setTag_self] at done
        refine Retags.store sound old done (fun other i differs => setTag_of_ne differs)
          fun other => ?_
        cases left : anyTagSet (setTag tags tag (offset index h) false) tag with
        | true =>
          by_cases same : other = tag
          · subst same
            rw [left]
            exact (union other).trans
              (anyTagSet_iff.mpr ⟨offset index h, offset_lt index h, set⟩)
          · rw [anyTagSet_setTag same]
            exact union other
        | false =>
          rw [Bool.not_false, if_pos rfl]
          by_cases same : other = tag
          · subst same
            rw [update_self, left]
          · rw [update_of_ne same, anyTagSet_setTag same]
            exact union other

/-! ### Removal -/

theorem Sound.entry_of_empty (sound : Sound (h + 1) (.node height 0 slots tags) bits) (i : Nat) :
    entry (h + 1) (.node height 0 slots tags) bits i = none := by
  rw [entry, sound.null_of_empty (offset_lt i h), entry_null]

/-- **What the loop of `radix_tree_delete` does** to an item that is present without tags. -/
theorem removeAt_spec (sound : Sound h slot bits)
    (there : entry h slot bits index = some (ptr, fun _ => false)) :
    Changed h index none bits bits slot (removeAt index h slot) ∧
      (Full h slot → Full h (removeAt index h slot)) := by
  induction sound using Sound.walk with
  | null => exact nomatch entry_null.symm.trans there
  | item =>
    cases there
    exact ⟨⟨fun _ => rfl, fun i => (if_pos (sameLow_zero i index)).symm⟩, fun _ => trivial⟩
  | node h count slots tags bits sound ih =>
    obtain ⟨done, full⟩ := ih _ (offset_lt index h) there
    have old : (slots (offset index h)).isNull = false := not_null_of_entry there
    rw [removeAt]
    split
    case isFalse left =>
      exact ⟨done.store sound (fun _ _ _ => rfl) (by rw [old, Bool.eq_false_iff.mpr left]) sound.2.2.1,
        fun before => Full.setChild before.2 (full (before.2 _ (offset_lt index h))) before.1⟩
    case isTrue gone =>
      rw [eq_null_of_isNull gone] at done full
      have counted : count - 1 + (!(slots (offset index h)).isNull).toNat = count + 0 := by
        rw [old]
        exact Nat.sub_add_cancel (sound.count_pos (offset_lt index h) old)
      have store := done.store sound (fun _ _ _ => rfl) counted sound.2.2.1
      split
      case isFalse more => exact ⟨store, fun before => Full.setChild before.2 full_null more⟩
      case isTrue last =>
        rw [last] at store
        refine ⟨⟨sound_null.mpr store.sound.tags_of_empty, fun i => ?_⟩, fun _ => full_null⟩
        rw [entry_null, ← store.entries i, store.sound.entry_of_empty]

end KernelImx.Radix
