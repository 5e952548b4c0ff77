/-
**The calls of a radix tree on the map it stands for.**
-/

import KernelImx.Radix.Entries

namespace KernelImx.Radix

open Function Bool Nat Option
open List hiding count

/-! ### Trees and maps -/

abbrev Map (α : Type) := Nat → Option (α × (Tag → Bool))

variable {α : Type} {h index i count height levels grants fuel : Nat} {map : Map α} {root : Root α}
  {rnode slot : Slot α} {slots : Nat → Slot α} {ptr : α} {tag : Tag} {tags : Tag → Nat → Bool}
  {bits own : Tag → Bool} {value : Bool}

theorem mapSize_pow (h : Nat) : mapSize ^ h = 2 ^ (h * 6) := by
  rw [mapSize, show (64 : Nat) = 2 ^ 6 from rfl, ← pow_mul, mul_comm]

theorem maxindex_lt_iff (small : index < 2 ^ 32) :
    index > radixTreeMaxindex h ↔ mapSize ^ h ≤ index := by
  have positive : 0 < mapSize ^ h := Nat.pow_pos (by decide)
  unfold radixTreeMaxindex
  split
  case isTrue wide =>
    have large : 2 ^ 32 ≤ mapSize ^ h := by
      rw [mapSize_pow]
      exact Nat.pow_le_pow_right (by decide) (le_of_lt wide)
    omega
  case isFalse narrow =>
    rw [← mapSize_pow]
    omega

theorem inside_of_le (small : index < 2 ^ 32) (below : ¬ index > radixTreeMaxindex h) :
    index < mapSize ^ h :=
  not_le.mp (mt (maxindex_lt_iff small).mpr below)

/-- **The tree stands for the map.** -/
structure Holds (root : Root α) (map : Map α) : Prop where
  sound : Sound root.height root.rnode root.tags
  high : root.height ≤ maxPath
  entries : ∀ i < mapSize ^ root.height, entry root.height root.rnode root.tags i = map i
  outside : ∀ i, mapSize ^ root.height ≤ i → map i = none
  small : ∀ i, map i ≠ none → i < 2 ^ 32

/-- No node of the tree is empty, and a tree with a height has a node. -/
structure Clean (root : Root α) : Prop where
  full : Full root.height root.rnode
  there : 0 < root.height → root.rnode.isNull = false

def put (map : Map α) (index : Nat) (value : Option (α × (Tag → Bool))) : Map α :=
  update map index value

theorem Holds.put (holds : Holds root map) (inside : index < mapSize ^ root.height)
    (small : index < 2 ^ 32) {value : Option (α × (Tag → Bool))}
    (done : Changed root.height index value root.tags bits root.rnode rnode) :
    Holds { root with rnode := rnode, tags := bits } (put map index value) where
  sound := done.sound
  high := holds.high
  entries := by
    intro i below
    refine (done.entries i).trans ?_
    by_cases same : i = index
    · subst same
      rw [if_pos (show SameLow root.height i i from rfl), Radix.put, update_self]
    · have apart : ¬ SameLow root.height i index := by
        rwa [SameLow, mod_eq_of_lt below, mod_eq_of_lt inside]
      rw [if_neg apart, Radix.put, update_of_ne same]
      exact holds.entries i below
  outside := by
    intro i above
    have differs : i ≠ index := by
      rintro rfl
      exact absurd inside (not_lt.mpr above)
    rw [Radix.put, update_of_ne differs]
    exact holds.outside i above
  small := by
    intro i present
    by_cases same : i = index
    · exact same ▸ small
    · rw [Radix.put, update_of_ne same] at present
      exact holds.small i present

/-! ### Readers -/

section

variable (holds : Holds root map)

include holds

theorem Holds.of_item (item : root.rnode = .item ptr) :
    root.height = 0 ∧ map 0 = some (ptr, root.tags) := by
  have sound := holds.sound
  have height : root.height = 0 := by
    cases h : root.height with
    | zero => rfl
    | succ h =>
      rw [item, h] at sound
      exact sound.elim
  have first := holds.entries 0 (Nat.pow_pos (by decide))
  rw [item, height] at first
  exact ⟨height, first.symm⟩

theorem Holds.of_node (node : root.rnode = .node height count slots tags) :
    height = root.height ∧ 0 < root.height := by
  have sound := holds.sound
  rw [node] at sound
  cases height : root.height with
  | zero =>
    rw [height] at sound
    exact sound.elim
  | succ h =>
    rw [height] at sound
    exact ⟨sound.1, succ_pos h⟩

theorem Holds.eq_none_of_null (null : root.rnode = .null) (i : Nat) : map i = none := by
  rcases lt_or_ge i (mapSize ^ root.height) with below | above
  · rw [← holds.entries i below, null, entry_null]
  · exact holds.outside i above

theorem radixTreeLookup_spec (small : index < 2 ^ 32) :
    radixTreeLookup root index = (map index).map Prod.fst := by
  unfold radixTreeLookup
  cases kind : root.rnode with
  | null => rw [holds.eq_none_of_null kind]; rfl
  | item ptr =>
    obtain ⟨height, first⟩ := holds.of_item kind
    dsimp only
    split
    case isTrue above =>
      rw [holds.outside index (by rw [height, pow_zero]; exact above)]
      rfl
    case isFalse zero =>
      obtain rfl : index = 0 := Nat.eq_zero_of_not_pos zero
      rw [first]
      rfl
  | node height count slots tags =>
    obtain ⟨rfl, -⟩ := holds.of_node kind
    dsimp only
    split
    case isTrue above => rw [holds.outside index ((maxindex_lt_iff small).mp above)]; rfl
    case isFalse below =>
      have inside := inside_of_le small below
      rw [← kind, (lookupAt_spec index holds.sound).1, holds.entries index inside]

end

theorem entry_of_child {off low : Nat} (inside : off < mapSize)
    (below : low < mapSize ^ h) :
    ∃ i < mapSize ^ (h + 1),
      entry (h + 1) (.node height count slots tags) bits i
        = entry h (slots off) (fun tag => tags tag off) low := by
  have positive : 0 < mapSize ^ h := Nat.pow_pos (by decide)
  have digit : offset (mapSize ^ h * off + low) h = off := by
    rw [offset, mul_add_div positive, div_eq_of_lt below, add_zero,
      mod_eq_of_lt inside]
  refine ⟨mapSize ^ h * off + low, ?_, ?_⟩
  · calc mapSize ^ h * off + low < mapSize ^ h * off + mapSize ^ h := Nat.add_lt_add_left below _
      _ = mapSize ^ h * (off + 1) := (mul_succ _ _).symm
      _ ≤ mapSize ^ h * mapSize := mul_le_mul_left _ inside
      _ = mapSize ^ (h + 1) := (pow_succ ..).symm
  · rw [entry, digit]
    refine entry_congr ?_
    rw [SameLow, mul_add_mod]

theorem anyTag_entry (sound : Sound h slot bits) (set : bits tag = true) :
    ∃ i < mapSize ^ h, tagOf (entry h slot bits i) tag = true := by
  induction sound using Sound.walk with
  | null h bits sound =>
    rw [sound_null.mp sound tag] at set
    cases set
  | item => exact ⟨0, by decide, set⟩
  | node h count slots tags bits sound ih =>
    rw [sound.2.2.1 tag, anyTagSet_iff] at set
    obtain ⟨off, inside, set⟩ := set
    obtain ⟨low, below, found⟩ := ih off inside set
    obtain ⟨i, inRange, same⟩ := entry_of_child inside below
    exact ⟨i, inRange, by rw [same]; exact found⟩

theorem tag_of_entry (sound : Sound h slot bits)
    (set : tagOf (entry h slot bits i) tag = true) : bits tag = true := by
  induction sound using Sound.walk with
  | null =>
    rw [entry_null] at set
    cases set
  | item => exact set
  | node h count slots tags bits sound ih =>
    rw [sound.2.2.1 tag, anyTagSet_iff]
    exact ⟨offset i h, offset_lt i h, ih _ (offset_lt i h) set⟩

theorem radixTreeTagged_spec (holds : Holds root map) (tag : Tag) :
    radixTreeTagged root tag = true ↔ ∃ i < 2 ^ 32, tagOf (map i) tag = true := by
  have present : ∀ {i}, tagOf (map i) tag = true → map i ≠ none := by
    intro i set none
    rw [none] at set
    cases set
  constructor
  · intro set
    obtain ⟨i, inside, found⟩ := anyTag_entry holds.sound set
    rw [holds.entries i inside] at found
    exact ⟨i, holds.small i (present found), found⟩
  rintro ⟨i, -, found⟩
  rcases lt_or_ge i (mapSize ^ root.height) with below | above
  · rw [← holds.entries i below] at found
    exact tag_of_entry holds.sound found
  · exact absurd (holds.outside i above) (present found)

theorem radixTreeTagGet_spec (holds : Holds root map) (small : index < 2 ^ 32) (tag : Tag) :
    radixTreeTagGet root index tag = tagOf (map index) tag := by
  unfold radixTreeTagGet
  split
  case isFalse unset =>
    rw [eq_comm, eq_false_iff]
    exact fun set => unset ((radixTreeTagged_spec holds tag).mpr ⟨index, small, set⟩)
  case isTrue set =>
    cases kind : root.rnode with
    | null => rw [holds.eq_none_of_null kind]; rfl
    | item ptr =>
      obtain ⟨height, first⟩ := holds.of_item kind
      by_cases zero : index = 0
      · subst zero
        rw [first]
        exact set.symm
      · rw [holds.outside index (by rw [height, pow_zero]; omega)]
        exact beq_false_of_ne zero
    | node height count slots tags =>
      obtain ⟨rfl, positive⟩ := holds.of_node kind
      dsimp only
      split
      case isTrue above => rw [holds.outside index ((maxindex_lt_iff small).mp above)]; rfl
      case isFalse below =>
        have inside := inside_of_le small below
        have sound := holds.sound
        rw [← kind, ← holds.entries index inside]
        obtain ⟨h, height⟩ := exists_eq_add_one.mpr positive
        rw [height] at sound ⊢
        exact tagGetAt_spec sound

/-! ### Insertion -/

theorem offset_eq_zero (below : i < mapSize ^ h) : offset i h = 0 := by
  rw [offset, div_eq_of_lt below]
  rfl

theorem offset_ne_zero (above : mapSize ^ h ≤ i) (below : i < mapSize ^ (h + 1)) :
    offset i h ≠ 0 := by
  have positive : 0 < mapSize ^ h := Nat.pow_pos (by decide)
  have quotient : i / mapSize ^ h < mapSize := by
    rw [div_lt_iff_lt_mul positive, mul_comm, ← pow_succ]
    exact below
  rw [offset, mod_eq_of_lt quotient]
  exact pos_iff_ne_zero.mp (div_pos above positive)

theorem Holds.raise (holds : Holds root map) (there : root.rnode.isNull = false)
    (low : root.height < maxPath) : Holds (raise root) map where
  sound := by
    refine ⟨rfl, ?_, fun tag => ?_, fun off inside => ?_⟩
    · have zero : (range mapSize).countP
          (fun off => !(if off = 0 then root.rnode else .null).isNull)
          = (range mapSize).countP (fun off => decide (off = 0)) := by
        refine countP_congr fun off _ => ?_
        by_cases first : off = 0
        · simp [first, there]
        · simp [first, Slot.isNull]
      rw [zero]
      decide
    · rw [eq_comm, Bool.eq_iff_iff, anyTagSet_iff]
      constructor
      · rintro ⟨off, -, set⟩
        exact (and_eq_true_iff.mp set).1
      · exact fun set => ⟨0, by decide, and_eq_true_iff.mpr ⟨set, rfl⟩⟩
    dsimp only
    by_cases first : off = 0
    · subst first
      simpa using holds.sound
    · rw [if_neg first, sound_null]
      intro tag
      rw [beq_false_of_ne first, Bool.and_false]
  high := low
  entries := by
    intro i inside
    rcases lt_or_ge i (mapSize ^ root.height) with below | above
    · rw [← holds.entries i below]
      show entry (root.height + 1) (.node _ _ _ _) _ i = _
      rw [entry, offset_eq_zero below]
      simp
    · rw [holds.outside i above]
      show entry (root.height + 1) (.node _ _ _ _) _ i = _
      rw [entry, if_neg (offset_ne_zero above inside), entry_null]
  outside := by
    intro i above
    refine holds.outside i (le_trans ?_ above)
    exact Nat.pow_le_pow_right (by decide) (le_succ _)
  small := holds.small

theorem Full.raise (full : Full root.height root.rnode) :
    Full (Radix.raise root).height (Radix.raise root).rnode := by
  refine ⟨one_ne_zero, fun off _ => ?_⟩
  dsimp only
  by_cases first : off = 0
  · rw [if_pos first]
    exact full
  · rw [if_neg first]
    exact full_null

theorem extendLoop_spec (holds : Holds root map) (there : root.rnode.isNull = false)
    (low : root.height + levels ≤ maxPath) :
    ∃ result root', extendLoop levels root grants = (result, root') ∧ Holds root' map ∧
      (Full root.height root.rnode → Full root'.height root'.rnode) ∧ (result = .error .enomem ∨
        ∃ left, result = .ok left ∧ root'.height = root.height + levels) := by
  induction levels generalizing root grants with
  | zero => exact ⟨_, _, rfl, holds, id, .inr ⟨_, rfl, rfl⟩⟩
  | succ levels ih =>
    cases grants with
    | zero => exact ⟨_, _, rfl, holds, id, .inl rfl⟩
    | succ grants =>
      have height : (raise root).height = root.height + 1 := rfl
      obtain ⟨result, root', equation, holds', full, done⟩ := @ih grants (raise root)
        (holds.raise there (by omega)) rfl (by rw [height]; omega)
      refine ⟨result, root', equation, holds', fun before => full before.raise, done.imp_right ?_⟩
      rintro ⟨left, ok, high⟩
      exact ⟨left, ok, by omega⟩

theorem heightFor_spec (small : index < 2 ^ 32) (enough : maxPath ≤ fuel + height)
    (low : height ≤ maxPath) : height ≤ heightFor index fuel height ∧
      heightFor index fuel height ≤ maxPath ∧ index < mapSize ^ heightFor index fuel height := by
  have top : index < mapSize ^ maxPath := lt_of_lt_of_le small (by decide)
  induction fuel generalizing height with
  | zero =>
    obtain rfl : height = maxPath := by omega
    exact ⟨le_rfl, le_rfl, top⟩
  | succ fuel ih =>
    rw [heightFor]
    split
    case isTrue above =>
      have differs : height ≠ maxPath := by
        rintro rfl
        exact absurd top (not_lt.mpr ((maxindex_lt_iff small).mp above))
      obtain ⟨le, most, inside⟩ := @ih (height + 1) (by omega) (by omega)
      exact ⟨by omega, most, inside⟩
    case isFalse below =>
      exact ⟨le_rfl, low, inside_of_le small below⟩

section

variable (holds : Holds root map) (small : index < 2 ^ 32)

include holds small

theorem radixTreeExtend_spec (outside : mapSize ^ root.height ≤ index) (grants : Nat) :
    ∃ result root', radixTreeExtend root index grants = (result, root') ∧ Holds root' map ∧
      (Full root.height root.rnode → Full root'.height root'.rnode) ∧
      (result = .error .enomem ∨ ∃ left, result = .ok left ∧ index < mapSize ^ root'.height) := by
  have low : root.height < maxPath := by
    refine lt_of_le_of_ne holds.high fun same => ?_
    rw [same] at outside
    exact absurd (lt_of_lt_of_le small (by decide)) (not_lt.mpr outside)
  obtain ⟨le, most, inside⟩ := @heightFor_spec index (root.height + 1) maxPath small
    (le_add_right _ _) low
  rw [radixTreeExtend]
  generalize heightFor index maxPath (root.height + 1) = height at le most inside
  split
  case isTrue null =>
    have empty := eq_null_of_isNull null
    have none := holds.eq_none_of_null empty
    have sound := holds.sound
    rw [empty, sound_null] at sound
    refine ⟨_, _, rfl, ⟨?_, most, fun i _ => ?_, fun i _ => none i, holds.small⟩, fun _ => ?_,
      .inr ⟨_, rfl, inside⟩⟩
    · rw [empty, sound_null]
      exact sound
    · rw [empty, entry_null, none]
    · rw [empty]
      exact full_null
  case isFalse there =>
    obtain ⟨result, root', equation, holds', full, done⟩ :=
      @extendLoop_spec α (height - root.height) grants map root holds (eq_false_iff.mpr there)
        (by omega)
    refine ⟨result, root', equation, holds', full, done.imp_right ?_⟩
    rintro ⟨left, ok, high⟩
    rw [Nat.add_sub_cancel' (by omega)] at high
    exact ⟨left, ok, high ▸ inside⟩

/-- What an insertion comes to for the map. -/
structure InsertedIn (root : Root α) (map : Map α) (index : Nat) (ptr : α)
    (result : Except Errno Unit) (root' : Root α) : Prop where
  ok : result = .ok () → map index = none ∧ Holds root' (put map index (some (ptr, fun _ => false)))
  error : ∀ errno, result = .error errno → Holds root' map ∧
    ((errno = .eexist ∧ map index ≠ none) ∨ errno = .enomem)
  clean : result ≠ .error .enomem → Full root.height root.rnode → Clean root'

theorem insertBelow_spec (inside : index < mapSize ^ root.height) (ptr : α) (grants : Nat) :
    ∃ result root', insertBelow root index ptr grants = some (result, root') ∧
      InsertedIn root map index ptr result root' := by
  obtain ⟨result, rnode, equation, done⟩ :=
    @insertAt_spec α root.height root.rnode root.tags index ptr grants holds.sound
  have there := holds.entries index inside
  refine ⟨result, { root with rnode := rnode }, by rw [insertBelow, equation]; rfl, ?_, ?_, ?_⟩
  · rintro rfl
    exact ⟨there ▸ (done.ok rfl).2, holds.put inside small done.changed⟩
  · rintro errno rfl
    have held := holds.put inside small done.changed
    rw [leaves, there, Radix.put, update_eq_self] at held
    exact ⟨held, there ▸ done.error errno rfl⟩
  · exact fun enough full => ⟨done.full enough full, fun _ => done.there enough⟩

theorem radixTreeInsert_spec (ptr : α) (grants : Nat) :
    ∃ result root', radixTreeInsert root index ptr grants = some (result, root') ∧
      InsertedIn root map index ptr result root' := by
  rw [radixTreeInsert]
  split
  case isFalse below =>
    exact insertBelow_spec holds small (inside_of_le small below) ptr grants
  case isTrue above =>
    obtain ⟨_, raised, extends', holds', full, short | ⟨left, ok, inside⟩⟩ :=
      radixTreeExtend_spec holds small ((maxindex_lt_iff small).mp above) grants
    · rw [extends', short]
      exact ⟨_, _, rfl, nofun, fun errno error => ⟨holds', .inr (by cases error; rfl)⟩,
        fun enough => absurd rfl enough⟩
    · rw [extends', ok]
      obtain ⟨result, root', equation, done⟩ := insertBelow_spec holds' small inside ptr left
      exact ⟨result, root', equation, done.ok, done.error,
        fun enough before => done.clean enough (full before)⟩

end

/-! ### Tags and deletion -/

theorem Holds.inside_of_present (holds : Holds root map) (there : map index = some (ptr, own)) :
    index < 2 ^ 32 ∧ index < mapSize ^ root.height ∧
      entry root.height root.rnode root.tags index = some (ptr, own) := by
  have inside : index < mapSize ^ root.height := by
    refine Nat.lt_of_not_le fun above => ?_
    rw [holds.outside index above] at there
    cases there
  exact ⟨holds.small index (there ▸ some_ne_none _), inside, (holds.entries index inside).trans there⟩

def retag (map : Map α) (index : Nat) (tag : Tag) (value : Bool) : Map α :=
  put map index ((map index).map fun item => (item.1, update item.2 tag value))

theorem put_absent (absent : map index = none) : put map index none = map := by
  rw [put, ← absent]
  exact update_eq_self index map

theorem retag_absent (absent : map index = none) : retag map index tag value = map := by
  rw [retag, absent]
  exact put_absent absent

theorem Holds.retag (holds : Holds root map) (there : map index = some (ptr, own))
    (done : Retags root.height index (ptr, update own tag value) root.tags bits root.rnode rnode) :
    Holds { root with rnode := rnode, tags := bits } (retag map index tag value) ∧
      (Clean root → Clean { root with rnode := rnode, tags := bits }) := by
  obtain ⟨small, inside, -⟩ := holds.inside_of_present there
  refine ⟨?_, fun clean => ⟨done.full clean.full, fun _ => done.kept⟩⟩
  rw [Radix.retag, there]
  exact holds.put inside small done.toChanged

/-- **What `radix_tree_tag_set` does** to an item that is present. -/
theorem radixTreeTagSet_spec (holds : Holds root map) (there : map index = some (ptr, own))
    (tag : Tag) : ∃ root', radixTreeTagSet root index tag = some (some ptr, root') ∧
      Holds root' (retag map index tag true) ∧ (Clean root → Clean root') := by
  obtain ⟨small, inside, found⟩ := holds.inside_of_present there
  obtain ⟨rnode, equation, done⟩ := tagSetAt_spec tag holds.sound found
  have inRange : ¬ index > radixTreeMaxindex root.height := fun above =>
    absurd inside (not_lt.mpr ((maxindex_lt_iff small).mp above))
  have notNull := not_null_of_entry found
  have item : (lookupAt index root.height root.rnode).toPtr = some ptr := by
    rw [(lookupAt_spec index holds.sound).1, found]
    rfl
  refine ⟨_, ?_, holds.retag there done⟩
  rw [radixTreeTagSet, if_neg inRange, if_neg (by rw [notNull]; exact fun null => nomatch null.2),
    equation, item]
  rfl

theorem tagSetAt_absent (sound : Sound h slot bits) (absent : entry h slot bits index = none) :
    tagSetAt index tag h slot = none := by
  induction sound using Sound.walk with
  | null h => cases h <;> rfl
  | item => cases absent
  | node h _ _ _ _ _ ih =>
    rw [tagSetAt, ih _ (offset_lt index h) absent]
    rfl

section

variable (holds : Holds root map)

include holds

theorem radixTreeTagSet_absent (small : index < 2 ^ 32) (absent : map index = none) (tag : Tag) :
    radixTreeTagSet root index tag = none ∨ radixTreeTagSet root index tag = some (none, root) := by
  rw [radixTreeTagSet]
  split
  case isTrue above => exact .inl rfl
  case isFalse below =>
    have inside := inside_of_le small below
    split
    case isTrue empty => exact .inr rfl
    case isFalse there =>
      rw [tagSetAt_absent holds.sound ((holds.entries index inside).trans absent)]
      exact .inl rfl

theorem radixTreeTagClear_spec (small : index < 2 ^ 32) (tag : Tag) :
    (radixTreeTagClear root index tag).1 = (map index).map Prod.fst ∧
      (radixTreeTagClear root index tag).2.height = root.height ∧
      Holds (radixTreeTagClear root index tag).2 (retag map index tag false) ∧
      (Clean root → Clean (radixTreeTagClear root index tag).2) := by
  rw [radixTreeTagClear]
  split
  case isTrue above =>
    have none := holds.outside index ((maxindex_lt_iff small).mp above)
    rw [retag_absent none, none]
    exact ⟨rfl, rfl, holds, id⟩
  case isFalse below =>
    have inside := inside_of_le small below
    obtain ⟨item, empty⟩ := lookupAt_spec index holds.sound
    rw [holds.entries index inside] at item empty
    split
    case isTrue null =>
      have none := empty.mp null
      rw [retag_absent none, none]
      exact ⟨rfl, rfl, holds, id⟩
    case isFalse present =>
      obtain ⟨⟨ptr, own⟩, there⟩ := ne_none_iff_exists'.mp fun none => present (empty.mpr none)
      have done := clearAt_spec tag holds.sound (holds.inside_of_present there).2.2
      refine ⟨item, ?_⟩
      generalize clearAt index tag root.height root.rnode = cleared at done
      obtain ⟨rnode, clear⟩ := cleared
      cases clear with
      | false | true => exact ⟨rfl, holds.retag there done⟩

theorem clearTag_spec (there : map index = some (ptr, own)) (positive : 0 < root.height) (tag : Tag) :
    ∃ root',
      (if tagGetAt index tag root.height root.rnode then (radixTreeTagClear root index tag).2
        else root) = root' ∧ root'.height = root.height ∧
      Holds root' (put map index (some (ptr, update own tag false))) ∧
      (Clean root → Clean root') := by
  obtain ⟨small, inside, found⟩ := holds.inside_of_present there
  refine ⟨_, rfl, ?_⟩
  split
  case isTrue set =>
    obtain ⟨-, height, holds', clean⟩ := radixTreeTagClear_spec holds small tag
    rw [retag, there] at holds'
    exact ⟨height, holds', clean⟩
  case isFalse unset =>
    have off : own tag = false := by
      obtain ⟨h, height⟩ := exists_eq_add_one.mpr positive
      have sound := holds.sound
      rw [height] at sound unset found
      rw [tagGetAt_spec sound, found] at unset
      exact eq_false_iff.mpr unset
    rw [← off, update_eq_self, put, ← there, update_eq_self]
    exact ⟨rfl, holds, id⟩

theorem clearTags_spec (there : map index = some (ptr, own)) (positive : 0 < root.height) :
    (clearTags root index).height = root.height ∧
      Holds (clearTags root index) (put map index (some (ptr, fun _ => false))) ∧
      (Clean root → Clean (clearTags root index)) := by
  obtain ⟨first, one, height, holds', clean⟩ := clearTag_spec holds there positive 0
  obtain ⟨second, two, height', holds'', clean'⟩ :=
    clearTag_spec holds' (update_self ..) (height ▸ positive) 1
  have both : clearTags root index = second := by
    rw [clearTags, show finRange 2 = [0, 1] from rfl, foldl_cons, foldl_cons,
      foldl_nil, one, two]
  have none : update (update own 0 false) 1 false = fun _ : Tag => false := by
    funext tag
    match tag with
    | 0 => rfl
    | 1 => rfl
  rw [put, put, update_idem, none] at holds''
  rw [both, put]
  exact ⟨height'.trans height, holds'', fun before => clean' (clean before)⟩

end

/-- **What `radix_tree_shrink` does**: nothing, for the map. -/
theorem radixTreeShrink_spec (holds : Holds root map)
    (height : root.height = h) (notNull : root.rnode.isNull = false) :
    ∃ root', radixTreeShrink h root = some root' ∧ Holds root' map ∧ (Clean root → Clean root') := by
  induction h generalizing root with
  | zero => exact ⟨root, rfl, holds, id⟩
  | succ h ih =>
    have sound := holds.sound
    have entries := holds.entries
    have outside := holds.outside
    rw [height] at sound entries outside
    rcases sound.cases_succ with null | ⟨count, slots, tags, node⟩
    · rw [null] at notNull
      cases notNull
    rw [radixTreeShrink, node]
    dsimp only
    rw [node] at sound entries
    obtain ⟨-, counted, union, below⟩ := sound
    split
    case isTrue stop => exact ⟨root, rfl, holds, id⟩
    case isFalse go =>
      obtain ⟨one, there⟩ := not_or.mp go
      obtain rfl : count = 1 := not_not.mp one
      -- the only child is the first one
      have others : ∀ off < mapSize, off ≠ 0 → slots off = .null := by
        intro off inside differs
        refine eq_null_of_isNull ?_
        have empty := Lib.countP_eq_one counted.symm (mem_range.mpr (by decide))
          (show (!(slots 0).isNull) = true by simpa using there) off
          (mem_range.mpr inside) differs
        simpa using empty
      have bits : root.tags = fun tag => tags tag 0 := by
        funext tag
        rw [union tag, Bool.eq_iff_iff, anyTagSet_iff]
        refine ⟨?_, fun set => ⟨0, by decide, set⟩⟩
        rintro ⟨off, inside, set⟩
        by_cases first : off = 0
        · exact first ▸ set
        have null := below off inside
        rw [others off inside first, sound_null] at null
        rw [null tag] at set
        cases set
      have lower : Holds { root with rnode := slots 0, height := h } map := by
        refine ⟨?_, ?_, fun i inside => ?_, fun i above => ?_, holds.small⟩
        · rw [bits]
          exact below 0 (by decide)
        · exact le_trans (by rw [height]; exact le_succ h) holds.high
        · rw [← entries i (lt_of_lt_of_le inside
            (Nat.pow_le_pow_right (by decide) (le_succ h))), entry,
            offset_eq_zero inside, bits]
        · rcases lt_or_ge i (mapSize ^ (h + 1)) with inRange | beyond
          · rw [← entries i inRange, entry,
              others _ (offset_lt i h) (offset_ne_zero above inRange), entry_null]
          · exact outside i beyond
      obtain ⟨root', equation, holds', clean⟩ := ih lower rfl (eq_false_iff.mpr there)
      refine ⟨root', equation, holds', fun before => clean ⟨?_, fun _ => ?_⟩⟩
      · have full := before.full
        rw [height, node] at full
        exact full.2 0 (by decide)
      · exact eq_false_iff.mpr there

theorem holds_reset (absent : ∀ i, map i = none) :
    Holds (⟨.null, 0, fun _ => false⟩ : Root α) map where
  sound := sound_null.mpr fun _ => rfl
  high := zero_le _
  entries := fun i _ => by rw [entry_null, absent]
  outside := fun i _ => absent i
  small := fun i present => absurd (absent i) present

theorem clean_reset : Clean (⟨.null, 0, fun _ => false⟩ : Root α) :=
  ⟨full_null, fun positive => absurd positive (lt_irrefl 0)⟩

theorem unlink_spec (holds : Holds root map) (there : map index = some (ptr, fun _ => false))
    (positive : 0 < root.height) : ∃ root', unlink root index = some root' ∧
      Holds root' (put map index none) ∧ (Clean root → Clean root') := by
  obtain ⟨small, inside, found⟩ := holds.inside_of_present there
  obtain ⟨removed, full'⟩ := removeAt_spec holds.sound found
  have holds' := holds.put inside small removed
  obtain ⟨h, height⟩ := exists_eq_add_one.mpr positive
  have kind := holds.sound
  rw [height] at kind
  rcases kind.cases_succ with null | ⟨count, slots, tags, node⟩
  · rw [null, entry_null] at found
    cases found
  have shape : unlink root index =
      (if (removeAt index root.height root.rnode).isNull then some ⟨.null, 0, fun _ => false⟩
      else if (removeAt index h (slots (offset index h))).isNull then
        radixTreeShrink root.height { root with rnode := removeAt index root.height root.rnode }
      else some { root with rnode := removeAt index root.height root.rnode }) := by
    rw [unlink, height, node]
  rw [shape]
  split
  case isTrue null =>
    refine ⟨_, rfl, holds_reset fun i => ?_, fun _ => clean_reset⟩
    exact holds'.eq_none_of_null (eq_null_of_isNull null) i
  case isFalse notNull =>
    have kept := eq_false_iff.mpr notNull
    have clean : Clean root →
        Clean { root with rnode := removeAt index root.height root.rnode } :=
      fun before => ⟨full' before.full, fun _ => kept⟩
    split
    case isTrue last =>
      obtain ⟨root', equation, holds'', clean'⟩ := radixTreeShrink_spec holds' rfl kept
      exact ⟨root', equation, holds'', fun before => clean' (clean before)⟩
    case isFalse more => exact ⟨_, rfl, holds', clean⟩

theorem radixTreeDelete_spec (holds : Holds root map) (small : index < 2 ^ 32) :
    ∃ root', radixTreeDelete root index = some ((map index).map Prod.fst, root') ∧
      Holds root' (put map index none) ∧ (Clean root → Clean root') := by
  rw [radixTreeDelete]
  split
  case isTrue above =>
    have none := holds.outside index ((maxindex_lt_iff small).mp above)
    rw [put_absent none, none]
    exact ⟨root, rfl, holds, id⟩
  case isFalse below =>
    have inside := inside_of_le small below
    obtain ⟨item, empty⟩ := lookupAt_spec index holds.sound
    rw [holds.entries index inside] at item empty
    split
    case isTrue flat =>
      rw [flat] at item inside
      refine ⟨_, congrArg (fun found => some (found, _)) item, holds_reset fun i => ?_,
        fun _ => clean_reset⟩
      obtain rfl : index = 0 := lt_one_iff.mp inside
      by_cases first : i = 0
      · rw [first, put, update_self]
      · rw [put, update_of_ne first, holds.outside i]
        rw [flat]
        exact pos_of_ne_zero first
    case isFalse raised =>
      split
      case isTrue null =>
        have none := empty.mp null
        rw [put_absent none, none]
        exact ⟨root, rfl, holds, id⟩
      case isFalse present =>
        obtain ⟨⟨ptr, own⟩, there⟩ := ne_none_iff_exists'.mp fun none => present (empty.mpr none)
        have positive := pos_of_ne_zero raised
        obtain ⟨height, holds', clean⟩ := clearTags_spec holds there positive
        obtain ⟨root', equation, holds'', clean'⟩ :=
          unlink_spec holds' (update_self ..) (height ▸ positive)
        rw [put, put, update_idem] at holds''
        refine ⟨root', ?_, holds'', fun before => clean' (clean before)⟩
        rw [equation, item]
        rfl

end KernelImx.Radix
