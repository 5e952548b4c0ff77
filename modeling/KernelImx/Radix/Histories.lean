/-
**A radix tree is a tagged map.**

A run inserts, deletes, sets and clears tags in any order, with an allocator that may fail at every
node. Beside the tree goes the map of the items that were inserted and not deleted, with their tags.

* **`radix_tree_tagged_map`**: after every run the readers answer from the map, tags are unions, and
  a tree without items has no tags; it is reset if no insertion of the run ran out of memory.
-/

import KernelImx.Radix.TaggedMap
import KernelImx.Lib.Runs

namespace KernelImx.Radix

open Bool BitVec List Function

open Lib (exec exec_or_stuck)

variable {α : Type}

/-! ### Runs -/

/-- A call on the tree; an insertion comes with the number of nodes the allocator still grants. -/
inductive Call (α : Type)
  | insert (index : BitVec 32) (ptr : α) (grants : Nat)
  | delete (index : BitVec 32)
  | tagSet (index : BitVec 32) (tag : Tag)
  | tagClear (index : BitVec 32) (tag : Tag)

/-- The tree, the tagged items inserted and not deleted, and whether an insertion ran out of memory.
-/
structure State (α : Type) where
  root : Root α
  map : Map α
  short : Bool

/-- An empty tree, as `RADIX_TREE_INIT` makes it. -/
def start : State α :=
  ⟨⟨.null, 0, fun _ => false⟩, fun _ => none, false⟩

/-- A call, `none` when it stops at a `BUG_ON`. -/
def step (state : State α) : Call α → Option (State α)
  | .insert index ptr grants =>
    (radixTreeInsert state.root index.toNat ptr grants).map fun answer =>
      match answer.1 with
      | .ok () => ⟨answer.2, put state.map index.toNat (some (ptr, fun _ => false)), state.short⟩
      | .error errno => ⟨answer.2, state.map, state.short || errno == .enomem⟩
  | .delete index =>
    (radixTreeDelete state.root index.toNat).map fun answer =>
      ⟨answer.2, put state.map index.toNat none, state.short⟩
  | .tagSet index tag =>
    (radixTreeTagSet state.root index.toNat tag).map fun answer =>
      ⟨answer.2, retag state.map index.toNat tag true, state.short⟩
  | .tagClear index tag =>
    some ⟨(radixTreeTagClear state.root index.toNat tag).2,
      retag state.map index.toNat tag false, state.short⟩

/-- What holds between the calls. -/
structure Kept (state : State α) : Prop where
  holds : Holds state.root state.map
  clean : state.short = false → Clean state.root

theorem kept_start : Kept (start : State α) :=
  ⟨holds_reset fun _ => rfl, fun _ => clean_reset⟩

/-- The call is a `radix_tree_tag_set` on an absent item that stops at the `BUG_ON`. -/
def TagsAbsent (state : State α) (call : Call α) : Prop :=
  ∃ index tag, call = .tagSet index tag ∧ state.map index.toNat = none ∧
    radixTreeTagSet state.root index.toNat tag = none

/-- Every call keeps tree and map together, or is a `radix_tree_tag_set` that stops at its `BUG_ON`.
-/
theorem step_kept {state : State α} (kept : Kept state) (call : Call α) :
    (∃ next, step state call = some next ∧ Kept next) ∨ TagsAbsent state call := by
  obtain ⟨holds, clean⟩ := kept
  cases call with
  | insert index ptr grants =>
    obtain ⟨result, root', equation, done⟩ := radixTreeInsert_spec holds index.isLt ptr grants
    refine .inl ⟨_, congrArg (Option.map _) equation, ?_⟩
    cases result with
    | ok _ => exact ⟨(done.ok rfl).2, fun enough => done.clean nofun (clean enough).full⟩
    | error errno =>
      refine ⟨(done.error errno rfl).1, fun enough => ?_⟩
      obtain ⟨before, differs⟩ := or_eq_false_iff.mp enough
      refine done.clean (fun short => ?_) (clean before).full
      cases short
      cases differs
  | delete index =>
    obtain ⟨root', equation, holds', clean'⟩ := radixTreeDelete_spec holds index.isLt
    exact .inl ⟨_, congrArg (Option.map _) equation, holds', fun enough => clean' (clean enough)⟩
  | tagSet index tag =>
    cases there : state.map index.toNat with
    | none =>
      rcases radixTreeTagSet_absent holds index.isLt there tag with bug | same
      · exact .inr ⟨index, tag, rfl, there, bug⟩
      · exact .inl ⟨_, congrArg (Option.map _) same, (retag_absent there).symm ▸ holds, clean⟩
    | some found =>
      obtain ⟨root', equation, holds', clean'⟩ := radixTreeTagSet_spec holds there tag
      exact .inl ⟨_, congrArg (Option.map _) equation, holds',
        fun enough => clean' (clean enough)⟩
  | tagClear index tag =>
    obtain ⟨-, -, holds', clean'⟩ := radixTreeTagClear_spec holds index.isLt tag
    exact .inl ⟨_, rfl, holds', fun enough => clean' (clean enough)⟩

/-! ### What the readers see -/

theorem exists_entry {h : Nat} {slot : Slot α} {bits : Tag → Bool} (sound : Sound h slot bits)
    (full : Full h slot) (there : slot.isNull = false) :
    ∃ i < mapSize ^ h, entry h slot bits i ≠ none := by
  induction sound using Sound.walk with
  | null => cases there
  | item => exact ⟨0, by decide, nofun⟩
  | node h count slots tags bits sound ih =>
    have some : ∃ off ∈ range mapSize, !(slots off).isNull := by
      rw [← countP_pos_iff, ← sound.2.1]
      exact pos_of_ne_zero full.1
    obtain ⟨off, inside, notNull⟩ := some
    have inside := mem_range.mp inside
    obtain ⟨low, below, found⟩ := ih off inside (full.2 off inside) (by simpa using notNull)
    obtain ⟨i, inRange, same⟩ := entry_of_child inside below
    exact ⟨i, inRange, by rw [same]; exact found⟩

/-- The facts about a tree and the map that goes with it. -/
structure TaggedMap (state : State α) : Prop where
  lookup : ∀ index : BitVec 32,
    radixTreeLookup state.root index.toNat = (state.map index.toNat).map Prod.fst
  tagGet : ∀ (index : BitVec 32) tag,
    radixTreeTagGet state.root index.toNat tag = tagOf (state.map index.toNat) tag
  tagged : ∀ tag, radixTreeTagged state.root tag = true ↔
    ∃ index : BitVec 32, tagOf (state.map index.toNat) tag = true
  /-- Every tag of a node is the union of the tags below it. -/
  union : Sound state.root.height state.root.rnode state.root.tags
  /-- An insertion that fails changes nothing a reader sees. -/
  refused : ∀ (index : BitVec 32) ptr grants errno root',
    radixTreeInsert state.root index.toNat ptr grants = some (.error errno, root') →
    (errno = .eexist ∨ errno = .enomem) ∧
    ∀ (other : BitVec 32) tag,
      radixTreeLookup root' other.toNat = radixTreeLookup state.root other.toNat ∧
      radixTreeTagGet root' other.toNat tag = radixTreeTagGet state.root other.toNat tag ∧
      radixTreeTagged root' tag = radixTreeTagged state.root tag
  /-- A tree without items has no tags, and without a shortage of memory nothing else either. -/
  emptied : (∀ index : BitVec 32, state.map index.toNat = none) →
    (∀ tag, state.root.tags tag = false) ∧
      (state.short = false → state.root.rnode = .null ∧ state.root.height = 0)

theorem Kept.emptied {state : State α} (kept : Kept state)
    (absent : ∀ index : BitVec 32, state.map index.toNat = none) :
    (∀ tag, state.root.tags tag = false) ∧
      (state.short = false → state.root.rnode = .null ∧ state.root.height = 0) := by
  obtain ⟨holds, clean⟩ := kept
  have nothing : ∀ i, state.map i = none := by
    intro i
    by_contra present
    have small := holds.small i present
    have none := absent (BitVec.ofNat 32 i)
    rw [toNat_ofNat, Nat.mod_eq_of_lt small] at none
    exact present none
  refine ⟨fun tag => eq_false_iff.mpr fun set => ?_, fun enough => ?_⟩
  · obtain ⟨i, -, found⟩ := (radixTreeTagged_spec holds tag).mp set
    rw [nothing i] at found
    cases found
  have null : state.root.rnode.isNull = true := by
    by_contra there
    obtain ⟨i, inside, found⟩ := exists_entry holds.sound (clean enough).full
      (eq_false_iff.mpr there)
    exact found ((holds.entries i inside).trans (nothing i))
  refine ⟨eq_null_of_isNull null, Nat.eq_zero_of_not_pos fun positive => ?_⟩
  rw [(clean enough).there positive] at null
  cases null

theorem Kept.taggedMap {state : State α} (kept : Kept state) : TaggedMap state where
  lookup := fun index => radixTreeLookup_spec kept.holds index.isLt
  tagGet := fun index tag => radixTreeTagGet_spec kept.holds index.isLt tag
  tagged := by
    intro tag
    rw [radixTreeTagged_spec kept.holds tag]
    constructor
    · rintro ⟨i, small, set⟩
      refine ⟨BitVec.ofNat 32 i, ?_⟩
      rw [toNat_ofNat, Nat.mod_eq_of_lt small]
      exact set
    · rintro ⟨index, set⟩
      exact ⟨index.toNat, index.isLt, set⟩
  union := kept.holds.sound
  refused := by
    intro index ptr grants errno root' failed
    obtain ⟨result, root'', equation, done⟩ := radixTreeInsert_spec kept.holds index.isLt ptr grants
    rw [equation] at failed
    cases failed
    obtain ⟨holds', reason⟩ := done.error errno rfl
    refine ⟨reason.imp And.left id, fun other tag => ⟨?_, ?_, ?_⟩⟩
    · rw [radixTreeLookup_spec holds' other.isLt, radixTreeLookup_spec kept.holds other.isLt]
    · rw [radixTreeTagGet_spec holds' other.isLt, radixTreeTagGet_spec kept.holds other.isLt]
    · rw [Bool.eq_iff_iff, radixTreeTagged_spec holds', radixTreeTagged_spec kept.holds]
  emptied := kept.emptied

/-- **A radix tree is a tagged map**, unless a call sets a tag on an absent item, at which a run
stops. -/
theorem radix_tree_tagged_map (calls : List (Call α)) :
    (∃ state, exec step start calls = some state ∧ TaggedMap state) ∨
      ∃ front call back state, calls = front ++ call :: back ∧
        exec step start front = some state ∧ TagsAbsent state call := by
  rcases exec_or_stuck Kept TagsAbsent (fun _ call kept => step_kept kept call) calls kept_start
    with ⟨state, run, kept⟩ | ⟨front, call, back, state, split, run, -, stuck⟩
  · exact .inl ⟨state, run, kept.taggedMap⟩
  · exact .inr ⟨front, call, back, state, split, run, stuck⟩

/-- The insertion at 4096 raises the tree by two levels and adds a node on the way down before the
allocator fails; after the deletion these nodes are left. -/
theorem half_built_path : ∃ state : State Nat,
    exec step start [.insert 1 10 1, .insert 4096 20 3, .delete 1] = some state ∧
      (∀ index : BitVec 32, state.map index.toNat = none) ∧
      state.root.rnode.isNull = false ∧ state.root.height = 3 := by
  refine ⟨_, rfl, fun index => ?_, rfl, rfl⟩
  show put (put (fun _ => none) 1 (some (10, fun _ => false))) 1 none index.toNat = none
  rw [put, put, update_idem, update_apply, ite_self]

end KernelImx.Radix
