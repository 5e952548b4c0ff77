/-
**The free blocks of a zone.**

`Kept` says what a zone keeps, for the set of pages that are free: the blocks on the lists are apart
and hold the free pages, no two buddies are both free, `PG_buddy` and `page_private` tell the heads of
the blocks and their orders, and `nr_free` counts them.

Main results: `freeOnePage_kept`, `expand_kept`.
-/

import KernelImx.Lib.Dyadic
import KernelImx.PageAlloc.Zone
import Mathlib.Data.List.Nodup
import Mathlib.Data.List.Perm.Basic

namespace KernelImx.PageAlloc

open Function List KernelImx.Lib.Dyadic Nat Block

/-! ### Lists -/

variable {order page : Nat} {zone : Zone} {state : State} {points : Nat → Prop}
  {migratetype : Migratetype}

theorem mem_blocks {migratetype : Migratetype}
    (member : page ∈ state.freeList order migratetype) : page ∈ state.blocks order := by
  refine mem_flatMap.mpr ⟨migratetype, ?_, member⟩
  cases migratetype <;> decide

variable {β α : Type} {item : β} {part : α → List β}

theorem flatMap_erase [DecidableEq β] {parts : List α} (nodup : (parts.flatMap part).Nodup) :
    parts.flatMap (fun name => (part name).erase item) = (parts.flatMap part).erase item := by
  rw [nodup.erase_eq_filter, filter_flatMap]
  refine flatMap_congr fun name member => ?_
  exact ((nodup_flatMap.mp nodup).1 name member).erase_eq_filter item

theorem blocks_listDel (nodup : (state.blocks order).Nodup) :
    (state.listDel page).blocks order = (state.blocks order).erase page :=
  flatMap_erase nodup

theorem flatMap_update_perm [DecidableEq α] {name : α} {list : List β}
    (added : Perm list (item :: part name)) :
    ∀ {parts : List α}, parts.Nodup → name ∈ parts →
      (parts.flatMap (update part name list)).Perm (item :: parts.flatMap part) := by
  intro parts
  induction parts with
  | nil =>
    intro _ member
    cases member
  | cons first rest ih =>
    intro nodup member
    obtain ⟨absent, nodup⟩ := nodup_cons.mp nodup
    rw [flatMap_cons, flatMap_cons]
    by_cases here : first = name
    · subst here
      have others : rest.flatMap (update part first list) = rest.flatMap part :=
        flatMap_congr fun other inside =>
          update_of_ne (fun equal : other = first => absent (equal ▸ inside)) _ _
      rw [update_self, others]
      exact added.append_right _
    · rw [update_of_ne here]
      have later := (mem_cons.mp member).resolve_left (Ne.symm here)
      exact ((ih nodup later).append_left _).trans perm_middle

theorem blocks_setList {list : List Nat} {item : Nat}
    (added : Perm list (item :: state.freeList order migratetype)) (other : Nat) :
    ((state.setList order migratetype list).blocks other).Perm
      (if other = order then item :: state.blocks order else state.blocks other) := by
  by_cases same : other = order
  · subst same
    rw [if_pos rfl, State.blocks, State.blocks, State.setList]
    simp only [update_self]
    exact flatMap_update_perm added (by decide) (by cases migratetype <;> decide)
  · rw [if_neg same, State.blocks, State.setList]
    simp only [update_of_ne same]
    exact Perm.refl _

theorem blocks_listAdd (page order : Nat) (migratetype : Migratetype) (other : Nat) :
    ((state.listAdd page order migratetype).blocks other).Perm
      (if other = order then page :: state.blocks order else state.blocks other) :=
  blocks_setList (Perm.refl _) other

theorem blocks_listAddTail (page order : Nat) (migratetype : Migratetype) (other : Nat) :
    ((state.listAddTail page order migratetype).blocks other).Perm
      (if other = order then page :: state.blocks order else state.blocks other) :=
  blocks_setList (perm_append_singleton _ _) other

/-! ### What a zone keeps -/

/-- A page of the zone that is not in a hole. -/
def Zone.Has (zone : Zone) (pfn : Nat) : Prop :=
  zone.pageZoneId pfn = zone.zoneId ∧ zone.pfnValidWithin pfn = true

def family (state : State) (block : Block) : Prop := block.first ∈ state.blocks block.order

/-- **What a zone keeps**, for the set of pages that are free. -/
structure Kept (zone : Zone) (state : State) (points : Nat → Prop) : Prop where
  nodup : ∀ order, (state.blocks order).Nodup
  aligned : ∀ order, ∀ page ∈ state.blocks order, 2 ^ order ∣ page
  tiles : Tiles (zone.maxOrder - 1) (family state) points
  coalesced : Coalesced (zone.maxOrder - 1) (fun _ => False) (family state)
  heads : ∀ page order, zone.Has page →
    ((state.pageBuddy page = true ∧ state.pagePrivate page = order) ↔ page ∈ state.blocks order)
  counted : ∀ order, state.nrFree order = (state.blocks order).length
  inside : ∀ page, points page → zone.Has page

variable {other : Nat} {state' : State}

section

variable (kept : Kept zone state points)

include kept

theorem Kept.member (member : page ∈ state.blocks order) :
    family state (Block.ofPoint order page) := by
  rw [family, ofPoint_first (kept.aligned order page member)]
  exact member

theorem Kept.free (member : page ∈ state.blocks order) {pfn : Nat}
    (held : (Block.ofPoint order page).Holds pfn) : points pfn :=
  kept.tiles.points_of_member (kept.member member) held

theorem Kept.order_unique (one : page ∈ state.blocks order) (two : page ∈ state.blocks other) :
    order = other := by
  have here := kept.inside page (kept.free one (ofPoint_holds order page))
  exact ((kept.heads page order here).mpr one).2.symm.trans ((kept.heads page other here).mpr two).2

theorem Kept.congr {points' : Nat → Prop} (same : ∀ page, points page ↔ points' page) :
    Kept zone state points' := by
  have equal : points = points' := funext fun page => propext (same page)
  exact equal ▸ kept

theorem Kept.of_perm (perm : ∀ order, (state'.blocks order).Perm (state.blocks order))
    (buddy : state'.pageBuddy = state.pageBuddy) (orders : state'.pagePrivate = state.pagePrivate)
    (counts : state'.nrFree = state.nrFree) : Kept zone state' points := by
  have same : family state' = family state := funext fun block => propext (perm block.order).mem_iff
  refine ⟨fun order => (perm order).nodup_iff.mpr (kept.nodup order), fun order page member =>
    kept.aligned order page ((perm order).mem_iff.mp member), same ▸ kept.tiles, same ▸ kept.coalesced,
    fun page order here => ?_, fun order => ?_, kept.inside⟩
  · rw [buddy, orders, (perm order).mem_iff]
    exact kept.heads page order here
  · rw [counts, (perm order).length_eq]
    exact kept.counted order

end

def State.take (state : State) (page order : Nat) : State :=
  ((state.listDel page).addFree order (-1)).rmvPageOrder page

section

variable (kept : Kept zone state points)

include kept

theorem Kept.take (member : page ∈ state.blocks order) :
    Kept zone (state.take page order)
      (fun pfn => points pfn ∧ ¬ (Block.ofPoint order page).Holds pfn) := by
  have blocks (other : Nat) :
      (state.take page order).blocks other = (state.blocks other).erase page :=
    blocks_listDel (kept.nodup other)
  have same : family (state.take page order) =
      fun block => family state block ∧ block ≠ Block.ofPoint order page := by
    funext block
    rw [family, blocks, (kept.nodup block.order).mem_erase_iff, and_comm]
    refine propext (and_congr_right fun belongs => not_congr ⟨fun starts => ?_, fun equal => ?_⟩)
    · exact eq_ofPoint starts (kept.order_unique (starts ▸ belongs) member)
    · rw [equal, ofPoint_first (kept.aligned order page member)]
  refine ⟨fun other => ?_, fun other pfn inside => ?_, ?_, ?_, fun pfn other here => ?_, fun other => ?_,
    fun pfn free => kept.inside pfn free.1⟩
  · rw [blocks]
    exact (kept.nodup other).erase page
  · rw [blocks] at inside
    exact kept.aligned other pfn (mem_of_mem_erase inside)
  · rw [same]
    exact kept.tiles.remove (kept.member member)
  · rw [same]
    exact kept.coalesced.remove
  · rw [blocks, (kept.nodup other).mem_erase_iff, State.take, State.rmvPageOrder]
    by_cases equal : pfn = page
    · subst equal
      simp
    · simp only [update_of_ne equal, ne_eq, equal, not_false_iff, true_and]
      exact kept.heads pfn other here
  rw [blocks, State.take, State.rmvPageOrder, State.addFree]
  by_cases equal : other = order
  · subst equal
    have count := kept.counted other
    have positive := length_pos_of_mem member
    simp only [update_self, length_erase_of_mem member]
    show state.nrFree other + -1 = _
    omega
  · have absent : page ∉ state.blocks other := fun inside =>
      equal (kept.order_unique inside member)
    simp only [update_of_ne equal, erase_of_not_mem absent]
    exact kept.counted other

/-- **One block comes to the lists**, whatever the list and the end of it. -/
theorem Kept.put (small : order < zone.maxOrder) (aligned : 2 ^ order ∣ page)
    (fresh : ∀ pfn, (Block.ofPoint order page).Holds pfn → zone.Has pfn ∧ ¬ points pfn)
    (alone : order < zone.maxOrder - 1 → ¬ family state (Block.ofPoint order page).sibling)
    (perm : ∀ other, (state'.blocks other).Perm
      (if other = order then page :: state.blocks order else state.blocks other))
    (buddy : state'.pageBuddy = update state.pageBuddy page true)
    (orders : state'.pagePrivate = update state.pagePrivate page order)
    (counts : state'.nrFree = update state.nrFree order (state.nrFree order + 1)) :
    Kept zone state' (fun pfn => points pfn ∨ (Block.ofPoint order page).Holds pfn) := by
  have own := fresh page (ofPoint_holds order page)
  have absent (other : Nat) : page ∉ state.blocks other := fun member =>
    own.2 (kept.free member (ofPoint_holds other page))
  have mem (other pfn : Nat) : pfn ∈ state'.blocks other ↔
      pfn ∈ state.blocks other ∨ (other = order ∧ pfn = page) := by
    rw [(perm other).mem_iff]
    split
    case isTrue same =>
      rw [same, mem_cons, or_comm]
      simp
    case isFalse differs => simp [differs]
  have same : family state' =
      fun block => family state block ∨ block = Block.ofPoint order page := by
    funext block
    refine propext ((mem block.order block.first).trans (or_congr_right ⟨?_, fun equal => ?_⟩))
    · exact fun both => eq_ofPoint both.2 both.1
    · rw [equal]
      exact ⟨rfl, ofPoint_first aligned⟩
  refine ⟨fun other => ?_, fun other pfn inside => ?_, ?_, ?_, fun pfn other here => ?_, fun other => ?_,
    fun pfn free => ?_⟩
  · rw [(perm other).nodup_iff]
    split
    · exact nodup_cons.mpr ⟨absent order, kept.nodup order⟩
    · exact kept.nodup other
  · rcases (mem other pfn).mp inside with before | ⟨rfl, rfl⟩
    · exact kept.aligned other pfn before
    · exact aligned
  · rw [same]
    exact kept.tiles.insert (le_sub_one_of_lt small) fun pfn held => (fresh pfn held).2
  · rw [same]
    exact kept.coalesced.insert alone
  · rw [mem, buddy, orders]
    by_cases equal : pfn = page
    · subst equal
      simp only [update_self, true_and, and_true, absent other, false_or, eq_comm]
    · simp only [update_of_ne equal, equal, and_false, or_false]
      exact kept.heads pfn other here
  · rw [counts, (perm other).length_eq]
    by_cases equal : other = order
    · subst equal
      rw [if_pos rfl, update_self, kept.counted, length_cons]
      omega
    · rw [if_neg equal, update_of_ne equal]
      exact kept.counted other
  · rcases free with before | held
    · exact kept.inside pfn before
    · exact (fresh pfn held).1

theorem Kept.move (member : page ∈ state.blocks order) (migratetype : Migratetype) :
    Kept zone ((state.listDel page).listAdd page order migratetype) points ∧
      ∀ other pfn, pfn ∈ ((state.listDel page).listAdd page order migratetype).blocks other ↔
        pfn ∈ state.blocks other := by
  have perm (other : Nat) : (((state.listDel page).listAdd page order migratetype).blocks other).Perm
      (state.blocks other) := by
    refine (blocks_listAdd page order migratetype other).trans ?_
    rw [blocks_listDel (kept.nodup order), blocks_listDel (kept.nodup other)]
    split
    case isTrue same =>
      subst same
      exact (perm_cons_erase member).symm
    case isFalse differs =>
      rw [erase_of_not_mem fun inside => differs (kept.order_unique inside member)]
  exact ⟨kept.of_perm perm rfl rfl rfl, fun other pfn => (perm other).mem_iff⟩

end

/-! ### Buddies -/

theorem pageAt_mul {index part size : Nat} :
    pageAt (index * size) (part * size) (other * size) = (index + other - part) * size := by
  rw [Nat.sub_mul, add_mul, pageAt]
  omega

section Buddies

variable {pageIdx : Nat} (aligned : 2 ^ order ∣ page) (small : order < zone.maxOrder)
  (idx : pageIdx = page % 2 ^ zone.maxOrder)

include aligned small idx

theorem pageIdx_eq : ∃ index part, page = index * 2 ^ order ∧ pageIdx = part * 2 ^ order ∧
    part = index % (2 * 2 ^ (zone.maxOrder - order - 1)) ∧ part ≤ index ∧ part % 2 = index % 2 := by
  obtain ⟨index, rfl⟩ := aligned
  have split : 2 ^ zone.maxOrder = 2 ^ order * (2 * 2 ^ (zone.maxOrder - order - 1)) := by
    rw [← pow_succ', ← pow_add]
    congr 1
    omega
  refine ⟨index, index % (2 * 2 ^ (zone.maxOrder - order - 1)), mul_comm _ _, ?_, rfl,
    mod_le _ _, mod_mod_of_dvd _ (dvd_mul_right 2 _)⟩
  rw [idx, split, mul_mod_mul_left, mul_comm]

theorem pageFindBuddy_eq :
    pageFindBuddy page pageIdx order = (Block.ofPoint order page).sibling.first := by
  obtain ⟨index, part, rfl, rfl, -, below, parity⟩ := pageIdx_eq aligned small idx
  have buddy : pageFindBuddy (index * 2 ^ order) (part * 2 ^ order) order =
      pageAt (index * 2 ^ order) (part * 2 ^ order) ((part ^^^ 1) * 2 ^ order) := by
    rw [← mul_two_pow_xor]
    rfl
  have number : index + (part ^^^ 1) - part = if index % 2 = 0 then index + 1 else index - 1 := by
    rw [xor_one]
    split <;> split <;> omega
  rw [buddy, pageAt_mul, number, Block.first, Block.sibling, Block.ofPoint]
  rw [Nat.mul_div_cancel _ (Nat.two_pow_pos order)]

theorem findCombinedIndex_eq :
    pageAt page pageIdx (findCombinedIndex pageIdx order) = (Block.ofPoint order page).parent.first ∧
      findCombinedIndex pageIdx order =
        (Block.ofPoint order page).parent.first % 2 ^ zone.maxOrder := by
  obtain ⟨index, part, rfl, rfl, whole, below, parity⟩ := pageIdx_eq aligned small idx
  have combined : findCombinedIndex (part * 2 ^ order) order = (part / 2 * 2) * 2 ^ order :=
    mul_two_pow_ldiff part order
  have parent : (Block.ofPoint order (index * 2 ^ order)).parent.first =
      (index / 2 * 2) * 2 ^ order := by
    rw [Block.first, Block.parent, Block.ofPoint]
    rw [Nat.mul_div_cancel _ (Nat.two_pow_pos order), pow_succ, mul_comm (2 ^ order),
      mul_assoc]
  rw [combined, parent]
  constructor
  · rw [pageAt_mul]
    congr 1
    omega
  have split : 2 ^ zone.maxOrder = 2 * 2 ^ (zone.maxOrder - order - 1) * 2 ^ order := by
    rw [← pow_succ', ← pow_add]
    congr 1
    omega
  rw [split, mul_mod_mul_right, mul_comm (index / 2), mul_mod_mul_left, whole,
    mod_mul_right_div_self, mul_comm 2]

end Buddies

/-- `page_is_buddy` finds exactly the free buddies. -/
theorem pageIsBuddy_iff (kept : Kept zone state points) {buddy : Nat} (here : zone.Has page)
    (isBuddy : buddy = (Block.ofPoint order page).sibling.first) :
    pageIsBuddy zone state page buddy order = true ↔
      family state (Block.ofPoint order page).sibling := by
  rw [family, sibling_order, ofPoint_order, ← isBuddy]
  simp only [pageIsBuddy, Bool.and_eq_true, beq_iff_eq]
  constructor
  · rintro ⟨⟨valid, same⟩, marked⟩
    exact (kept.heads buddy order ⟨same.symm.trans here.1, valid⟩).mp marked
  · intro member
    have inZone := kept.inside buddy (kept.free member (ofPoint_holds order buddy))
    exact ⟨⟨inZone.2, here.1.trans inZone.1.symm⟩, (kept.heads buddy order inZone).mpr member⟩

/-! ### __free_one_page -/

/-- A block that is about to be freed. -/
structure Freeable (zone : Zone) (points : Nat → Prop) (page order : Nat) : Prop where
  small : order < zone.maxOrder
  aligned : 2 ^ order ∣ page
  fresh : ∀ pfn, (Block.ofPoint order page).Holds pfn → zone.Has pfn ∧ ¬ points pfn

/-- What the loop of `__free_one_page` leaves: a block with no free buddy, and the pages that are
free now. -/
structure Merged (zone : Zone) (state : State) (page order : Nat) (all : Nat → Prop) : Prop where
  rest : ∃ points, Kept zone state points ∧ Freeable zone points page order ∧
    ∀ pfn, points pfn ∨ (Block.ofPoint order page).Holds pfn ↔ all pfn
  alone : order < zone.maxOrder - 1 → ¬ family state (Block.ofPoint order page).sibling

/-- **The loop**, by induction on the orders that are left: a free buddy goes, and the two are one
block. -/
theorem coalesce_merged (left : Nat) (state : State) (page pageIdx order : Nat)
    (points : Nat → Prop) (kept : Kept zone state points)
    (freeable : Freeable zone points page order) (idx : pageIdx = page % 2 ^ zone.maxOrder)
    (last : order + left = zone.maxOrder - 1) :
    ∃ state' page' pageIdx' order', coalesce zone left state page pageIdx order =
        (state', page', pageIdx', order') ∧
      Merged zone state' page' order'
        (fun pfn => points pfn ∨ (Block.ofPoint order page).Holds pfn) := by
  induction left generalizing state page pageIdx order points with
  | zero =>
    exact ⟨state, page, pageIdx, order, rfl, ⟨points, kept, freeable, fun _ => Iff.rfl⟩, by omega⟩
  | succ left ih =>
    have here := (freeable.fresh page (ofPoint_holds order page)).1
    have isBuddy : pageFindBuddy page pageIdx order = (Block.ofPoint order page).sibling.first :=
      pageFindBuddy_eq freeable.aligned freeable.small idx
    rw [coalesce]
    by_cases free : pageIsBuddy zone state page (pageFindBuddy page pageIdx order) order = true
    · have member : pageFindBuddy page pageIdx order ∈ state.blocks order := by
        rw [isBuddy]
        exact (pageIsBuddy_iff kept here isBuddy).mp free
      have taken := kept.take member
      have sibling : Block.ofPoint order (pageFindBuddy page pageIdx order) =
          (Block.ofPoint order page).sibling :=
        (eq_ofPoint isBuddy.symm rfl).symm
      rw [sibling] at taken
      obtain ⟨parentPage, parentIdx⟩ := findCombinedIndex_eq freeable.aligned freeable.small idx
      have parent : Block.ofPoint (order + 1)
          (pageAt page pageIdx (findCombinedIndex pageIdx order)) =
            (Block.ofPoint order page).parent :=
        (eq_ofPoint parentPage.symm rfl).symm
      have next : Freeable zone
          (fun pfn => points pfn ∧ ¬ (Block.ofPoint order page).sibling.Holds pfn)
          (pageAt page pageIdx (findCombinedIndex pageIdx order)) (order + 1) := by
        refine ⟨by omega, parentPage ▸ dvd_first _, fun pfn held => ?_⟩
        rw [parent] at held
        rcases parent_holds_iff.mp held with own | other
        · exact ⟨(freeable.fresh pfn own).1, fun inside => (freeable.fresh pfn own).2 inside.1⟩
        · refine ⟨kept.inside pfn (kept.free member ?_), fun inside => inside.2 other⟩
          rw [sibling]
          exact other
      obtain ⟨state', page', pageIdx', order', result, merged⟩ := ih _ _ _ _ _ taken next
        (parentIdx.trans (by rw [parentPage])) (by omega)
      refine ⟨state', page', pageIdx', order', ?_, ?_⟩
      · rw [if_pos free]
        exact result
      obtain ⟨⟨rest, keptRest, freeableRest, all⟩, alone⟩ := merged
      refine ⟨⟨rest, keptRest, freeableRest, fun pfn => (all pfn).trans ?_⟩, alone⟩
      have before : (Block.ofPoint order page).sibling.Holds pfn → points pfn := fun held =>
        kept.free member (by rw [sibling]; exact held)
      rw [parent, parent_holds_iff]
      tauto
    · refine ⟨state, page, pageIdx, order, if_neg free,
        ⟨points, kept, freeable, fun _ => Iff.rfl⟩, fun _ => ?_⟩
      exact fun member => free ((pageIsBuddy_iff kept here isBuddy).mpr member)

/-- **`__free_one_page`.** The pages of the block are free, and nothing else changes. -/
theorem freeOnePage_kept (kept : Kept zone state points) (freeable : Freeable zone points page order)
    (migratetype : Migratetype) :
    Kept zone (freeOnePage zone state page order migratetype)
      (fun pfn => points pfn ∨ (Block.ofPoint order page).Holds pfn) := by
  have small := freeable.small
  have idx : page &&& (1 <<< zone.maxOrder - 1) = page % 2 ^ zone.maxOrder := by
    rw [shiftLeft_eq, one_mul, and_two_pow_sub_one_eq_mod]
  obtain ⟨state', page', pageIdx', order', result, ⟨rest, keptRest, freeableRest, all⟩, alone⟩ :=
    coalesce_merged (zone.maxOrder - 1 - order) state page _ order points kept freeable idx (by omega)
  rw [freeOnePage]
  simp only [result]
  refine Kept.congr ?_ all
  split
  · exact keptRest.put freeableRest.small freeableRest.aligned freeableRest.fresh alone
      (blocks_listAddTail page' order' migratetype) rfl rfl rfl
  · exact keptRest.put freeableRest.small freeableRest.aligned freeableRest.fresh alone
      (blocks_listAdd page' order' migratetype) rfl rfl rfl

/-! ### expand -/

/-- **`expand`.** All pages of a block but those of its first part of the order `low` come back. -/
theorem expand_kept (low page : Nat) (migratetype : Migratetype) (steps : Nat) (state : State)
    (points : Nat → Prop) (kept : Kept zone state points)
    (freeable : Freeable zone points page (low + steps)) :
    Kept zone (expand state page low migratetype steps) (fun pfn => points pfn ∨
      ((Block.ofPoint (low + steps) page).Holds pfn ∧ ¬ (Block.ofPoint low page).Holds pfn)) := by
  induction steps generalizing state points with
  | zero =>
    refine Kept.congr kept fun pfn => ?_
    tauto
  | succ steps ih =>
    have aligned : 2 ^ (low + steps + 1) ∣ page := freeable.aligned
    have small : low + steps + 1 < zone.maxOrder := freeable.small
    have upper := ofPoint_upper aligned
    let half := Block.ofPoint (low + steps) page
    have halves (pfn : Nat) : (Block.ofPoint (low + (steps + 1)) page).Holds pfn ↔
        half.Holds pfn ∨ half.sibling.Holds pfn := by
      rw [← parent_holds_iff, ofPoint_parent]
      rfl
    have lower : 2 ^ (low + steps) ∣ page := dvd_trans (pow_dvd_pow 2 (le_succ _)) aligned
    have own := freeable.fresh page ((halves page).mpr (.inl (ofPoint_holds _ page)))
    have put : Kept zone (((state.listAdd (page + 2 ^ (low + steps)) (low + steps) migratetype).addFree
        (low + steps) 1).setPageOrder (page + 2 ^ (low + steps)) (low + steps))
        (fun pfn => points pfn ∨ half.sibling.Holds pfn) := by
      rw [← upper]
      refine kept.put (by omega) (Nat.dvd_add lower (dvd_refl _)) ?_ ?_
        (blocks_listAdd _ _ migratetype) rfl rfl rfl
      · intro pfn held
        rw [upper] at held
        exact freeable.fresh pfn ((halves pfn).mpr (.inr held))
      · intro _
        rw [upper, sibling_sibling]
        exact kept.tiles.not_member (ofPoint_holds _ page) own.2
    have next : Freeable zone (fun pfn => points pfn ∨ half.sibling.Holds pfn) page
        (low + steps) := by
      refine ⟨by omega, lower, fun pfn held => ?_⟩
      obtain ⟨inZone, unused⟩ := freeable.fresh pfn ((halves pfn).mpr (.inl held))
      refine ⟨inZone, fun inside => ?_⟩
      rcases inside with before | other
      · exact unused before
      · exact not_sibling_holds held other
    refine Kept.congr (ih _ _ put next) fun pfn => ?_
    have nested : (Block.ofPoint low page).Holds pfn → half.Holds pfn :=
      Block.within (ofPoint_holds low page) (ofPoint_holds _ page) (le_add_right _ _)
    have apart : half.Holds pfn → ¬ half.sibling.Holds pfn := not_sibling_holds
    rw [halves]
    tauto

end KernelImx.PageAlloc
