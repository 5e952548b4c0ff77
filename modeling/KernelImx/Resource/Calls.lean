/-
**What the calls keep of a resource tree.**

`Inv` says of all resources that their children are sorted, apart, non-empty and inside them
(`Lib.Nested`), that parent pointers agree with the lists of children, and that children are
allocated. Each function has one lemma: `requestResource_spec`, `insertLoop_spec`,
`adjustLinked_spec`, `regionLoop_spec`, `releaseRegion_spec`.

`call_keeps_iff` is the result: a call from any such tree ends, keeps the invariant, and changes
nothing unless it reports success, exactly when it is not one of two kinds.
-/

import KernelImx.Resource.Tree
import KernelImx.Lib.Nested
import Mathlib.Data.List.Basic
import Mathlib.Data.List.Induction

namespace KernelImx.Resource

open Function List Option

open Lib (Nested Below Apart Ranked)

variable {s : State} {root id new parent : Id} {children fewer run front back : List Id}
  {start stop : BitVec 32}

/-! ### The invariant -/

def State.lo (s : State) (id : Id) : Nat := (s.res id).start.toNat

def State.hi (s : State) (id : Id) : Nat := (s.res id).stop.toNat

/-- **The invariant of the resource tree.** -/
structure Inv (s : State) : Prop where
  nested : Nested s.lo s.hi s.child
  linked : ∀ {parent child}, child ∈ s.child parent → s.parent child = some parent
  live : ∀ {parent child}, child ∈ s.child parent → s.live child = true

def SameTree (s s' : State) : Prop :=
  ∀ id, s.live id = true →
    s'.res id = s.res id ∧ s'.parent id = s.parent id ∧ s'.child id = s.child id

theorem SameTree.refl (s : State) : SameTree s s :=
  fun _ _ => ⟨rfl, rfl, rfl⟩

/-- How a call ends: with the invariant, and with the tree it began with unless it succeeds. -/
structure Ends (s : State) (result : Outcome × State) : Prop where
  inv : Inv result.2
  kept : result.1 ≠ .success → SameTree s result.2

theorem Inv.succeeds {s' : State} (inv : Inv s') : Ends s (.success, s') :=
  ⟨inv, fun no => absurd rfl no⟩

theorem Inv.unchanged (inv : Inv s) (outcome : Outcome) : Ends s (outcome, s) :=
  ⟨inv, fun _ => .refl s⟩

/-- A descriptor that can be put under a resource: it is in no list, and not above that resource. -/
structure Fresh (s : State) (new root : Id) : Prop where
  live : s.live new = true
  apart : Apart s.child new
  above : ¬ Below s.child new root

theorem Fresh.child (inv : Inv s) (fresh : Fresh s new root) (member : id ∈ s.child root) :
    Fresh s new id :=
  ⟨fresh.live, fresh.apart, inv.nested.not_below_child fresh.apart member fresh.above⟩

/-! ### Requests -/

/-- Where a conflict stands among the children: it meets the range of `new`, and what is before it
does not. -/
structure Conflict (s : State) (root new conflict : Id) (front back : List Id) : Prop where
  parts : s.child root = front ++ conflict :: back
  own : s.lo new ≤ s.hi new
  within : s.lo root ≤ s.lo new ∧ s.hi new ≤ s.hi root
  before : ∀ left ∈ front, s.hi left < s.lo new
  meets : s.lo conflict ≤ s.hi new ∧ s.lo new ≤ s.hi conflict

/-- Siblings in their order. -/
structure Row (s : State) (children : List Id) : Prop where
  sorted : children.Pairwise fun left right => s.hi left < s.lo right
  proper : ∀ id ∈ children, s.lo id ≤ s.hi id

theorem Inv.row (inv : Inv s) (parent : Id) : Row s (s.child parent) :=
  ⟨inv.nested.ordered parent, fun _ member => inv.nested.proper member⟩

theorem Row.sublist (row : Row s children) (sub : fewer.Sublist children) : Row s fewer :=
  ⟨row.sorted.sublist sub, fun id member => row.proper id (sub.subset member)⟩

theorem Row.behind {next : Id} {rest : List Id} {last : Nat} (row : Row s (next :: rest))
    (first : last < s.lo next) : ∀ right ∈ next :: rest, last < s.lo right := by
  refine forall_mem_cons.mpr ⟨first, fun right later => ?_⟩
  have step := (pairwise_cons.mp row.sorted).1 right later
  have width := row.proper next mem_cons_self
  omega

theorem placeAmong_spec (row : Row s children) :
    (∃ front back, placeAmong s.res new children = .ok (front ++ new :: back) ∧
        children = front ++ back ∧ (∀ left ∈ front, s.hi left < s.lo new) ∧
        ∀ right ∈ back, s.hi new < s.lo right) ∨
      ∃ front conflict back, placeAmong s.res new children = .error conflict ∧
        children = front ++ conflict :: back ∧ (∀ left ∈ front, s.hi left < s.lo new) ∧
        s.lo conflict ≤ s.hi new ∧ s.lo new ≤ s.hi conflict := by
  induction children with
  | nil =>
    exact .inl ⟨[], [], rfl, rfl, by simp, by simp⟩
  | cons tmp rest ih =>
    rw [placeAmong]
    split
    case isTrue behind =>
      exact .inl ⟨[], tmp :: rest, rfl, rfl, by simp, row.behind behind⟩
    case isFalse notBehind =>
      have le : s.lo tmp ≤ s.hi new := Nat.not_lt.mp notBehind
      split
      case isFalse overlap =>
        exact .inr ⟨[], tmp, rest, rfl, rfl, by simp, le, Nat.not_lt.mp overlap⟩
      case isTrue before =>
        rcases ih (row.sublist (sublist_cons_self ..)) with
          ⟨list, back, placed, rfl, all, behind⟩ | ⟨list, conflict, back, found, rfl, all, meets⟩
        · exact .inl ⟨tmp :: list, back, by rw [placed]; rfl, rfl,
            forall_mem_cons.mpr ⟨before, all⟩, behind⟩
        · exact .inr ⟨tmp :: list, conflict, back, by rw [found]; rfl, rfl,
            forall_mem_cons.mpr ⟨before, all⟩, meets⟩

theorem requestResource_spec (inv : Inv s) (fresh : Fresh s new root) :
    (∃ s', requestResource s root new = .ok s' ∧ Inv s') ∨
    requestResource s root new = .error root ∨
    ∃ conflict front back, requestResource s root new = .error conflict ∧
      Conflict s root new conflict front back := by
  rw [requestResource]
  split
  case isTrue outside => exact .inr (.inl rfl)
  case isFalse inside =>
    simp only [not_or] at inside
    obtain ⟨own, low, high⟩ := inside
    have own : s.lo new ≤ s.hi new := Nat.not_lt.mp own
    have within : s.lo root ≤ s.lo new ∧ s.hi new ≤ s.hi root :=
      ⟨Nat.not_lt.mp low, Nat.not_lt.mp high⟩
    rcases @placeAmong_spec s new _ (inv.row root) with
      ⟨front, back, placed, parts, before, behind⟩ |
        ⟨front, conflict, back, found, parts, before, meets⟩
    · left
      refine ⟨_, by rw [placed]; rfl, ?_⟩
      refine ⟨inv.nested.link fresh.apart fresh.above parts own within before behind,
        fun {parent child} mem => ?_, fun {parent child} mem => ?_⟩
      · rcases Nested.mem_link parts mem with old | ⟨rfl, rfl⟩
        · exact (update_of_ne (fresh.apart.ne old) ..).trans (inv.linked old)
        · exact update_self ..
      · rcases Nested.mem_link parts mem with old | ⟨rfl, rfl⟩
        · exact inv.live old
        · exact fresh.live
    · right
      right
      exact ⟨conflict, front, back, by rw [found]; rfl, parts, own, within, before, meets⟩

/-! ### Insertion -/

theorem takeRun_spec (row : Row s children) (taken : takeRun s.res new children = .ok (run, back)) :
    children = run ++ back ∧ (∀ id ∈ run, s.lo new ≤ s.lo id ∧ s.hi id ≤ s.hi new) ∧
      ∀ right ∈ back, s.hi new < s.lo right := by
  induction children generalizing run back with
  | nil =>
    cases taken
    exact ⟨rfl, by simp, by simp⟩
  | cons next rest ih =>
    have after := row.sublist (sublist_cons_self next rest)
    rw [takeRun.eq_def] at taken
    dsimp only at taken
    split at taken
    case isTrue overlap => cases taken
    case isFalse inside =>
      simp only [not_or] at inside
      have own : s.lo new ≤ s.lo next ∧ s.hi next ≤ s.hi new :=
        ⟨Nat.not_lt.mp inside.1, Nat.not_lt.mp inside.2⟩
      cases rest with
      | nil =>
        cases taken
        exact ⟨rfl, by simpa using own, by simp⟩
      | cons sibling rest =>
        dsimp only at taken
        split at taken
        case isTrue behind =>
          cases taken
          exact ⟨rfl, by simpa using own, after.behind behind⟩
        case isFalse more =>
          cases inner : takeRun s.res new (sibling :: rest) with
          | error conflict =>
            rw [inner] at taken
            cases taken
          | ok parts =>
            rw [inner] at taken
            cases taken
            obtain ⟨split, inRun, behind⟩ := ih after inner
            exact ⟨by rw [split]; rfl, forall_mem_cons.mpr ⟨own, inRun⟩, behind⟩

theorem cut_at (absent : id ∉ front) :
    (front ++ id :: back).takeWhile (· ≠ id) = front ∧
      (front ++ id :: back).dropWhile (· ≠ id) = id :: back := by
  have others : ∀ left ∈ front, decide (left ≠ id) = true := by
    intro left mem
    refine decide_eq_true ?_
    rintro rfl
    exact absent mem
  constructor
  · rw [takeWhile_append_of_pos others]
    simp
  · rw [dropWhile_append_of_pos others]
    simp

theorem insertOver_spec (inv : Inv s) {first : Id} (fresh : Fresh s new parent)
    (conflict : Conflict s parent new first front back) :
    Ends s (insertOver s parent first new) := by
  obtain ⟨parts, own, within, before, -⟩ := conflict
  have nodup := parts ▸ inv.nested.nodup parent
  have absent : first ∉ front := fun mem => (nodup_append.mp nodup).2.2 _ mem _ mem_cons_self rfl
  obtain ⟨cutFront, cutBack⟩ := @cut_at first front back absent
  rw [insertOver, parts, cutFront, cutBack]
  cases taken : takeRun s.res new (first :: back) with
  | error other => exact inv.unchanged _
  | ok lists =>
    obtain ⟨run, rest⟩ := lists
    have tailMember : ∀ id ∈ first :: back, id ∈ s.child parent := by
      intro id mem
      rw [parts]
      exact mem_append_right _ mem
    obtain ⟨split, inRun, behind⟩ :=
      takeRun_spec ((parts ▸ inv.row parent).sublist (sublist_append_right ..)) taken
    have whole : s.child parent = front ++ run ++ rest := by
      rw [parts, split, append_assoc]
    have other : new ≠ parent := by
      rintro rfl
      exact fresh.above Relation.ReflTransGen.refl
    refine Inv.succeeds ⟨inv.nested.wrap fresh.apart other whole own within before behind inRun,
      fun {above id} mem => ?_, fun {above id} mem => ?_⟩
    · rcases inv.nested.mem_wrap other whole mem with ⟨rfl, rfl⟩ | ⟨rfl, inside⟩ | ⟨-, old, outside⟩
      · dsimp only
        rw [update_self]
      · have old := tailMember id (split ▸ mem_append_left _ inside)
        dsimp only
        rw [update_of_ne (fresh.apart.ne old), if_pos inside]
      · dsimp only
        rw [update_of_ne (fresh.apart.ne old), if_neg outside, inv.linked old]
    · rcases inv.nested.mem_wrap other whole mem with ⟨rfl, rfl⟩ | ⟨rfl, inside⟩ | ⟨-, old, -⟩
      · exact fresh.live
      · exact inv.live (tailMember id (split ▸ mem_append_left _ inside))
      · exact inv.live old

theorem Conflict.member {conflict : Id} (found : Conflict s root new conflict front back) :
    conflict ∈ s.child root := by
  rw [found.parts]
  exact mem_append_right _ mem_cons_self

variable {rank : Id → Nat} {fuel bound : Nat}

theorem insertLoop_spec (inv : Inv s) (ranked : Ranked s.child rank bound) (enough : bound < fuel)
    (fresh : Fresh s new parent) :
    ∃ result, insertLoop fuel s parent new = some result ∧ Ends s result := by
  refine ranked.descend (fun fuel parent => insertLoop fuel s parent new) (Fresh s new) ?_ enough
    fresh
  intro fuel parent fresh
  rw [insertLoop]
  rcases requestResource_spec inv fresh with
    ⟨s', linked, inv'⟩ | refused | ⟨first, front, back, refused, conflict⟩
  · rw [linked]
    exact .inl ⟨_, rfl, inv'.succeeds⟩
  · rw [refused]
    exact .inl ⟨_, if_pos rfl, inv.unchanged _⟩
  rw [refused]
  dsimp only
  split
  case isTrue same => exact .inl ⟨_, rfl, inv.unchanged _⟩
  case isFalse differs =>
    split
    case isTrue past => exact .inl ⟨_, rfl, insertOver_spec inv fresh conflict⟩
    case isFalse inside =>
      exact .inr ⟨first, conflict.member, fresh.child inv conflict.member, rfl⟩

/-! ### Release and adjustment -/

theorem Inv.sublist (inv : Inv s) {less : Id → List Id}
    (sub : ∀ parent, (less parent).Sublist (s.child parent)) : Inv { s with child := less } where
  nested := inv.nested.sublist sub
  linked := fun member => inv.linked ((sub _).subset member)
  live := fun member => inv.live ((sub _).subset member)

theorem sublist_update {child : Id → List Id} (sub : fewer.Sublist (child parent))
    (other : Id) : (update child parent fewer other).Sublist (child other) := by
  rw [update_apply]
  split
  next same => exact same ▸ sub
  · exact .refl _

theorem Inv.apart_erase (inv : Inv s) (member : id ∈ s.child parent) :
    Apart (update s.child parent ((s.child parent).erase id)) id := by
  intro other
  by_cases same : other = parent
  · subst same
    rw [update_self]
    exact (inv.nested.nodup other).not_mem_erase
  · rw [update_of_ne same]
    exact fun mem => same (inv.nested.single mem member)

theorem releaseLinked_spec (inv : Inv s) (parent old : Id) :
    Ends s (releaseLinked s parent old) := by
  rw [releaseLinked]
  split
  case isFalse absent => exact inv.unchanged _
  case isTrue member =>
    have less := inv.sublist (sublist_update (erase_sublist : ((s.child parent).erase old).Sublist _))
    refine Inv.succeeds ⟨less.nested, fun {above id} mem => ?_, less.live⟩
    dsimp only
    rw [update_of_ne ((inv.apart_erase member).ne mem)]
    exact less.linked mem

theorem nextSibling_eq (absent : id ∉ front) :
    nextSibling id (front ++ id :: back) = back.head? := by
  induction front with
  | nil =>
    cases back with
    | nil => rfl
    | cons next rest => exact if_pos rfl
  | cons first rest ih =>
    rw [mem_cons, not_or] at absent
    have step := ih absent.2
    cases rest with
    | nil | cons second rest => exact (if_neg (Ne.symm absent.1)).trans step

theorem prevSibling_eq (absent : id ∉ front) (behind : id ∉ back) :
    prevSibling id (front ++ id :: back) = front.getLast? := by
  have later : ∀ {list : List Id} {first : Id}, id ∉ list →
      prevSibling id (first :: list) = none := by
    intro list
    induction list with
    | nil => exact fun _ => rfl
    | cons second rest ih =>
      intro first absent
      rw [mem_cons, not_or] at absent
      exact (if_neg (Ne.symm absent.1)).trans (ih absent.2)
  induction front with
  | nil => exact later behind
  | cons first rest ih =>
    rw [mem_cons, not_or] at absent
    have step := ih absent.2
    cases rest with
    | nil => exact if_pos rfl
    | cons second rest =>
      rw [mem_cons, not_or] at absent
      refine (if_neg (Ne.symm absent.2.1)).trans (step.trans ?_)
      rw [getLast?_cons_cons]

theorem Row.behind_of_head {last : Nat} (row : Row s back) :
    (∀ next ∈ back.head?, last < s.lo next) ↔ ∀ right ∈ back, last < s.lo right := by
  refine ⟨fun head => ?_, fun all next mem => all next (mem_of_mem_head? mem)⟩
  cases back with
  | nil => simp
  | cons next rest => exact row.behind (head next rfl)

theorem Row.before_of_last {first : Nat} (row : Row s front) :
    (∀ prev ∈ front.getLast?, s.hi prev < first) ↔ ∀ left ∈ front, s.hi left < first := by
  rcases eq_nil_or_concat' front with rfl | ⟨list, prev, rfl⟩
  · simp
  refine ⟨fun last left mem => ?_, fun all prev mem => all prev (mem_of_getLast? mem)⟩
  have final := last prev (by simp)
  rcases mem_append.mp mem with earlier | same
  · have step := (pairwise_append.mp row.sorted).2.2 left earlier prev (by simp)
    have width := row.proper prev (by simp)
    omega
  · rw [mem_singleton.mp same]
    exact final

theorem adjustFits_iff (inv : Inv s) (parts : s.child parent = front ++ id :: back) :
    adjustFits s parent id start stop = true ↔
      (s.lo parent ≤ start.toNat ∧ stop.toNat ≤ s.hi parent) ∧
      (∀ child ∈ s.child id, start.toNat ≤ s.lo child ∧ s.hi child ≤ stop.toNat) ∧
      (∀ left ∈ front, s.hi left < start.toNat) ∧ ∀ right ∈ back, stop.toNat < s.lo right := by
  obtain ⟨frontNodup, tailNodup, apart⟩ := nodup_append.mp (parts ▸ inv.nested.nodup parent)
  have inFront : id ∉ front := fun mem => apart _ mem _ mem_cons_self rfl
  have inBack : id ∉ back := (nodup_cons.mp tailNodup).1
  have row := parts ▸ inv.row parent
  rw [← (row.sublist (sublist_append_left ..)).before_of_last,
    ← (row.sublist ((sublist_cons_self id back).trans (sublist_append_right ..))).behind_of_head]
  unfold adjustFits
  rw [parts, nextSibling_eq inFront, prevSibling_eq inFront inBack]
  simp only [State.lo, State.hi, Bool.and_eq_true, Bool.not_eq_true', Bool.or_eq_false_iff,
    decide_eq_false_iff_not, List.all_eq_true, Option.all_eq_true, BitVec.lt_def, BitVec.le_def,
    gt_iff_lt, Nat.not_lt, Nat.not_le]
  tauto

theorem lo_setRange (s : State) (id : Id) (start stop : BitVec 32) :
    (s.setRange id start stop).lo = update s.lo id start.toNat := by
  funext other
  simp only [State.lo, State.setRange, update_apply]
  split <;> rfl

theorem hi_setRange (s : State) (id : Id) (start stop : BitVec 32) :
    (s.setRange id start stop).hi = update s.hi id stop.toNat := by
  funext other
  simp only [State.hi, State.setRange, update_apply]
  split <;> rfl

/-- **An empty range in a gap**: the last address is below the first, and it fits between its
neighbours. -/
structure EmptyGap (s : State) (id : Id) (start stop : BitVec 32) : Prop where
  empty : stop < start
  childless : s.child id = []
  between : ∃ parent front back, s.child parent = front ++ id :: back ∧
    (s.res parent).start ≤ start ∧ stop ≤ (s.res parent).stop ∧
    (∀ left ∈ front, (s.res left).stop < start) ∧ ∀ right ∈ back, stop < (s.res right).start

/-- **`adjust_resource`** keeps the invariant unless it takes an empty range that fits a gap. -/
theorem adjustLinked_spec (inv : Inv s) (member : id ∈ s.child parent) (start size : BitVec 32) :
    (¬ EmptyGap s id start (lastOf start size) ∧ Ends s (adjustLinked s parent id start size)) ∨
    (EmptyGap s id start (lastOf start size) ∧ ¬ Inv (adjustLinked s parent id start size).2) := by
  obtain ⟨front, back, parts⟩ := append_of_mem member
  have fits := @adjustFits_iff s id parent front back start (lastOf start size) inv parts
  rw [adjustLinked]
  generalize lastOf start size = stop at fits ⊢
  have gapFits : EmptyGap s id start stop → adjustFits s parent id start stop = true := by
    rintro ⟨-, childless, above, front', back', parts', low, high, before, behind⟩
    have mem' : id ∈ s.child above := by
      rw [parts']
      exact mem_append_right _ mem_cons_self
    obtain rfl := inv.nested.single member mem'
    refine (adjustFits_iff inv parts').mpr ⟨⟨low, high⟩, ?_, before, behind⟩
    rw [childless]
    simp
  by_cases taken : adjustFits s parent id start stop = true
  · obtain ⟨within, inner, before, behind⟩ := fits.mp taken
    rw [if_pos taken]
    by_cases proper : start.toNat ≤ stop.toNat
    · refine .inl ⟨fun gap => absurd gap.empty (Nat.not_lt.mpr proper),
        Inv.succeeds ⟨?_, inv.linked, inv.live⟩⟩
      rw [lo_setRange, hi_setRange]
      exact inv.nested.resize parts proper within before behind inner
    have empty : stop < start := Nat.lt_of_not_le proper
    have childless : s.child id = [] := by
      refine eq_nil_iff_forall_not_mem.mpr fun child mem => proper ?_
      have width := inv.nested.proper mem
      have bounds := inner child mem
      omega
    refine .inr ⟨⟨empty, childless, parent, front, back, parts, within.1, within.2, before,
      behind⟩, fun broken => proper ?_⟩
    have own := broken.nested.proper member
    rw [lo_setRange, hi_setRange, update_self, update_self] at own
    exact own
  · rw [if_neg taken]
    exact .inl ⟨fun gap => taken (gapFits gap), inv.unchanged _⟩

/-! ### Regions -/

theorem Inv.free (inv : Inv s) (apart : Apart s.child id) : Inv (s.free id) where
  nested := inv.nested
  linked := inv.linked
  live := by
    intro parent child member
    exact (update_of_ne (apart.ne member) ..).trans (inv.live member)

theorem Inv.apart_of_dead (inv : Inv s) (dead : s.live id = false) : Apart s.child id := by
  intro parent member
  rw [inv.live member] at dead
  cases dead

theorem Inv.alloc (inv : Inv s) (dead : s.live id = false) (res : Res) : Inv (s.alloc id res) := by
  have sub : ∀ parent, (update s.child id [] parent).Sublist (s.child parent) :=
    sublist_update (nil_sublist _)
  have apart : Apart (update s.child id []) id :=
    fun parent member => inv.apart_of_dead dead parent ((sub parent).subset member)
  have less := inv.sublist sub
  have childless : update s.child id [] id = [] := update_self ..
  refine ⟨less.nested.redefine apart childless (fun other differs => ?_)
    (fun other differs => ?_), fun member => ?_, fun member => ?_⟩
  · simp [State.lo, State.alloc, differs]
  · simp [State.hi, State.alloc, differs]
  · exact (update_of_ne (apart.ne member) ..).trans (less.linked member)
  · exact (update_of_ne (apart.ne member) ..).trans (less.live member)

theorem not_below_of_childless {child : Id → List Id} (childless : child new = [])
    (other : root ≠ new) : ¬ Below child new root := by
  intro below
  rcases Relation.ReflTransGen.cases_head below with same | ⟨next, member, -⟩
  · exact other same.symm
  · rw [childless] at member
    exact not_mem_nil member

theorem Inv.alloc_fresh (inv : Inv s) (dead : s.live new = false) (other : root ≠ new) (res : Res) :
    Fresh (s.alloc new res) new root ∧ SameTree s (s.alloc new res) := by
  have childless : (s.alloc new res).child new = [] := update_self ..
  refine ⟨⟨update_self .., fun above member => ?_, not_below_of_childless childless other⟩,
    fun id alive => ?_⟩
  · exact inv.apart_of_dead dead above ((sublist_update (nil_sublist _) above).subset member)
  have differs : id ≠ new := by
    rintro rfl
    rw [alive] at dead
    cases dead
  exact ⟨update_of_ne differs .., update_of_ne differs .., update_of_ne differs ..⟩

theorem regionLoop_spec (inv : Inv s) (ranked : Ranked s.child rank bound) (enough : bound < fuel)
    (flags : BitVec 32) (fresh : Fresh s new parent) {base : State} (kept : SameTree base s) :
    ∃ result, regionLoop flags fuel s parent new = some result ∧ Ends base result := by
  refine ranked.descend (fun fuel parent => regionLoop flags fuel s parent new) (Fresh s new) ?_
    enough fresh
  intro fuel parent fresh
  -- a conflict that stops the loop: the caller sleeps or gives up
  have stops : ∀ conflict, ∃ result,
      (if (s.res conflict).flags &&& flags &&& ioresourceMuxed ≠ 0 then
        some (Outcome.waits conflict, s) else some (.failure, s.free new)) = some result ∧
      Ends base result := by
    intro conflict
    split
    · exact ⟨_, rfl, inv, fun _ => kept⟩
    · exact ⟨_, rfl, inv.free fresh.apart, fun _ => kept⟩
  rw [regionLoop]
  rcases requestResource_spec inv fresh with
    ⟨s', linked, inv'⟩ | refused | ⟨conflict, front, back, refused, found⟩
  · rw [linked]
    exact .inl ⟨_, rfl, inv'.succeeds⟩
  · rw [refused]
    dsimp only
    rw [if_neg fun both => both.1 rfl]
    exact .inl (stops parent)
  rw [refused]
  dsimp only
  split
  case isTrue deeper =>
    exact .inr ⟨conflict, found.member, fresh.child inv found.member, rfl⟩
  case isFalse stopped => exact .inl (stops conflict)

theorem scanChildren_mem :
    (∀ id, scanChildren s start stop children = .region id → id ∈ children) ∧
      ∀ id, scanChildren s start stop children = .inside id → id ∈ children := by
  induction children with
  | nil => exact ⟨nofun, nofun⟩
  | cons first rest ih =>
    rw [scanChildren]
    split
    · split
      · exact ⟨nofun, fun _ found => Found.inside.inj found ▸ mem_cons_self⟩
      · split
        · exact ⟨nofun, nofun⟩
        · exact ⟨fun _ found => Found.region.inj found ▸ mem_cons_self, nofun⟩
    · exact ⟨fun id found => mem_cons_of_mem _ (ih.1 id found),
        fun id found => mem_cons_of_mem _ (ih.2 id found)⟩

theorem releaseRegion_spec (inv : Inv s) (ranked : Ranked s.child rank bound)
    (enough : bound < fuel) (parent : Id) (start stop : BitVec 32) :
    ∃ result, releaseRegion start stop fuel s parent = some result ∧ Ends s result := by
  refine ranked.descend (fun fuel parent => releaseRegion start stop fuel s parent)
    (fun _ => True) ?_ enough trivial
  intro fuel parent _
  rw [releaseRegion]
  cases found : scanChildren s start stop (s.child parent) with
  | nothing => exact .inl ⟨_, rfl, inv.unchanged _⟩
  | inside id => exact .inr ⟨id, scanChildren_mem.2 id found, trivial, rfl⟩
  | region id =>
    have member := scanChildren_mem.1 id found
    refine .inl ⟨_, rfl, Inv.succeeds ?_⟩
    exact (inv.sublist (sublist_update erase_sublist)).free (inv.apart_erase member)

/-! ### Calls -/

/-- The arguments a call may be given: pointers to allocated resources, a descriptor in no tree for
a request, a resource of its parent for an adjustment, free memory for an allocation. -/
def Callable (s : State) : Call → Prop
  | .requestResource root new | .insertResource root new => s.live root = true ∧ Fresh s new root
  | .releaseResource old => ∃ parent, s.parent old = some parent ∧ s.live parent = true
  | .adjustResource id _ _ =>
    ∃ parent, s.parent id = some parent ∧ s.live parent = true ∧ id ∈ s.child parent
  | .requestRegion parent _ _ _ memory =>
    s.live parent = true ∧ ∀ new ∈ memory, s.live new = false
  | .resume parent new _ =>
    s.live new = true ∧ Apart s.child new ∧ s.child new = [] ∧ parent ≠ new
  | .releaseRegion parent _ _ => s.live parent = true

def Meets (s : State) : Call → Prop
  | .adjustResource id start size => ¬ EmptyGap s id start (lastOf start size)
  | .resume parent _ _ => s.live parent = true
  | _ => True

/-- A call ends, keeps the invariant, and changes no range and no place unless it succeeds. -/
def Keeps (s : State) (c : Call) : Prop :=
  ∃ enough, ∀ fuel, enough ≤ fuel → ∃ outcome s', call fuel s c = some (outcome, s') ∧
    Inv s' ∧ (outcome ≠ .success → SameTree s s')

theorem deref_live (live : s.live id = true) : s.deref (some id) = some id := by
  simp [State.deref, live]

theorem keeps_of_result (bound : Nat) {c : Call} (meets : Meets s c)
    (result : ∀ fuel, bound < fuel → ∃ result, call fuel s c = some result ∧ Ends s result) :
    Keeps s c ↔ Meets s c := by
  refine iff_of_true ⟨bound + 1, fun fuel enough => ?_⟩ meets
  obtain ⟨⟨outcome, s'⟩, equation, inv, kept⟩ := result fuel enough
  exact ⟨outcome, s', equation, inv, kept⟩

/-- **The resource tree is kept by exactly the calls that meet the condition.** -/
theorem call_keeps_iff (inv : Inv s) {c : Call} (callable : Callable s c) :
    Keeps s c ↔ Meets s c := by
  obtain ⟨rank, bound, ranked⟩ := inv.nested.ranked
  cases c with
  | requestResource root new =>
    obtain ⟨live, fresh⟩ := callable
    refine keeps_of_result 0 trivial fun fuel _ => ?_
    simp only [call, deref_live live, bind_eq_bind, bind_some]
    rcases requestResource_spec inv fresh with
      ⟨s', linked, inv'⟩ | refused | ⟨conflict, _, _, refused, -⟩
    · rw [linked]
      exact ⟨_, rfl, inv'.succeeds⟩
    all_goals
      rw [refused]
      exact ⟨_, rfl, inv.unchanged _⟩
  | insertResource parent new =>
    obtain ⟨live, fresh⟩ := callable
    refine keeps_of_result bound trivial fun fuel enough => ?_
    simp only [call, deref_live live, bind_eq_bind, bind_some]
    exact insertLoop_spec inv ranked enough fresh
  | releaseResource old =>
    obtain ⟨parent, pointer, live⟩ := callable
    refine keeps_of_result 0 trivial fun fuel _ => ?_
    simp only [call, pointer, deref_live live, bind_eq_bind, bind_some]
    exact ⟨_, rfl, releaseLinked_spec inv parent old⟩
  | adjustResource id start size =>
    obtain ⟨parent, pointer, live, member⟩ := callable
    have equation : ∀ fuel, call fuel s (.adjustResource id start size)
        = some (adjustLinked s parent id start size) := by
      intro fuel
      simp only [call, pointer, deref_live live, bind_eq_bind, bind_some,
        if_pos member]
    rcases adjustLinked_spec inv member start size with ⟨meets, ends⟩ | ⟨gap, broken⟩
    · exact keeps_of_result 0 meets fun fuel _ => ⟨_, equation fuel, ends⟩
    refine iff_of_false ?_ (fun meets => meets gap)
    rintro ⟨enough, keeps⟩
    obtain ⟨outcome, s', result, inv', -⟩ := keeps enough (Nat.le_refl _)
    rw [equation] at result
    have state : (adjustLinked s parent id start size).2 = s' := congrArg Prod.snd (some.inj result)
    exact broken (state ▸ inv')
  | requestRegion parent start n flags memory =>
    obtain ⟨live, dead⟩ := callable
    cases memory with
    | none =>
      exact keeps_of_result 0 trivial fun fuel _ => ⟨_, rfl, inv.unchanged _⟩
    | some new =>
      have dead := dead new rfl
      have other : parent ≠ new := by
        rintro rfl
        rw [live] at dead
        cases dead
      have inv' := inv.alloc dead ⟨start, lastOf start n, ioresourceBusy ||| flags⟩
      obtain ⟨rank', bound', ranked'⟩ := inv'.nested.ranked
      obtain ⟨fresh, kept⟩ :=
        inv.alloc_fresh dead other ⟨start, lastOf start n, ioresourceBusy ||| flags⟩
      refine keeps_of_result bound' trivial fun fuel enough => ?_
      simp only [call, deref_live live, bind_eq_bind, bind_some]
      exact regionLoop_spec inv' ranked' enough flags fresh kept
  | resume parent new flags =>
    obtain ⟨liveNew, apart, childless, other⟩ := callable
    by_cases live : s.live parent = true
    · refine keeps_of_result bound live fun fuel enough => ?_
      simp only [call, deref_live live, bind_eq_bind, bind_some]
      exact regionLoop_spec inv ranked enough flags
        ⟨liveNew, apart, not_below_of_childless childless other⟩ (.refl s)
    · refine iff_of_false ?_ live
      rintro ⟨enough, keeps⟩
      obtain ⟨outcome, s', result, -⟩ := keeps enough (Nat.le_refl _)
      have dead : s.deref (some parent) = none := by
        rw [State.deref, filter_some, if_neg live]
      simp [call, dead] at result
  | releaseRegion parent start n =>
    refine keeps_of_result bound trivial fun fuel enough => ?_
    simp only [call, deref_live callable, bind_eq_bind, bind_some]
    exact releaseRegion_spec inv ranked enough parent start (lastOf start n)

/-- Ports with two regions in use, the second one muxed. -/
def ports : State where
  res
    | 0 => ⟨0, 0xffff, 0⟩
    | 1 => ⟨0x100, 0x1ff, ioresourceBusy⟩
    | 2 => ⟨0x200, 0x2ff, ioresourceBusy ||| ioresourceMuxed⟩
    | _ => ⟨0, 0, 0⟩
  parent id := if id = 1 ∨ id = 2 then some 0 else none
  child id := if id = 0 then [1, 2] else []
  live id := id ≤ 2

theorem inv_ports : Inv ports := by
  have member : ∀ {parent child}, child ∈ ports.child parent →
      parent = 0 ∧ (child = 1 ∨ child = 2) := by
    intro parent child mem
    by_cases root : parent = 0
    · subst root
      refine ⟨rfl, ?_⟩
      simpa [ports] using mem
    · simp [ports, root] at mem
  refine ⟨⟨fun parent => ?_, fun mem => ?_, fun mem => ?_, fun one two => ?_,
    fun id => if id = 0 then 0 else 1, 1, fun parent child mem => ?_⟩, fun mem => ?_, fun mem => ?_⟩
  · by_cases root : parent = 0
    · subst root
      decide
    · simp [ports, root]
  · obtain ⟨rfl, rfl | rfl⟩ := member mem <;> decide
  · obtain ⟨rfl, rfl | rfl⟩ := member mem <;> decide
  · rw [(member one).1, (member two).1]
  · obtain ⟨rfl, rfl | rfl⟩ := member mem <;> decide
  · obtain ⟨rfl, rfl | rfl⟩ := member mem <;> decide
  · obtain ⟨rfl, rfl | rfl⟩ := member mem <;> decide

/-- A region of the ports shrinks to its upper half. -/
theorem call_keeps_iff_ports : Inv ports ∧ Callable ports (.adjustResource 1 0x180 0x80) ∧
    Keeps ports (.adjustResource 1 0x180 0x80) := by
  have callable : Callable ports (.adjustResource 1 0x180 0x80) :=
    ⟨0, by decide, by decide, by decide⟩
  exact ⟨inv_ports, callable,
    (call_keeps_iff inv_ports callable).mpr fun gap => absurd gap.empty (by decide)⟩

/-- **The two ways a tree is lost.** An adjustment to size 0 leaves a range that ends before it
starts. A request sleeps on a muxed region, and goes on below it when it is freed. -/
theorem ports_lost :
    (Callable ports (.adjustResource 1 0x100 0) ∧
      ∃ s', call 1 ports (.adjustResource 1 0x100 0) = some (.success, s') ∧ ¬ Inv s') ∧
    ∃ s₁ s₂, call 2 ports (.requestRegion 0 0x200 0x100 ioresourceMuxed (some 3))
        = some (.waits 2, s₁) ∧
      call 2 s₁ (.releaseRegion 0 0x200 0x100) = some (.success, s₂) ∧
      ∀ fuel, call fuel s₂ (.resume 2 3 ioresourceMuxed) = none := by
  refine ⟨⟨⟨0, by decide, by decide, by decide⟩, _, rfl, fun inv => ?_⟩, _, _, rfl, rfl,
    fun fuel => rfl⟩
  have member : 1 ∈ (ports.setRange 1 0x100 (lastOf 0x100 0)).child 0 := by decide
  exact absurd (inv.nested.proper member) (by decide)

end KernelImx.Resource
