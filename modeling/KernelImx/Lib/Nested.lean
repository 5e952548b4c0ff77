/-
**Families of nested spans.**

Every item spans the points from `lo item` to `hi item` and has a list of children. The family is
`Nested` when the children of an item are non-empty spans inside it, in ascending order and apart,
no item is a child of two, and no descent goes on forever. Each way of changing such a family is one
lemma; `Ranked.descend` is the rule for loops that go down such a family.
-/

import Mathlib.Logic.Relation
import Mathlib.Order.Basic

namespace KernelImx.Lib

open Function List

variable {Item : Type*} {lo hi : Item → Nat} {children : Item → List Item}
  {item parent other child : Item} {front run back : List Item}

def Below (children : Item → List Item) : Item → Item → Prop :=
  Relation.ReflTransGen fun parent child => child ∈ children parent

/-- A descent is bounded: ranks rise from parents to children, up to a bound. -/
def Ranked (children : Item → List Item) (rank : Item → Nat) (bound : Nat) : Prop :=
  ∀ parent child, child ∈ children parent → rank parent < rank child ∧ rank child ≤ bound

/-- **A loop that goes down the family ends**, with what each of its rounds ends with. -/
theorem Ranked.descend {Result : Type*} {rank : Item → Nat} {bound fuel : Nat}
    (ranked : Ranked children rank bound) (loop : Nat → Item → Option Result)
    (ready : Item → Prop) {post : Result → Prop}
    (round : ∀ fuel item, ready item → (∃ result, loop (fuel + 1) item = some result ∧ post result) ∨
      ∃ child ∈ children item, ready child ∧ loop (fuel + 1) item = loop fuel child)
    (enough : bound < fuel) (start : ready item) :
    ∃ result, loop fuel item = some result ∧ post result := by
  obtain ⟨left, rfl⟩ : ∃ left, fuel = left + 1 := ⟨fuel - 1, by omega⟩
  -- the fuel left over is enough for the ranks left below the item
  replace enough : bound ≤ rank item + left := by omega
  induction left generalizing item with
  | zero =>
    rcases round 0 item start with done | ⟨child, member, -, -⟩
    · exact done
    · have := ranked item child member
      omega
  | succ fuel ih =>
    rcases round (fuel + 1) item start with done | ⟨child, member, next, step⟩
    · exact done
    · have := ranked item child member
      rw [step]
      exact ih next (by omega)

/-- **A nested family.** -/
structure Nested (lo hi : Item → Nat) (children : Item → List Item) : Prop where
  ordered : ∀ parent, (children parent).Pairwise fun left right => hi left < lo right
  proper : ∀ {parent child}, child ∈ children parent → lo child ≤ hi child
  inside : ∀ {parent child}, child ∈ children parent →
    lo parent ≤ lo child ∧ hi child ≤ hi parent
  single : ∀ {parent other child}, child ∈ children parent → child ∈ children other →
    parent = other
  ranked : ∃ rank bound, Ranked children rank bound

/-- An item is nobody's child. -/
def Apart (children : Item → List Item) (item : Item) : Prop :=
  ∀ parent, item ∉ children parent

theorem Apart.ne (apart : Apart children item) (member : child ∈ children parent) : child ≠ item := by
  rintro rfl
  exact apart parent member

namespace Nested

section

variable (nested : Nested lo hi children)

include nested

theorem not_below_child (apart : Apart children item)
    (member : child ∈ children parent) (above : ¬ Below children item parent) :
    ¬ Below children item child := by
  intro below
  rcases Relation.ReflTransGen.cases_tail below with rfl | ⟨between, upper, step⟩
  · exact apart parent member
  · exact above (nested.single step member ▸ upper)

theorem not_mem_self (item : Item) : item ∉ children item := by
  intro member
  obtain ⟨rank, bound, ranked⟩ := nested.ranked
  exact Nat.lt_irrefl _ (ranked item item member).1

theorem nodup (parent : Item) : (children parent).Nodup := by
  refine Pairwise.imp_of_mem ?_ (nested.ordered parent)
  rintro left right - member less rfl
  exact Nat.not_lt.mpr (nested.proper member) less

/-- Children are taken away. -/
theorem sublist {fewer : Item → List Item}
    (sub : ∀ parent, (fewer parent).Sublist (children parent)) : Nested lo hi fewer where
  ordered := fun parent => (nested.ordered parent).sublist (sub parent)
  proper := fun member => nested.proper ((sub _).subset member)
  inside := fun member => nested.inside ((sub _).subset member)
  single := fun one two => nested.single ((sub _).subset one) ((sub _).subset two)
  ranked := by
    obtain ⟨rank, bound, ranked⟩ := nested.ranked
    exact ⟨rank, bound, fun parent child member => ranked parent child ((sub _).subset member)⟩

/-- An item without parent and children gets another span. -/
theorem redefine {lo' hi' : Item → Nat} (apart : Apart children item)
    (childless : children item = []) (sameLo : ∀ other, other ≠ item → lo' other = lo other)
    (sameHi : ∀ other, other ≠ item → hi' other = hi other) : Nested lo' hi' children := by
  have above : ∀ {parent child}, child ∈ children parent → parent ≠ item := by
    rintro _ child member rfl
    rw [childless] at member
    exact not_mem_nil member
  refine ⟨fun parent => ?_, fun member => ?_, fun member => ?_, nested.single, nested.ranked⟩
  · refine Pairwise.imp_of_mem ?_ (nested.ordered parent)
    intro left right leftMem rightMem less
    rwa [sameHi left (apart.ne leftMem), sameLo right (apart.ne rightMem)]
  · rw [sameLo _ (apart.ne member), sameHi _ (apart.ne member)]
    exact nested.proper member
  · rw [sameLo _ (apart.ne member), sameHi _ (apart.ne member), sameLo _ (above member),
      sameHi _ (above member)]
    exact nested.inside member

end

theorem ordered_insert
    (sorted : (front ++ back).Pairwise fun left right => hi left < lo right)
    (before : ∀ left ∈ front, hi left < lo item) (behind : ∀ right ∈ back, hi item < lo right) :
    (front ++ item :: back).Pairwise fun left right => hi left < lo right := by
  obtain ⟨frontSorted, backSorted, across⟩ := pairwise_append.mp sorted
  refine pairwise_append.mpr ⟨frontSorted, pairwise_cons.mpr ⟨behind, backSorted⟩, ?_⟩
  intro left leftMem right rightMem
  rcases mem_cons.mp rightMem with rfl | rightMem
  · exact before left leftMem
  · exact across left leftMem right rightMem

section Update

variable [DecidableEq Item]

theorem mem_link (parts : children parent = front ++ back)
    (mem : child ∈ update children parent (front ++ item :: back) other) :
    child ∈ children other ∨ (other = parent ∧ child = item) := by
  by_cases same : other = parent
  · subst same
    rw [update_self, mem_append, mem_cons] at mem
    rw [parts, mem_append]
    rcases mem with inFront | rfl | inBack
    · exact .inl (.inl inFront)
    · exact .inr ⟨rfl, rfl⟩
    · exact .inl (.inr inBack)
  · rw [update_of_ne same] at mem
    exact .inl mem

section

variable (nested : Nested lo hi children)

include nested

/-- An item that is nobody's child is put between two children. -/
theorem link (apart : Apart children item)
    (above : ¬ Below children item parent) (parts : children parent = front ++ back)
    (own : lo item ≤ hi item) (within : lo parent ≤ lo item ∧ hi item ≤ hi parent)
    (before : ∀ left ∈ front, hi left < lo item) (behind : ∀ right ∈ back, hi item < lo right) :
    Nested lo hi (update children parent (front ++ item :: back)) := by
  classical
  have member := fun {other child : Item} => @mem_link _ children item parent other child front back _ parts
  refine ⟨fun other => ?_, fun mem => ?_, fun mem => ?_, fun one two => ?_, ?_⟩
  · by_cases same : other = parent
    · subst same
      rw [update_self]
      exact ordered_insert (parts ▸ nested.ordered other) before behind
    · rw [update_of_ne same]
      exact nested.ordered other
  · rcases member mem with old | ⟨rfl, rfl⟩
    · exact nested.proper old
    · exact own
  · rcases member mem with old | ⟨rfl, rfl⟩
    · exact nested.inside old
    · exact within
  · rcases member one with old | ⟨rfl, rfl⟩ <;> rcases member two with old' | ⟨rfl, same⟩
    · exact nested.single old old'
    · exact absurd (same ▸ old) (apart _)
    · exact absurd old' (apart _)
    · rfl
  -- the item and all below it are raised over the new parent
  obtain ⟨rank, bound, ranked⟩ := nested.ranked
  refine ⟨fun other => if Below children item other then rank other + (rank parent + 1)
    else rank other, bound + rank item + rank parent + 1, fun other child mem => ?_⟩
  rcases member mem with old | ⟨rfl, rfl⟩
  · obtain ⟨less, le⟩ := ranked other child old
    by_cases upper : Below children item other
    · have lower : Below children item child := upper.tail old
      simp only [if_pos upper, if_pos lower]
      omega
    · have lower := nested.not_below_child apart old upper
      simp only [if_neg upper, if_neg lower]
      omega
  · have self : Below children child child := Relation.ReflTransGen.refl
    simp only [if_neg above, if_pos self]
    omega

theorem mem_wrap (other : item ≠ parent)
    (parts : children parent = front ++ run ++ back) {above : Item}
    (mem : child ∈ update (update children item run) parent
      (front ++ item :: back) above) :
    (above = parent ∧ child = item) ∨ (above = item ∧ child ∈ run) ∨
      (above ≠ item ∧ child ∈ children above ∧ child ∉ run) := by
  by_cases same : above = parent
  · subst same
    rw [update_self, mem_append, mem_cons] at mem
    obtain ⟨frontRun, -, apartBack⟩ := nodup_append.mp (parts ▸ nested.nodup above)
    obtain ⟨-, -, apartRun⟩ := nodup_append.mp frontRun
    rcases mem with inFront | rfl | inBack
    · refine .inr (.inr ⟨Ne.symm other, ?_, fun inRun => apartRun _ inFront _ inRun rfl⟩)
      rw [parts]
      exact mem_append_left _ (mem_append_left _ inFront)
    · exact .inl ⟨rfl, rfl⟩
    · refine .inr (.inr ⟨Ne.symm other, ?_, fun inRun =>
        apartBack _ (mem_append_right _ inRun) _ inBack rfl⟩)
      rw [parts]
      exact mem_append_right _ inBack
  · rw [update_of_ne same] at mem
    by_cases self : above = item
    · subst self
      rw [update_self] at mem
      exact .inr (.inl ⟨rfl, mem⟩)
    · rw [update_of_ne self] at mem
      refine .inr (.inr ⟨self, mem, fun inRun => same (nested.single mem ?_)⟩)
      rw [parts]
      exact mem_append_left _ (mem_append_right _ inRun)

/-- **An item in place of a run of children**, which become its own. -/
theorem wrap (apart : Apart children item) (other : item ≠ parent)
    (parts : children parent = front ++ run ++ back) (own : lo item ≤ hi item)
    (within : lo parent ≤ lo item ∧ hi item ≤ hi parent)
    (before : ∀ left ∈ front, hi left < lo item) (behind : ∀ right ∈ back, hi item < lo right)
    (inner : ∀ child ∈ run, lo item ≤ lo child ∧ hi child ≤ hi item) :
    Nested lo hi (update (update children item run) parent
      (front ++ item :: back)) := by
  have sorted := parts ▸ nested.ordered parent
  have member := fun {above child : Item} =>
    @mem_wrap _ lo hi children item parent child front run back _ nested other parts above
  have runMember : ∀ {child}, child ∈ run → child ∈ children parent := by
    intro child inRun
    rw [parts]
    exact mem_append_left _ (mem_append_right _ inRun)
  refine ⟨fun above => ?_, fun mem => ?_, fun mem => ?_, fun one two => ?_, ?_⟩
  · by_cases same : above = parent
    · subst same
      rw [update_self]
      refine ordered_insert ?_ before behind
      exact sorted.sublist ((sublist_append_left front run).append_right back)
    rw [update_of_ne same]
    by_cases self : above = item
    · subst self
      rw [update_self]
      exact sorted.sublist ((sublist_append_right front run).trans
        (sublist_append_left _ back))
    · rw [update_of_ne self]
      exact nested.ordered above
  · rcases member mem with ⟨rfl, rfl⟩ | ⟨rfl, inRun⟩ | ⟨-, old, -⟩
    · exact own
    · exact nested.proper (runMember inRun)
    · exact nested.proper old
  · rcases member mem with ⟨rfl, rfl⟩ | ⟨rfl, inRun⟩ | ⟨-, old, -⟩
    · exact within
    · exact inner _ inRun
    · exact nested.inside old
  · rcases member one with ⟨rfl, rfl⟩ | ⟨rfl, inRun⟩ | ⟨-, old, notRun⟩ <;>
      rcases member two with ⟨rfl, same⟩ | ⟨rfl, inRun'⟩ | ⟨-, old', notRun'⟩
    · rfl
    · exact absurd (runMember inRun') (apart _)
    · exact absurd old' (apart _)
    · exact absurd (same ▸ runMember inRun) (apart _)
    · rfl
    · exact absurd inRun notRun'
    · exact absurd (same ▸ old) (apart _)
    · exact absurd inRun' notRun
    · exact nested.single old old'
  -- ranks are doubled to make room for the item between parent and children
  obtain ⟨rank, bound, ranked⟩ := nested.ranked
  refine ⟨fun above => if above = item then 2 * rank parent + 1 else 2 * rank above,
    2 * bound + 2 * rank parent + 1, fun above child mem => ?_⟩
  rcases member mem with ⟨rfl, rfl⟩ | ⟨rfl, inRun⟩ | ⟨self, old, -⟩
  · simp only [if_neg (Ne.symm other), if_true]
    omega
  · obtain ⟨less, le⟩ := ranked parent child (runMember inRun)
    simp only [if_neg (apart.ne (runMember inRun)), if_true]
    omega
  · obtain ⟨less, le⟩ := ranked above child old
    simp only [if_neg self, if_neg (apart.ne old)]
    omega

/-- **Another span for a child**, between its neighbours and around its own children. -/
theorem resize {first last : Nat}
    (parts : children parent = front ++ item :: back) (own : first ≤ last)
    (within : lo parent ≤ first ∧ last ≤ hi parent)
    (before : ∀ left ∈ front, hi left < first) (behind : ∀ right ∈ back, last < lo right)
    (inner : ∀ child ∈ children item, first ≤ lo child ∧ hi child ≤ last) :
    Nested (update lo item first) (update hi item last) children := by
  have itsParent : item ∈ children parent := by
    rw [parts]
    exact mem_append_right _ mem_cons_self
  have notSelf : parent ≠ item := by
    rintro rfl
    exact nested.not_mem_self _ itsParent
  have elsewhere : ∀ {above child}, above ≠ parent → child ∈ children above → child ≠ item := by
    rintro above _ differ mem rfl
    exact differ (nested.single mem itsParent)
  have others : ∀ child ∈ front ++ back, child ≠ item := by
    rintro child mem rfl
    exact (nodup_cons.mp (perm_middle.nodup_iff.mp (parts ▸ nested.nodup parent))).1 mem
  have sorted := (parts ▸ nested.ordered parent).sublist
    ((sublist_cons_self item back).append_left front)
  have keep : ∀ {list : List Item}, (∀ child ∈ list, child ≠ item) →
      list.Pairwise (fun left right => hi left < lo right) →
      list.Pairwise fun left right =>
        update hi item last left < update lo item first right := by
    intro list others sorted
    refine Pairwise.imp_of_mem ?_ sorted
    intro left right leftMem rightMem less
    rwa [update_of_ne (others left leftMem), update_of_ne (others right rightMem)]
  refine ⟨fun above => ?_, fun {above child} mem => ?_, fun {above child} mem => ?_, nested.single,
    nested.ranked⟩
  · by_cases same : above = parent
    · subst same
      rw [parts]
      refine ordered_insert (keep others sorted) (fun left mem => ?_) fun right mem => ?_
      · rw [update_self, update_of_ne (others left (mem_append_left _ mem))]
        exact before left mem
      · rw [update_self, update_of_ne (others right (mem_append_right _ mem))]
        exact behind right mem
    · exact keep (fun child mem => elsewhere same mem) (nested.ordered above)
  · by_cases self : child = item
    · subst self
      rwa [update_self, update_self]
    · rw [update_of_ne self, update_of_ne self]
      exact nested.proper mem
  by_cases self : child = item
  · subst self
    obtain rfl := nested.single mem itsParent
    rwa [update_self, update_self, update_of_ne notSelf,
      update_of_ne notSelf]
  rw [update_of_ne self, update_of_ne self]
  by_cases upper : above = item
  · subst upper
    rw [update_self, update_self]
    exact inner child mem
  · rw [update_of_ne upper, update_of_ne upper]
    exact nested.inside mem

end

end Update

end Nested

end KernelImx.Lib
