/-
**The locks of the owner after a request.**

The pass over the locks of one owner and what follows it lay the range of the request over the
extents of these locks (`Overlaid`), for every arrangement of the locks around the request.
-/

import KernelImx.Lib.Extents
import KernelImx.Locks.Lock

namespace KernelImx.Locks

open List KernelImx.Lib Option

variable {Owner : Type}

/-! ### Extents of locks -/

def FileLock.extent (fl : FileLock Owner) : Extent LockType := ⟨fl.flType, fl.flStart, fl.flEnd⟩

/-- The tag a request lays over its range; unlocking erases. -/
def LockType.tag (flType : LockType) : Option LockType := if flType = .unlck then none else some flType

/-- A range inside the file. -/
structure InFile (flStart flEnd : Int) : Prop where
  lower : 0 ≤ flStart
  ordered : flStart ≤ flEnd
  upper : flEnd ≤ offsetMax

/-- A lock that `__posix_lock_file` may have set. -/
structure Valid (fl : FileLock Owner) : Prop where
  range : InFile fl.flStart fl.flEnd
  typed : fl.flType ≠ .unlck

theorem loff_eq {value : Int} (lower : -1 ≤ value) (upper : value ≤ offsetMax) : loff value = value := by
  simp only [offsetMax] at upper
  exact Int.bmod_eq_of_le (by omega) (by omega)

variable {flStart flEnd start last : Int} {flType other : LockType}

theorem InFile.pred (range : InFile flStart flEnd) : loff (flStart - 1) = flStart - 1 := by
  have := range.lower
  have := range.ordered
  have := range.upper
  exact loff_eq (by omega) (by omega)

theorem InFile.merge (range : InFile flStart flEnd) (other : InFile start last) :
    InFile (min flStart start) (max flEnd last) where
  lower := le_min range.lower other.lower
  ordered := le_trans (min_le_left _ _) (le_trans range.ordered (le_max_left _ _))
  upper := max_le range.upper other.upper

theorem tag_eq_some_iff (typed : other ≠ .unlck) :
    flType.tag = some other ↔ flType = other := by
  unfold LockType.tag
  split
  next erased => simp [erased, typed.symm]
  · exact some_inj

/-! ### The branches of the pass -/

def LockScan.stop (flStart flEnd : Int) (added : Bool) (left right : Option Nat)
    (list : List (FileLock Owner)) : LockScan Owner :=
  ⟨[], list, flStart, flEnd, added, left, right, []⟩

/-- The request takes a lock over: it covers the lock, or touches it and has its type. -/
def Takes (flType : LockType) (flStart flEnd : Int) (fl : FileLock Owner) : Prop :=
  (flStart ≤ fl.flStart ∧ fl.flEnd ≤ flEnd) ∨
    (flType = fl.flType ∧ loff (flStart - 1) ≤ fl.flEnd ∧ loff (fl.flStart - 1) ≤ flEnd)

/-- **What the pass does** with the first lock: it stops there or at the right lock, goes past it,
marks it as the left one, deletes it, or turns it into the request. -/
inductive Pass (owner : Owner) (flType : LockType) :
    Int → Int → Bool → Option Nat → List (FileLock Owner) → LockScan Owner → Prop
  | stop {flStart flEnd : Int} {added left} {list : List (FileLock Owner)}
      (starts : ∀ fl ∈ list.head?, fl.flOwner = owner →
        flEnd < if flType = fl.flType then loff (fl.flStart - 1) else fl.flStart) :
      Pass owner flType flStart flEnd added left list (.stop flStart flEnd added left none list)
  | right {flStart flEnd : Int} {added left} {fl : FileLock Owner} {tail}
      (differs : flType ≠ fl.flType) (starts : fl.flStart ≤ flEnd) (ends : flEnd < fl.flEnd) :
      Pass owner flType flStart flEnd added left (fl :: tail)
        (.stop flStart flEnd (added || flType = .unlck)
          (if fl.flStart < flStart then some fl.id else left) (some fl.id) (fl :: tail))
  | before {flStart flEnd : Int} {added left} {fl : FileLock Owner} {tail scan}
      (ends : fl.flEnd < if flType = fl.flType then loff (flStart - 1) else flStart)
      (rest : Pass owner flType flStart flEnd added left tail scan) :
      Pass owner flType flStart flEnd added left (fl :: tail) (scan.pass fl)
  | left {flStart flEnd : Int} {added left} {fl : FileLock Owner} {tail scan}
      (differs : flType ≠ fl.flType) (reaches : flStart ≤ fl.flEnd)
      (starts : fl.flStart < flStart) (ends : fl.flEnd ≤ flEnd)
      (rest : Pass owner flType flStart flEnd (added || flType = .unlck) (some fl.id) tail scan) :
      Pass owner flType flStart flEnd added left (fl :: tail) (scan.pass fl)
  | delete {flStart flEnd : Int} {added left} {fl : FileLock Owner} {tail scan}
      (takes : Takes flType flStart flEnd fl) (dropped : (added || flType = .unlck) = true)
      (rest : Pass owner flType (min flStart fl.flStart) (max flEnd fl.flEnd) true left tail scan) :
      Pass owner flType flStart flEnd added left (fl :: tail) (scan.wake fl)
  | claim {flStart flEnd : Int} {left} {fl : FileLock Owner} {tail scan}
      (block woken : List (LockRequest Owner)) (takes : Takes flType flStart flEnd fl)
      (locks : flType = .unlck → fl.flType = .unlck)
      (waits : (block = fl.flBlock ∧ flType = fl.flType) ∨ (woken = fl.flBlock ∧ block = []))
      (rest : Pass owner flType (min flStart fl.flStart) (max flEnd fl.flEnd) true left tail scan) :
      Pass owner flType flStart flEnd false left (fl :: tail)
        ((scan.alias { fl with flType := flType, flBlock := block }).wake
          { fl with flBlock := woken })

theorem ownLocks_pass [DecidableEq Owner] (owner : Owner) (flType : LockType) (flStart flEnd : Int)
    (added : Bool) (left : Option Nat) (list : List (FileLock Owner)) :
    Pass owner flType flStart flEnd added left list
      (ownLocks owner flType flStart flEnd added left list) := by
  induction list generalizing flStart flEnd added left with
  | nil => exact .stop nofun
  | cons fl tail ih =>
    unfold ownLocks
    split
    next foreign => exact .stop (by rintro _ ⟨⟩ own; exact absurd own foreign)
    split
    next same =>
      have lower : (if fl.flStart > flStart then flStart else fl.flStart) =
          min flStart fl.flStart := by
        split <;> omega
      have higher : (if fl.flEnd < flEnd then flEnd else fl.flEnd) = max flEnd fl.flEnd := by
        split <;> omega
      simp only [lower, higher]
      split
      next ends => exact .before (by rwa [if_pos same]) (ih _ _ _ _)
      split
      next starts => exact .stop (by rintro _ ⟨⟩ -; rwa [if_pos same])
      have takes : Takes flType flStart flEnd fl := .inr ⟨same, by omega, by omega⟩
      cases added with
      | true => exact .delete takes rfl (ih _ _ _ _)
      | false =>
        subst same
        exact .claim fl.flBlock [] takes id (.inl ⟨rfl, rfl⟩) (ih _ _ _ _)
    next differs =>
      split
      next ends => exact .before (by rwa [if_neg differs]) (ih _ _ _ _)
      split
      next starts => exact .stop (by rintro _ ⟨⟩ -; rw [if_neg differs]; omega)
      simp only
      split
      next ends => exact .right differs (by omega) ends
      split
      next inside =>
        have rest : Pass owner flType (min flStart fl.flStart) (max flEnd fl.flEnd) true left tail
            (ownLocks owner flType flStart flEnd true left tail) := by
          rw [min_eq_left inside, max_eq_left (by omega)]
          exact ih _ _ _ _
        have takes : Takes flType flStart flEnd fl := .inl ⟨inside, by omega⟩
        rw [if_neg (by omega : ¬ fl.flStart < flStart)]
        split
        next dropped => exact .delete takes dropped rest
        next fresh =>
          simp only [Bool.or_eq_true, decide_eq_true_eq, not_or] at fresh
          obtain ⟨first, locks⟩ := fresh
          rw [Bool.not_eq_true] at first
          subst first
          exact .claim [] fl.flBlock takes (absurd · locks) (.inr ⟨rfl, rfl⟩) rest
      next outside =>
        rw [if_pos (by omega : fl.flStart < flStart)]
        exact .left differs (by omega) (by omega) (by omega) (ih _ _ _ _)

/-! ### The left lock -/

variable {scan : LockScan Owner} {owner : Owner} {fl : FileLock Owner} {added : Bool} {id : Nat}
  {list tail : List (FileLock Owner)} {left newFl2 : Option Nat}

section Left

variable (pass : Pass owner flType flStart flEnd added left list scan)

include pass

theorem Pass.left_kept (after : ∀ fl ∈ list, flStart ≤ fl.flStart) :
    scan.flStart = flStart ∧ scan.left = left := by
  induction pass with
  | stop => exact ⟨rfl, rfl⟩
  | before _ _ ih => exact ih (forall_mem_cons.mp after).2
  | delete _ _ _ ih | claim _ _ _ _ _ _ ih =>
    obtain ⟨here, after⟩ := forall_mem_cons.mp after
    rw [min_eq_left here] at ih
    exact ih after
  | right => exact ⟨rfl, if_neg (not_lt.mpr (forall_mem_cons.mp after).1)⟩
  | left _ _ starts => exact absurd starts (not_lt.mpr (forall_mem_cons.mp after).1)

theorem Pass.ne_of_apart (apart : ∀ fl ∈ list, fl.id ≠ id) :
    scan.right ≠ some id ∧ (left ≠ some id → scan.left ≠ some id) := by
  induction pass with
  | stop => exact ⟨nofun, fun outside => outside⟩
  | right =>
    have differ := fun same => (forall_mem_cons.mp apart).1 (some.inj same)
    refine ⟨differ, fun outside => ?_⟩
    split
    · exact differ
    · exact outside
  | left _ _ _ _ _ ih =>
    obtain ⟨differ, apart⟩ := forall_mem_cons.mp apart
    exact ⟨(ih apart).1, fun _ => (ih apart).2 fun same => differ (some.inj same)⟩
  | before _ _ ih | delete _ _ _ ih | claim _ _ _ _ _ _ ih => exact ih (forall_mem_cons.mp apart).2

end Left

/-! ### Trimming -/

theorem trim_of_ne (notRight : scan.right ≠ some fl.id) (notLeft : scan.newLeft newFl2 ≠ some fl.id) :
    scan.trim newFl2 fl = fl := by
  rw [LockScan.trim, trimRight, if_neg notRight, trimLeft, if_neg notLeft]

theorem trim_left (notRight : scan.right ≠ some fl.id) (isLeft : scan.newLeft newFl2 = some fl.id) :
    (scan.trim newFl2 fl).extent = ⟨fl.flType, fl.flStart, loff (scan.flStart - 1)⟩ := by
  rw [LockScan.trim, trimRight, if_neg notRight, trimLeft, if_pos isLeft]
  rfl

theorem trim_right (isRight : scan.right = some fl.id) (notLeft : scan.newLeft newFl2 ≠ some fl.id) :
    (scan.trim newFl2 fl).extent = ⟨fl.flType, loff (scan.flEnd + 1), fl.flEnd⟩ := by
  have kept : scan.newLeft newFl2 ≠ some (trimRight scan.right scan.flEnd fl).id := by
    rw [trimRight, if_pos isRight]
    exact notLeft
  rw [LockScan.trim, trimLeft, if_neg kept, trimRight, if_pos isRight]
  rfl

/-- The extents of the owner once the request is finished. -/
def LockScan.settled (scan : LockScan Owner) (flType : LockType) (newFl2 : Option Nat) :
    List (Extent LockType) :=
  (scan.done ++ scan.broken newFl2).map (fun fl => (scan.trim newFl2 fl).extent) ++
    ((if scan.added then [] else stroke flType.tag scan.flStart scan.flEnd) ++
      scan.rest.map fun fl => (scan.trim newFl2 fl).extent)

theorem settled_alias : (scan.alias fl).settled flType newFl2 =
    (scan.trim newFl2 { fl with flStart := scan.flStart, flEnd := scan.flEnd }).extent ::
      scan.settled flType newFl2 := rfl

theorem settled_stop (outside : ∀ fl ∈ list, left ≠ some fl.id) :
    (LockScan.stop flStart flEnd added left none list).settled flType newFl2 =
      (if added then [] else stroke flType.tag flStart flEnd) ++ list.map FileLock.extent := by
  have kept : ∀ fl ∈ list,
      ((LockScan.stop flStart flEnd added left none list).trim newFl2 fl).extent = fl.extent := by
    intro fl member
    rw [trim_of_ne (by simp [LockScan.stop])]
    simpa [LockScan.newLeft, LockScan.stop] using outside fl member
  rw [LockScan.settled, ← map_congr_left kept]
  rfl

theorem rest_right (notLeft : ∀ other ∈ fl :: tail,
      (LockScan.stop flStart flEnd added left (some fl.id) (fl :: tail)).newLeft newFl2 ≠
        some other.id)
    (apart : ∀ other ∈ tail, other.id ≠ fl.id) :
    (fl :: tail).map (fun other => ((LockScan.stop flStart flEnd added left (some fl.id)
        (fl :: tail)).trim newFl2 other).extent) =
      ⟨fl.flType, loff (flEnd + 1), fl.flEnd⟩ :: tail.map FileLock.extent := by
  rw [map_cons, trim_right rfl (notLeft fl mem_cons_self)]
  refine congrArg (_ :: ·) (map_congr_left fun other member => ?_)
  refine congrArg FileLock.extent (trim_of_ne ?_ (notLeft other (mem_cons_of_mem _ member)))
  exact fun same => apart other member (some.inj same).symm

theorem settled_right (outside : ∀ other ∈ fl :: tail, left ≠ some other.id)
    (apart : ∀ other ∈ tail, other.id ≠ fl.id) :
    (LockScan.stop flStart flEnd added left (some fl.id) (fl :: tail)).settled flType newFl2 =
      (if added then [] else stroke flType.tag flStart flEnd) ++
        ⟨fl.flType, loff (flEnd + 1), fl.flEnd⟩ :: tail.map FileLock.extent := by
  let scan : LockScan Owner := .stop flStart flEnd added left (some fl.id) (fl :: tail)
  have differ : ¬ ((some fl.id).isSome ∧ left = some fl.id) := fun both =>
    outside fl mem_cons_self both.2
  have sameLeft : scan.newLeft newFl2 = left := if_neg differ
  have whole : scan.broken newFl2 = [] := if_neg differ
  rw [LockScan.settled, whole, ← rest_right (by rwa [sameLeft]) apart]
  rfl

theorem settled_split (fresh : ∀ other ∈ fl :: tail, id ≠ other.id)
    (apart : ∀ other ∈ tail, other.id ≠ fl.id) :
    (LockScan.stop flStart flEnd added (some fl.id) (some fl.id) (fl :: tail)).settled flType
        (some id) =
      ⟨fl.flType, fl.flStart, loff (flStart - 1)⟩ ::
        ((if added then [] else stroke flType.tag flStart flEnd) ++
          ⟨fl.flType, loff (flEnd + 1), fl.flEnd⟩ :: tail.map FileLock.extent) := by
  let scan : LockScan Owner := .stop flStart flEnd added (some fl.id) (some fl.id) (fl :: tail)
  have newLeft : scan.newLeft (some id) = some id := if_pos ⟨rfl, rfl⟩
  have broken : scan.broken (some id) = [{ fl with id := id, flBlock := [] }] := if_pos ⟨rfl, rfl⟩
  have piece : (scan.trim (some id) { fl with id := id, flBlock := [] }).extent =
      ⟨fl.flType, fl.flStart, loff (flStart - 1)⟩ :=
    trim_left (fun same => fresh fl mem_cons_self (some.inj same).symm) newLeft
  have notLeft : ∀ other ∈ fl :: tail, scan.newLeft (some id) ≠ some other.id := by
    rw [newLeft]
    exact fun other member same => fresh other member (some.inj same)
  rw [LockScan.settled, broken, ← rest_right notLeft apart, ← piece]
  rfl

/-! ### The request laid over the locks -/

/-- The locks of one owner, as they stand on the list. -/
structure OwnLocks (owner : Owner) (list : List (FileLock Owner)) : Prop where
  own : ∀ fl ∈ list, fl.flOwner = owner
  valid : ∀ fl ∈ list, Valid fl
  laid : Laid (list.map FileLock.extent)
  ids : (list.map FileLock.id).Nodup

namespace OwnLocks

variable (locks : OwnLocks owner (fl :: tail))

include locks

protected theorem tail : OwnLocks owner tail :=
  ⟨(forall_mem_cons.mp locks.own).2, (forall_mem_cons.mp locks.valid).2, locks.laid.tail,
    (nodup_cons.mp locks.ids).2⟩

theorem head : Valid fl := locks.valid fl mem_cons_self

theorem later : ∀ other ∈ tail, fl.flEnd < other.flStart :=
  fun other member => ((pairwise_cons.mp locks.laid.apart).1 other.extent
    (mem_map_of_mem member)).1

theorem apart : ∀ other ∈ tail, other.id ≠ fl.id :=
  fun other member same => (nodup_cons.mp locks.ids).1 (mem_map.mpr ⟨other, member, same⟩)

end OwnLocks

/-- The lock the pass has claimed for the request before it came here. -/
def claimed (flType : LockType) (added : Bool) (flStart flEnd : Int) : List (Extent LockType) :=
  if added then stroke flType.tag flStart flEnd else []

theorem stroke_unlck (flStart flEnd : Int) : stroke LockType.unlck.tag flStart flEnd = [] := rfl

theorem claimed_eq_nil (unlocks : added = true → flType = .unlck) :
    claimed flType added flStart flEnd = [] := by
  unfold claimed
  split
  next set => rw [unlocks set, stroke_unlck]
  · rfl

theorem claimed_append (others : List (Extent LockType)) :
    claimed flType added flStart flEnd ++
        ((if added then [] else stroke flType.tag flStart flEnd) ++ others) =
      stroke flType.tag flStart flEnd ++ others := by
  cases added <;> rfl

theorem claimed_append_unlck (others : List (Extent LockType)) :
    claimed flType added flStart flEnd ++
        ((if (added || decide (flType = .unlck)) = true then []
          else stroke flType.tag flStart flEnd) ++ others) =
      stroke flType.tag flStart flEnd ++ others := by
  by_cases unlocks : flType = .unlck
  · subst unlocks
    simp [claimed, stroke_unlck]
  · simp only [unlocks, decide_false, Bool.or_false]
    exact claimed_append others

/-- The extents of the claimed lock, if there is one, and of the locks of the pass. -/
def LockScan.layout (scan : LockScan Owner) (flType : LockType) (newFl2 : Option Nat) (added : Bool) :
    List (Extent LockType) :=
  claimed flType added scan.flStart scan.flEnd ++ scan.settled flType newFl2

theorem layout_wake :
    (scan.wake fl).layout flType newFl2 added = scan.layout flType newFl2 added := rfl

theorem layout_pass (unlocks : added = true → flType = .unlck) :
    (scan.pass fl).layout flType newFl2 added =
      (scan.trim newFl2 fl).extent :: scan.layout flType newFl2 added := by
  rw [LockScan.layout, LockScan.layout, claimed_eq_nil unlocks, claimed_eq_nil unlocks]
  rfl

theorem layout_unlck (claim : Bool) (same : (added || flType = .unlck) = (claim || flType = .unlck)) :
    scan.layout flType newFl2 added = scan.layout flType newFl2 claim := by
  by_cases unlocks : flType = .unlck
  · rw [LockScan.layout, LockScan.layout, claimed_eq_nil fun _ => unlocks,
      claimed_eq_nil fun _ => unlocks]
  · simp only [unlocks, decide_false, Bool.or_false] at same
    rw [same]

theorem layout_stop (outside : ∀ fl ∈ list, left ≠ some fl.id) :
    (LockScan.stop flStart flEnd added left none list).layout flType newFl2 added =
      stroke flType.tag flStart flEnd ++ list.map FileLock.extent := by
  rw [LockScan.layout, settled_stop outside]
  exact claimed_append _

theorem layout_right (outside : ∀ other ∈ fl :: list, left ≠ some other.id)
    (apart : ∀ other ∈ list, other.id ≠ fl.id) :
    (LockScan.stop flStart flEnd (added || flType = .unlck) left (some fl.id)
        (fl :: list)).layout flType newFl2 added =
      stroke flType.tag flStart flEnd ++
        ⟨fl.flType, loff (flEnd + 1), fl.flEnd⟩ :: list.map FileLock.extent := by
  rw [LockScan.layout, settled_right outside apart]
  exact claimed_append_unlck _

theorem layout_split (fresh : ∀ other ∈ fl :: list, id ≠ other.id)
    (apart : ∀ other ∈ list, other.id ≠ fl.id) (unlocks : added = true → flType = .unlck) :
    (LockScan.stop flStart flEnd (added || flType = .unlck) (some fl.id) (some fl.id)
        (fl :: list)).layout flType (some id) added =
      ⟨fl.flType, fl.flStart, loff (flStart - 1)⟩ :: (stroke flType.tag flStart flEnd ++
        ⟨fl.flType, loff (flEnd + 1), fl.flEnd⟩ :: list.map FileLock.extent) := by
  rw [LockScan.layout, settled_split fresh apart, claimed_eq_nil unlocks, nil_append,
    ← claimed_append_unlck, claimed_eq_nil unlocks, nil_append]

theorem Pass.trim_eq (pass : Pass owner flType flStart flEnd added left list scan)
    (apart : ∀ other ∈ list, other.id ≠ fl.id) (outside : left ≠ some fl.id)
    (fresh : newFl2 ≠ some fl.id) : scan.trim newFl2 fl = fl := by
  obtain ⟨notRight, notLeft⟩ := pass.ne_of_apart apart
  refine trim_of_ne notRight ?_
  unfold LockScan.newLeft
  split
  · exact fresh
  · exact notLeft outside

theorem Pass.layout_alias
    (pass : Pass owner flType flStart flEnd true left list scan) (fl : FileLock Owner)
    (apart : ∀ other ∈ list, other.id ≠ fl.id) (outside : left ≠ some fl.id)
    (fresh : newFl2 ≠ some fl.id) (same : flType = fl.flType) (locking : flType ≠ .unlck) :
    (scan.alias fl).layout flType newFl2 false = scan.layout flType newFl2 true := by
  have kept : scan.trim newFl2 { fl with flStart := scan.flStart, flEnd := scan.flEnd } =
      { fl with flStart := scan.flStart, flEnd := scan.flEnd } := pass.trim_eq apart outside fresh
  have tagged : flType.tag = some fl.flType := (tag_eq_some_iff (same ▸ locking)).mpr same
  rw [LockScan.layout, LockScan.layout, settled_alias, kept]
  simp [claimed, stroke, tagged, FileLock.extent]

theorem Takes.extent (takes : Takes flType flStart flEnd fl) (range : InFile flStart flEnd)
    (valid : Valid fl) : (flStart ≤ fl.flStart ∧ fl.flEnd ≤ flEnd) ∨
      (flType.tag = some fl.flType ∧ flStart ≤ fl.flEnd + 1 ∧ fl.flStart ≤ flEnd + 1) := by
  rw [Takes, range.pred, valid.range.pred] at takes
  rw [tag_eq_some_iff valid.typed]
  exact takes.imp_right fun ⟨same, reaches, starts⟩ => ⟨same, by omega, by omega⟩

/-- **The pass lays the request over the locks of the owner.** -/
theorem Pass.overlaid (pass : Pass owner flType flStart flEnd added left list scan)
    (locks : OwnLocks owner list) (range : InFile flStart flEnd)
    (beyond : (added = true → flType = .unlck) ∨ ∀ fl ∈ list, flStart < fl.flStart)
    (spare : ∀ fl ∈ list, left ≠ some fl.id ∧ newFl2 ≠ some fl.id)
    (room : scan.right.isSome → scan.left = scan.right → newFl2.isSome) :
    Overlaid (list.map FileLock.extent) (scan.layout flType newFl2 added) flStart flEnd
      flType.tag := by
  induction pass with
  | @stop flStart flEnd added left list starts =>
    rw [layout_stop fun fl member => (spare fl member).1]
    refine Overlaid.stop locks.laid range.ordered fun other point marked => ?_
    cases list with
    | nil => exact absurd marked not_marks_nil
    | cons fl tail =>
      have valid := locks.head
      have ordered := valid.range.ordered
      have starts := starts fl rfl (locks.own fl mem_cons_self)
      rw [valid.range.pred] at starts
      rcases marks_cons.mp marked with ⟨rfl, lower, -⟩ | marked
      · have start : fl.flStart ≤ point := lower
        refine ⟨by split at starts <;> omega, fun same => ?_⟩
        rw [if_pos ((tag_eq_some_iff valid.typed).mp same)] at starts
        omega
      · have past : fl.flEnd < point := (locks.laid.after_head marked).1
        exact ⟨by split at starts <;> omega, fun _ => by split at starts <;> omega⟩
  | @right flStart flEnd added left fl tail differs starts ends =>
    have valid := locks.head
    have other : flType.tag ≠ some fl.flType := fun same =>
      differs ((tag_eq_some_iff valid.typed).mp same)
    have upper : loff (flEnd + 1) = flEnd + 1 := by
      have := range.lower
      have := range.ordered
      have := valid.range.upper
      exact loff_eq (by omega) (by omega)
    by_cases inside : fl.flStart < flStart
    · have unlocks := beyond.resolve_right fun past => by
        have := past fl mem_cons_self
        omega
      obtain ⟨id, rfl⟩ := isSome_iff_exists.mp (room rfl (if_pos inside))
      have unused : ∀ other ∈ fl :: tail, id ≠ other.id := fun other member same =>
        (spare other member).2 (congrArg some same)
      rw [if_pos inside, layout_split unused locks.apart unlocks, upper, range.pred]
      exact Overlaid.split locks.laid range.ordered other inside ends
    · rw [if_neg inside, layout_right (fun fl member => (spare fl member).1) locks.apart, upper]
      exact Overlaid.straddle locks.laid range.ordered other (not_lt.mp inside) starts ends
  | @before flStart flEnd added left fl tail scan ends rest ih =>
    have valid := locks.head
    have ordered := valid.range.ordered
    rw [range.pred] at ends
    have earlier : fl.flEnd < flStart := by
      split at ends <;> omega
    have unlocks := beyond.resolve_right fun past => by
      have := past fl mem_cons_self
      omega
    have kept : scan.trim newFl2 fl = fl :=
      rest.trim_eq locks.apart (spare fl mem_cons_self).1 (spare fl mem_cons_self).2
    have atop := ih locks.tail range (.inl unlocks) (forall_mem_cons.mp spare).2 room
    rw [layout_pass unlocks, kept]
    refine atop.pass locks.laid earlier fun same => ?_
    rw [if_pos ((tag_eq_some_iff valid.typed).mp same)] at ends
    exact (by omega : fl.flEnd + 1 < flStart)
  | @left flStart flEnd added left fl tail scan differs reaches starts ends rest ih =>
    have valid := locks.head
    have unlocks := beyond.resolve_right fun past => by
      have := past fl mem_cons_self
      omega
    have later : ∀ other ∈ tail, flStart < other.flStart := fun other member => by
      have := locks.later other member
      omega
    obtain ⟨sameStart, sameLeft⟩ := rest.left_kept fun other member => (later other member).le
    have notRight : scan.right ≠ some fl.id := (rest.ne_of_apart locks.apart).1
    have newLeft : scan.newLeft newFl2 = some fl.id := by
      rw [LockScan.newLeft, sameLeft, if_neg fun both => notRight both.2.symm]
    have atop := ih locks.tail range (.inr later) (fun other member =>
      ⟨fun same => locks.apart other member (some.inj same).symm,
        (spare other (mem_cons_of_mem _ member)).2⟩) room
    rw [layout_unlck added (by simp)] at atop
    rw [layout_pass unlocks, trim_left notRight newLeft, sameStart, range.pred]
    exact Overlaid.trim locks.laid range.ordered
      (fun same => differs ((tag_eq_some_iff valid.typed).mp same)) starts reaches
      (atop.cover le_rfl ends)
  | @delete flStart flEnd added left fl tail scan takes dropped rest ih =>
    have valid := locks.head
    have ordered := valid.range.ordered
    have atop := ih locks.tail (range.merge valid.range)
      (.inr fun other member => by have := locks.later other member; omega)
      (forall_mem_cons.mp spare).2 room
    rw [layout_wake, layout_unlck true (by rw [dropped]; rfl)]
    exact atop.take locks.laid (takes.extent range valid)
  | @claim flStart flEnd left fl tail scan block woken takes locking _ rest ih =>
    have valid := locks.head
    have ordered := valid.range.ordered
    have atop := ih locks.tail (range.merge valid.range)
      (.inr fun other member => by have := locks.later other member; omega)
      (forall_mem_cons.mp spare).2 room
    obtain ⟨outside, fresh⟩ := spare fl mem_cons_self
    rw [layout_wake, rest.layout_alias { fl with flType := flType, flBlock := block } locks.apart
      outside fresh rfl fun unlocks => valid.typed (locking unlocks)]
    exact atop.take locks.laid (takes.extent range valid)

end KernelImx.Locks
