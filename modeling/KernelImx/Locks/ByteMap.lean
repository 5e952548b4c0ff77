/-
**Record locks as a byte map.**

`lockMap list owner byte` is the type of lock the owner holds on a byte. A request that is granted
changes it exactly on its own range, and leaves the list well formed.

Main result: `posix_lock_byte_map`.
-/

import Mathlib.Data.List.Nodup
import Mathlib.Data.List.TakeWhile
import KernelImx.Locks.Own

namespace KernelImx.Locks

open List KernelImx.Lib

variable {Owner : Type} {flType : LockType} {list locks tail front own new back : List (FileLock Owner)}
  {scan : LockScan Owner} {owner : Owner} {fl : FileLock Owner} {added : Bool}
  {left newFl newFl2 : Option Nat} {flStart flEnd : Int} {request : LockRequest Owner}

/-! ### Where the locks come from -/

/-- The second lock is the first one after some change: nobody waits for it any more, or it has
grown. -/
structure Grown (before after : FileLock Owner) : Prop where
  id : after.id = before.id
  kind : after.kind = before.kind
  owner : after.flOwner = before.flOwner
  block : after.flBlock = [] ∨ (after.flBlock = before.flBlock ∧ after.flType = before.flType ∧
    after.flStart ≤ before.flStart ∧ before.flEnd ≤ after.flEnd)

theorem Grown.refl (fl : FileLock Owner) : Grown fl fl :=
  ⟨rfl, rfl, rfl, .inr ⟨rfl, rfl, le_rfl, le_rfl⟩⟩

theorem Grown.trim {before after : FileLock Owner} (grown : Grown before after)
    (scan : LockScan Owner) (newFl2 : Option Nat) : Grown before (scan.trim newFl2 after) := by
  unfold LockScan.trim trimLeft trimRight
  split
  · split <;> exact ⟨grown.id, grown.kind, grown.owner, .inl rfl⟩
  · split
    · exact ⟨grown.id, grown.kind, grown.owner, .inl rfl⟩
    · exact grown

theorem grown_of_tail (grown : ∀ after ∈ locks, ∃ before ∈ tail, Grown before after) :
    ∀ after ∈ locks, ∃ before ∈ fl :: tail, Grown before after := fun after member => by
  obtain ⟨before, inside, same⟩ := grown after member
  exact ⟨before, mem_cons_of_mem _ inside, same⟩

theorem grown_cons {new : FileLock Owner} (first : Grown fl new)
    (grown : ∀ after ∈ locks, ∃ before ∈ tail, Grown before after) :
    ∀ after ∈ new :: locks, ∃ before ∈ fl :: tail, Grown before after :=
  forall_mem_cons.mpr ⟨⟨fl, mem_cons_self, first⟩, grown_of_tail grown⟩

section Sources

variable (pass : Pass owner flType flStart flEnd added left list scan)

include pass

theorem Pass.grows : scan.flStart ≤ flStart ∧ flEnd ≤ scan.flEnd := by
  induction pass with
  | stop | right => exact ⟨le_rfl, le_rfl⟩
  | before _ _ ih | left _ _ _ _ _ ih => exact ih
  | delete _ _ _ ih | claim _ _ _ _ _ _ ih =>
    exact ⟨ih.1.trans (min_le_left _ _), (le_max_left _ _).trans ih.2⟩

theorem Pass.ids_sublist :
    ((scan.done ++ scan.rest).map FileLock.id).Sublist (list.map FileLock.id) := by
  induction pass with
  | stop | right => exact Sublist.refl _
  | before _ _ ih | left _ _ _ _ _ ih | claim _ _ _ _ _ _ ih => exact ih.cons_cons _
  | delete _ _ _ ih => exact ih.cons _

/-- **Every lock after the pass is an old one**, without waiters or grown. -/
theorem Pass.grown : ∀ after ∈ scan.done ++ scan.rest, ∃ before ∈ list, Grown before after := by
  induction pass with
  | stop | right => exact fun after member => ⟨after, member, Grown.refl after⟩
  | before _ _ ih | left _ _ _ _ _ ih => exact grown_cons (Grown.refl _) ih
  | delete _ _ _ ih => exact grown_of_tail ih
  | claim _ _ _ _ waits rest ih =>
    refine grown_cons ⟨rfl, rfl, rfl, waits.symm.imp And.right fun same => ⟨same.1, same.2, ?_, ?_⟩⟩ ih
    · exact rest.grows.1.trans (min_le_right _ _)
    · exact (le_max_right _ _).trans rest.grows.2

theorem Pass.stays_added (set : added = true) : scan.added = true := by
  induction pass with
  | stop => exact set
  | right => exact Bool.or_eq_true_iff.mpr (.inl set)
  | before _ _ ih => exact ih set
  | left _ _ _ _ _ ih => exact ih (Bool.or_eq_true_iff.mpr (.inl set))
  | delete _ _ _ ih | claim _ _ _ _ _ _ ih => exact ih rfl

theorem Pass.idle (unlocks : flType = .unlck) (nothing : scan.added = false) :
    scan.left = left ∧ scan.right = none ∧ scan.done ++ scan.rest = list := by
  have never : ∀ {set : Bool}, set = true → set = false → False := by simp
  induction pass with
  | stop => exact ⟨rfl, rfl, rfl⟩
  | right => exact (never (Bool.or_eq_true_iff.mpr (.inr (decide_eq_true unlocks))) nothing).elim
  | before _ _ ih => exact (ih nothing).imp_right fun same => same.imp_right (congrArg _)
  | left _ _ _ _ rest =>
    have set := rest.stays_added (Bool.or_eq_true_iff.mpr (.inr (decide_eq_true unlocks)))
    exact (never set nothing).elim
  | delete _ _ rest | claim _ _ _ _ _ rest => exact (never (rest.stays_added rfl) nothing).elim

end Sources

/-! ### The locks behind those of the owner -/

section Append

variable [DecidableEq Owner]

def LockScan.extend (scan : LockScan Owner) (back : List (FileLock Owner)) : LockScan Owner :=
  { scan with rest := scan.rest ++ back }

theorem ownLocks_append (foreign : ∀ fl ∈ back, fl.flOwner ≠ owner) (list : List (FileLock Owner))
    (flStart flEnd : Int) (added : Bool) (left : Option Nat) :
    ownLocks owner flType flStart flEnd added left (list ++ back) =
      (ownLocks owner flType flStart flEnd added left list).extend back := by
  induction list generalizing flStart flEnd added left with
  | nil =>
    cases back with
    | nil => rfl
    | cons fl back =>
      rw [nil_append]
      unfold ownLocks
      rw [if_pos (foreign fl mem_cons_self)]
      rfl
  | cons fl tail ih =>
    rw [cons_append, ownLocks, ownLocks]
    simp only [ih]
    repeat' split
    all_goals rfl

end Append

/-! ### The end of a request -/

/-- The addresses of the new locks are not in use. -/
structure NewIds (list : List (FileLock Owner)) (newFl newFl2 : Option Nat) : Prop where
  first : ∀ fl ∈ list, newFl ≠ some fl.id
  second : ∀ fl ∈ list, newFl2 ≠ some fl.id
  differ : ∀ id, newFl = some id → newFl2 ≠ some id

/-- **The end of a request**: the list is as the pass left it, or the request is granted. -/
theorem finishLock_cases (request : LockRequest Owner) (newFl newFl2 : Option Nat)
    (front : List (FileLock Owner)) (scan : LockScan Owner) :
    (∃ result, finishLock request newFl newFl2 front scan =
        (front ++ (scan.done ++ scan.rest), result, scan.woken) ∧
      (scan.added = false ∨ scan.right.isSome ∧ scan.left = scan.right) ∧
      (result = .granted → scan.added = false ∧ request.flType = .unlck)) ∨
    ((scan.right.isSome → scan.left = scan.right → newFl2.isSome) ∧
      (scan.added = false → newFl.isSome ∧ request.flType ≠ .unlck) ∧
      finishLock request newFl newFl2 front scan =
        ((front ++ scan.locks request newFl newFl2).map (scan.trim newFl2), .granted,
          scan.woken ++ waitersOf (front ++ scan.locks request newFl newFl2) scan.right ++
            waitersOf (front ++ scan.locks request newFl newFl2) (scan.newLeft newFl2))) := by
  unfold finishLock
  split
  next broken => exact .inl ⟨_, rfl, .inr ⟨broken.1, broken.2.1⟩, nofun⟩
  next room =>
    split
    next unlocks => exact .inl ⟨_, rfl, .inl unlocks.1, fun _ => unlocks⟩
    next locking =>
      split
      next none => exact .inl ⟨_, rfl, .inl none.1, nofun⟩
      next found =>
        simp only [not_and, ← ne_eq, Option.ne_none_iff_isSome] at room found
        exact .inr ⟨room, fun fresh => ⟨found fresh, fun unlocks => locking ⟨fresh, unlocks⟩⟩, rfl⟩

section

variable (pass : Pass owner flType flStart flEnd added left list scan)

include pass

theorem Pass.right_rest (found : scan.right.isSome) : ∃ right tail, scan.rest = right :: tail := by
  induction pass with
  | stop => cases found
  | right => exact ⟨_, _, rfl⟩
  | before _ _ ih | left _ _ _ _ _ ih | delete _ _ _ ih | claim _ _ _ _ _ _ ih => exact ih found

theorem Pass.locks_extend :
    (scan.extend back).locks request newFl newFl2 = scan.locks request newFl newFl2 ++ back := by
  have broken : (scan.extend back).broken newFl2 = scan.broken newFl2 := by
    by_cases split : scan.right.isSome ∧ scan.left = scan.right
    · obtain ⟨right, tail, rest⟩ := pass.right_rest split.1
      refine (if_pos split).trans (Eq.trans ?_ (if_pos split).symm)
      simp only [LockScan.extend, rest]
      cases newFl2 <;> rfl
    · exact (if_neg split).trans (if_neg split).symm
  rw [LockScan.locks, LockScan.locks, broken]
  simp only [append_assoc]
  rfl

end

theorem Pass.layout_eq (pass : Pass owner request.flType flStart flEnd false none list scan)
    (new : NewIds list newFl newFl2)
    (found : scan.added = false → newFl.isSome ∧ request.flType ≠ .unlck) :
    (scan.locks request newFl newFl2).map (fun fl => (scan.trim newFl2 fl).extent) =
      scan.layout request.flType newFl2 false := by
  have inserted : (scan.inserted request newFl).map (fun fl => (scan.trim newFl2 fl).extent) =
      if scan.added then [] else stroke request.flType.tag scan.flStart scan.flEnd := by
    unfold LockScan.inserted
    split
    · rfl
    next fresh =>
      obtain ⟨some, locking⟩ := found (by simpa using fresh)
      obtain ⟨id, rfl⟩ := Option.isSome_iff_exists.mp some
      have apart : ∀ other ∈ list, other.id ≠ id := fun other member same =>
        new.first other member (congrArg Option.some same.symm)
      have kept := @Pass.trim_eq _ _ _ _ _ _
        ⟨id, .posix, request.flOwner, request.flType, scan.flStart, scan.flEnd, []⟩ _ _ _ newFl2 pass
        apart nofun (new.differ id rfl)
      simp only [Option.toList, map_cons, map_nil, kept]
      simp [stroke, LockType.tag, locking, FileLock.extent]
  rw [LockScan.layout, LockScan.settled, LockScan.locks]
  simp only [map_append, inserted, claimed, append_assoc]
  rfl

theorem Pass.locks_mem (pass : Pass owner flType flStart flEnd added left list scan)
    (held : ∀ fl ∈ list, fl.kind = .posix ∧ fl.flOwner = request.flOwner)
    (member : fl ∈ scan.locks request newFl newFl2) :
    (fl.kind = .posix ∧ fl.flOwner = request.flOwner) ∧
      (fl.flBlock = [] ∨ ∃ old ∈ list, Grown old fl) := by
  have old {fl} (here : fl ∈ scan.done ++ scan.rest) :
      (fl.kind = .posix ∧ fl.flOwner = request.flOwner) ∧ ∃ old ∈ list, Grown old fl := by
    obtain ⟨old, inside, grown⟩ := pass.grown fl here
    rw [grown.kind, grown.owner]
    exact ⟨held old inside, old, inside, grown⟩
  rw [LockScan.locks, mem_append, mem_append, mem_append] at member
  rcases member with passed | broken | inserted | rest
  · exact (old (mem_append_left _ passed)).imp_right .inr
  · unfold LockScan.broken at broken
    split at broken
    · split at broken
      next id right tail rest =>
        obtain rfl := mem_singleton.mp broken
        have here : right ∈ scan.done ++ scan.rest := mem_append_right _ (rest ▸ mem_cons_self)
        exact ⟨(old here).1, .inl rfl⟩
      · cases broken
    · cases broken
  · unfold LockScan.inserted at inserted
    split at inserted
    · cases inserted
    · obtain ⟨id, -, rfl⟩ := mem_map.mp inserted
      exact ⟨⟨rfl, rfl⟩, .inl rfl⟩
  · exact (old (mem_append_right _ rest)).imp_right .inr

theorem trim_id (fl : FileLock Owner) : (scan.trim newFl2 fl).id = fl.id := by
  unfold LockScan.trim trimLeft trimRight
  split <;> split <;> rfl

theorem Pass.layout_idle (pass : Pass owner flType flStart flEnd added none list scan)
    (unlocks : flType = .unlck) (nothing : scan.added = false) (newFl2 : Option Nat) :
    scan.layout flType newFl2 false = list.map FileLock.extent := by
  obtain ⟨noLeft, noRight, same⟩ := pass.idle unlocks nothing
  have noSplit : ¬ (scan.right.isSome ∧ scan.left = scan.right) := by simp [noRight]
  have whole : scan.broken newFl2 = [] := if_neg noSplit
  have newLeft : scan.newLeft newFl2 = none := (if_neg noSplit).trans noLeft
  have kept : ∀ fl, scan.trim newFl2 fl = fl := fun fl =>
    trim_of_ne (by rw [noRight]; exact nofun) (by rw [newLeft]; exact nofun)
  rw [LockScan.layout, LockScan.settled, whole, unlocks, stroke_unlck, ← same]
  simp [claimed, kept]

theorem broken_ids (scan : LockScan Owner) (newFl2 : Option Nat) :
    ((scan.broken newFl2).map FileLock.id).Sublist newFl2.toList := by
  unfold LockScan.broken
  split
  · cases newFl2 with
    | none => exact .refl _
    | some id => cases scan.rest <;> simp
  · exact nil_sublist _

theorem inserted_ids (scan : LockScan Owner) (request : LockRequest Owner) (newFl : Option Nat) :
    ((scan.inserted request newFl).map FileLock.id).Sublist newFl.toList := by
  unfold LockScan.inserted
  split
  · exact nil_sublist _
  · cases newFl <;> simp

theorem NewIds.nodup (new : NewIds list newFl newFl2) (ids : (list.map FileLock.id).Nodup) :
    (newFl2.toList ++ (newFl.toList ++ list.map FileLock.id)).Nodup := by
  have one (id : Option Nat) : id.toList.Nodup := by
    cases id <;> simp
  have unused {id : Option Nat} (fresh : ∀ fl ∈ list, id ≠ some fl.id) :
      id.toList.Disjoint (list.map FileLock.id) := by
    intro given is member
    obtain ⟨fl, inside, rfl⟩ := mem_map.mp member
    exact fresh fl inside (Option.mem_toList.mp is)
  refine (one _).append ((one _).append ids (unused new.first))
    (disjoint_append_right.mpr ⟨fun id is given => ?_, unused new.second⟩)
  exact new.differ id (Option.mem_toList.mp given) (Option.mem_toList.mp is)

theorem Pass.ids_nodup (pass : Pass owner flType flStart flEnd added left own scan)
    (new : NewIds (front ++ (own ++ back)) newFl newFl2)
    (ids : ((front ++ (own ++ back)).map FileLock.id).Nodup) :
    ((front ++ ((scan.locks request newFl newFl2).map (scan.trim newFl2) ++ back)).map
      FileLock.id).Nodup := by
  have same : ((scan.locks request newFl newFl2).map (scan.trim newFl2)).map FileLock.id =
      (scan.locks request newFl newFl2).map FileLock.id := by
    rw [map_map]
    exact map_congr_left fun fl _ => trim_id fl
  refine nodup_iff_count_le_one.mpr fun id => ?_
  have all := nodup_iff_count_le_one.mp (new.nodup ids) id
  have old := pass.ids_sublist.count_le id
  have broken := (broken_ids scan newFl2).count_le id
  have inserted := (inserted_ids scan request newFl).count_le id
  rw [map_append, map_append, same, LockScan.locks]
  simp only [map_append, count_append] at all old ⊢
  omega

/-! ### Well-formed lists -/

variable [DecidableEq Owner]

def heldBy (owner : Owner) (fl : FileLock Owner) : Bool := fl.kind = .posix && fl.flOwner = owner

theorem skipped_eq (owner : Owner) (fl : FileLock Owner) : skipped owner fl = !heldBy owner fl := by
  simp [skipped, heldBy, Bool.not_and]

theorem heldBy_iff : heldBy owner fl = true ↔ fl.kind = .posix ∧ fl.flOwner = owner := by
  simp [heldBy]

/-- The extents of the locks of the owner, in the order of the list. -/
def extentsOf (list : List (FileLock Owner)) (owner : Owner) : List (Extent LockType) :=
  (list.filter (heldBy owner)).map FileLock.extent

/-- **The type of lock the owner holds on a byte.** -/
def lockMap (list : List (FileLock Owner)) (owner : Owner) (byte : Int) : LockType :=
  (tagAt (extentsOf list owner) byte).getD .unlck

/-- **The list of an inode**: POSIX locks come last, one owner's together, sorted and disjoint, and
two of one type do not touch. -/
structure WellFormed (list : List (FileLock Owner)) : Prop where
  ids : (list.map FileLock.id).Nodup
  posixLast : list.Pairwise fun first second => first.kind = .posix → second.kind = .posix
  contiguous : ∀ owner, Contiguous (fun fl => heldBy owner fl = true) list
  valid : ∀ fl ∈ list, fl.kind = .posix → Valid fl
  laid : ∀ owner, Laid (extentsOf list owner)

theorem filter_none (foreign : ∀ fl ∈ front, ¬ heldBy owner fl = true) :
    front.filter (heldBy owner) = [] :=
  filter_eq_nil_iff.mpr foreign

theorem extentsOf_own (before : ∀ fl ∈ front, ¬ heldBy owner fl = true)
    (members : ∀ fl ∈ own, heldBy owner fl = true) (after : ∀ fl ∈ back, ¬ heldBy owner fl = true) :
    extentsOf (front ++ (own ++ back)) owner = own.map FileLock.extent := by
  rw [extentsOf, filter_append, filter_append, filter_none before, filter_none after,
    filter_eq_self.mpr members, nil_append, append_nil]

theorem extentsOf_other (old : ∀ fl ∈ locks, ¬ heldBy owner fl = true)
    (others : ∀ fl ∈ new, ¬ heldBy owner fl = true) :
    extentsOf (front ++ (new ++ back)) owner = extentsOf (front ++ (locks ++ back)) owner := by
  simp only [extentsOf, filter_append, filter_none old, filter_none others]

/-- The locks of an owner stand in the middle of the list. -/
structure Grouped (owner : Owner) (front own back : List (FileLock Owner)) : Prop where
  before : ∀ fl ∈ front, ¬ heldBy owner fl = true
  members : ∀ fl ∈ own, heldBy owner fl = true
  after : ∀ fl ∈ back, ¬ heldBy owner fl = true
  between : own = [] → back = []

theorem WellFormed.parts (wf : WellFormed list) (owner : Owner) :
    ∃ front own back, list = front ++ (own ++ back) ∧
      list.takeWhile (skipped owner) = front ∧ list.dropWhile (skipped owner) = own ++ back ∧
      Grouped owner front own back ∧ ∀ fl ∈ back, fl.flOwner ≠ owner := by
  obtain ⟨front, own, back, rfl, before, members, after⟩ := wf.contiguous owner
  have skip : ∀ fl ∈ front, skipped owner fl = true := fun fl member => by
    simpa [skipped_eq] using before fl member
  cases own with
  | nil =>
    have skipBack : ∀ fl ∈ back, skipped owner fl = true := fun fl member => by
      simpa [skipped_eq] using after fl member
    refine ⟨front ++ back, [], [], by simp, ?_, ?_, ⟨?_, by simp, by simp, by simp⟩, by simp⟩
    · rw [append_nil, takeWhile_eq_self_iff]
      exact forall_mem_append.mpr ⟨skip, skipBack⟩
    · rw [append_nil, append_nil, dropWhile_eq_nil_iff]
      exact forall_mem_append.mpr ⟨skip, skipBack⟩
    · exact forall_mem_append.mpr ⟨before, after⟩
  | cons first own =>
    have stop : skipped owner first = false := by
      simpa [skipped_eq] using members first mem_cons_self
    have posix : first.kind = .posix := (heldBy_iff.mp (members first mem_cons_self)).1
    have last := wf.posixLast
    rw [append_assoc, pairwise_append, cons_append, pairwise_cons] at last
    refine ⟨front, first :: own, back, by rw [append_assoc], ?_, ?_,
      ⟨before, members, after, by simp⟩, fun fl member same => ?_⟩
    · rw [append_assoc, takeWhile_append_of_pos skip, cons_append,
        takeWhile_cons_of_neg (by simp [stop]), append_nil]
    · rw [append_assoc, dropWhile_append_of_pos skip, cons_append,
        dropWhile_cons_of_neg (by simp [stop])]
    · refine after fl member (heldBy_iff.mpr ⟨?_, same⟩)
      exact last.2.1.1 fl (mem_append_right _ member) posix

/-- **The pass over the locks of the owner**, with the other locks around them. -/
theorem WellFormed.pass (wf : WellFormed list) (request : LockRequest Owner) :
    ∃ front own back scan, list = front ++ (own ++ back) ∧
      Grouped request.flOwner front own back ∧ OwnLocks request.flOwner own ∧
      Pass request.flOwner request.flType request.flStart request.flEnd false none own scan ∧
      ∀ newFl newFl2, setLock request newFl newFl2 list =
        finishLock request newFl newFl2 front (scan.extend back) := by
  obtain ⟨front, own, back, parts, first, second, grouped, foreign⟩ := wf.parts request.flOwner
  refine ⟨front, own, back, _, parts, grouped, ?_,
    ownLocks_pass request.flOwner request.flType request.flStart request.flEnd false none own,
    fun newFl newFl2 => ?_⟩
  · subst parts
    refine ⟨fun fl member => (heldBy_iff.mp (grouped.members fl member)).2, fun fl member => ?_, ?_, ?_⟩
    · exact wf.valid fl (mem_append_right _ (mem_append_left _ member))
        (heldBy_iff.mp (grouped.members fl member)).1
    · have laid := wf.laid request.flOwner
      rwa [extentsOf_own grouped.before grouped.members grouped.after] at laid
    · refine wf.ids.sublist (Sublist.map _ ?_)
      exact (sublist_append_left own back).trans (sublist_append_right front _)
  · rw [setLock, first, second, ownLocks_append foreign]

/-! ### The list after a granted request -/

/-- The locks of the owner are replaced, and the new ones lay the request over the old ones. -/
structure Regroups (request : LockRequest Owner) (front own new back : List (FileLock Owner)) : Prop
    extends Grouped request.flOwner front own back where
  news : ∀ fl ∈ new, heldBy request.flOwner fl = true
  atop : Overlaid (own.map FileLock.extent) (new.map FileLock.extent) request.flStart request.flEnd
    request.flType.tag
  ids : ((front ++ (new ++ back)).map FileLock.id).Nodup
  grown : ∀ fl ∈ new, fl.flBlock = [] ∨ ∃ old ∈ own, Grown old fl

/-- **A granted request replaces the locks of its owner**, and leaves the others as they are. -/
theorem setLock_granted (wf : WellFormed list) (range : InFile request.flStart request.flEnd)
    (new : NewIds list newFl newFl2) (granted : (setLock request newFl newFl2 list).2.1 = .granted) :
    ∃ front own news back, list = front ++ (own ++ back) ∧
      (setLock request newFl newFl2 list).1 = front ++ (news ++ back) ∧
      Regroups request front own news back := by
  obtain ⟨front, own, back, scan, parts, grouped, locks, pass, call⟩ := wf.pass request
  rw [call] at granted ⊢
  subst parts
  have inOwn : ∀ fl ∈ own, fl ∈ front ++ (own ++ back) := fun fl member =>
    mem_append_right _ (mem_append_left _ member)
  have atop := pass.overlaid locks range (.inl nofun) fun fl member =>
    ⟨nofun, new.second fl (inOwn fl member)⟩
  rcases finishLock_cases request newFl newFl2 front (scan.extend back) with
    ⟨_, result, -, idle⟩ | ⟨room, found, result⟩
  · rw [result] at granted
    obtain ⟨nothing, unlocks⟩ := idle granted
    obtain ⟨-, noRight, same⟩ := pass.idle unlocks nothing
    refine ⟨front, own, own, back, rfl, ?_, grouped, grouped.members,
      pass.layout_idle unlocks nothing newFl2 ▸ atop (by simp [noRight]), wf.ids,
      fun fl member => .inr ⟨fl, member, Grown.refl fl⟩⟩
    rw [result, ← same]
    simp only [LockScan.extend, append_assoc]
  have apart : (own.map FileLock.id).Disjoint ((front ++ back).map FileLock.id) := by
    refine disjoint_of_nodup_append ?_
    rw [← map_append]
    exact ((perm_append_comm_assoc ..).map _).nodup_iff.mpr wf.ids
  have kept : ∀ fl ∈ front ++ back, scan.trim newFl2 fl = fl := fun fl member =>
    pass.trim_eq (fun other inside same => apart (mem_map_of_mem inside)
      (same ▸ mem_map_of_mem member)) nofun
      (new.second fl ((perm_append_comm_assoc ..).subset (mem_append_right _ member)))
  have newOwn : NewIds own newFl newFl2 :=
    ⟨fun fl member => new.first fl (inOwn fl member),
      fun fl member => new.second fl (inOwn fl member), new.differ⟩
  have posix : ∀ fl ∈ own, fl.kind = .posix ∧ fl.flOwner = request.flOwner := fun fl member =>
    heldBy_iff.mp (grouped.members fl member)
  refine ⟨front, own, (scan.locks request newFl newFl2).map (scan.trim newFl2), back, rfl, ?_,
    grouped, fun fl member => ?_, ?_, ?_, fun fl member => ?_⟩
  · rw [result, pass.locks_extend, map_append, map_append]
    change front.map (scan.trim newFl2) ++ (_ ++ back.map (scan.trim newFl2)) = _
    rw [map_congr_left (forall_mem_append.mp kept).1, map_congr_left (forall_mem_append.mp kept).2,
      map_id', map_id']
    rfl
  · obtain ⟨lock, inside, rfl⟩ := mem_map.mp member
    have same := (Grown.refl lock).trim scan newFl2
    have held := (pass.locks_mem posix inside).1
    exact heldBy_iff.mpr ⟨same.kind.trans held.1, same.owner.trans held.2⟩
  · rw [map_map]
    exact (pass.layout_eq newOwn found).symm ▸ atop room
  · exact pass.ids_nodup new wf.ids
  obtain ⟨lock, inside, rfl⟩ := mem_map.mp member
  have same := ((Grown.refl lock).trim scan newFl2).block
  rcases (pass.locks_mem posix inside).2 with none | ⟨old, here, grown⟩
  · exact .inl (same.elim id fun kept => kept.1.trans none)
  · exact .inr ⟨old, here, grown.trim scan newFl2⟩

/-! ### The byte map -/

namespace Regroups

theorem not_other (differ : owner ≠ request.flOwner)
    (members : ∀ fl ∈ locks, heldBy request.flOwner fl = true) :
    ∀ fl ∈ locks, ¬ heldBy owner fl = true := fun fl member held =>
  differ ((heldBy_iff.mp held).2.symm.trans (heldBy_iff.mp (members fl member)).2)

variable (regroups : Regroups request front own new back)

include regroups

theorem lockMap_eq (wf : WellFormed (front ++ (own ++ back))) (owner : Owner) (byte : Int) :
    lockMap (front ++ (new ++ back)) owner byte =
      if owner = request.flOwner ∧ request.flStart ≤ byte ∧ byte ≤ request.flEnd then request.flType
      else lockMap (front ++ (own ++ back)) owner byte := by
  by_cases same : owner = request.flOwner
  · subst same
    have laid := wf.laid request.flOwner
    have old := extentsOf_own regroups.before regroups.members regroups.after
    have now := extentsOf_own regroups.before regroups.news regroups.after
    rw [old] at laid
    rw [lockMap, lockMap, old, now, regroups.atop.tagAt laid]
    simp only [true_and]
    split
    · unfold LockType.tag
      split
      next unlocks => exact unlocks.symm
      · rfl
    · rfl
  · rw [if_neg fun both => same both.1, lockMap, lockMap,
      extentsOf_other (not_other same regroups.members) (not_other same regroups.news)]

theorem marked (range : InFile request.flStart request.flEnd) (valid : ∀ fl ∈ own, Valid fl)
    {byte : Int} (marks : Marks (new.map FileLock.extent) flType byte) :
    0 ≤ byte ∧ byte ≤ offsetMax ∧ flType ≠ .unlck := by
  have := range.lower
  have := range.upper
  rw [regroups.atop.marks] at marks
  split at marks
  · refine ⟨by omega, by omega, fun unlocks => ?_⟩
    subst unlocks
    unfold LockType.tag at marks
    split at marks
    · cases marks
    next locks => exact locks (Option.some.inj marks)
  obtain ⟨extent, member, rfl, lower, upper⟩ := marks
  obtain ⟨fl, inside, rfl⟩ := mem_map.mp member
  have old := (valid fl inside).range
  have start : fl.flStart ≤ byte := lower
  have finish : byte ≤ fl.flEnd := upper
  have := old.lower
  have := old.upper
  exact ⟨by omega, by omega, (valid fl inside).typed⟩

theorem posixLast (wf : WellFormed (front ++ (own ++ back))) :
    (front ++ (new ++ back)).Pairwise fun first second =>
      first.kind = .posix → second.kind = .posix := by
  have last := wf.posixLast
  rw [pairwise_append, pairwise_append] at last
  obtain ⟨inFront, ⟨-, inBack, ownBack⟩, across⟩ := last
  have newPosix : ∀ fl ∈ new, fl.kind = .posix := fun fl member =>
    (heldBy_iff.mp (regroups.news fl member)).1
  have backPosix : ∀ fl ∈ back, fl.kind = .posix := fun fl member => by
    cases own with
    | nil =>
      rw [regroups.between rfl] at member
      cases member
    | cons first rest =>
      exact ownBack first mem_cons_self fl member
        (heldBy_iff.mp (regroups.members first mem_cons_self)).1
  refine pairwise_append.mpr ⟨inFront, pairwise_append.mpr ⟨?_, inBack, ?_⟩, ?_⟩
  · exact pairwise_of_forall_mem_list fun first _ second member _ => newPosix second member
  · exact fun first _ second member _ => backPosix second member
  · intro first _ second member _
    rcases mem_append.mp member with member | member
    · exact newPosix second member
    · exact backPosix second member

theorem wellFormed (wf : WellFormed (front ++ (own ++ back)))
    (range : InFile request.flStart request.flEnd) :
    WellFormed (front ++ (new ++ back)) := by
  have oldValid : ∀ fl ∈ own, Valid fl := fun fl member =>
    wf.valid fl (mem_append_right _ (mem_append_left _ member))
      (heldBy_iff.mp (regroups.members fl member)).1
  refine ⟨regroups.ids, regroups.posixLast wf, fun owner => ?_, fun fl member posix => ?_,
    fun owner => ?_⟩
  · by_cases same : owner = request.flOwner
    · subst same
      exact ⟨front, new, back, by rw [append_assoc], regroups.before, regroups.news,
        regroups.after⟩
    · exact (wf.contiguous owner).replace (not_other same regroups.members)
        (not_other same regroups.news) regroups.between
  · rcases mem_append.mp member with inFront | member
    · exact wf.valid fl (mem_append_left _ inFront) posix
    rcases mem_append.mp member with inNew | inBack
    · have inside : fl.extent ∈ new.map FileLock.extent := mem_map_of_mem inNew
      have ordered : fl.flStart ≤ fl.flEnd := regroups.atop.laid.nonempty fl.extent inside
      have first := regroups.marked range oldValid ⟨fl.extent, inside, rfl, le_rfl, ordered⟩
      have last := regroups.marked range oldValid ⟨fl.extent, inside, rfl, ordered, le_rfl⟩
      exact ⟨⟨first.1, ordered, last.2.1⟩, first.2.2⟩
    · exact wf.valid fl (mem_append_right _ (mem_append_right _ inBack)) posix
  · by_cases same : owner = request.flOwner
    · subst same
      rw [extentsOf_own regroups.before regroups.news regroups.after]
      exact regroups.atop.laid
    · rw [extentsOf_other (not_other same regroups.members) (not_other same regroups.news)]
      exact wf.laid owner

end Regroups

omit [DecidableEq Owner] in
theorem lt_freshId (member : fl ∈ list) : fl.id < freshId list := by
  induction list with
  | nil => cases member
  | cons first rest ih =>
    rcases mem_cons.mp member with rfl | member
    · exact lt_of_lt_of_le (Nat.lt_succ_self _) (le_max_left _ _)
    · exact lt_of_lt_of_le (ih member) (le_max_right _ _)

omit [DecidableEq Owner] in
theorem newIds_freshId (list : List (FileLock Owner)) (first second : Bool) :
    NewIds list (if first then some (freshId list) else none)
      (if second then some (freshId list + 1) else none) where
  first := fun fl member => by
    have := lt_freshId member
    split <;> simp
    omega
  second := fun fl member => by
    have := lt_freshId member
    split <;> simp
    omega
  differ := fun id found => by
    split at found
    · cases found
      split <;> simp
    · cases found

theorem posixLockFile_granted {state : LockState Owner} {inode : Nat} {alloc alloc2 : Bool}
    (locking : request.access = false)
    (granted : (posixLockFile state inode request alloc alloc2).2.1 = .granted) :
    ∃ newFl newFl2, NewIds (state.flock inode) newFl newFl2 ∧
      (setLock request newFl newFl2 (state.flock inode)).2.1 = .granted ∧
      (posixLockFile state inode request alloc alloc2).1.flock inode =
        (setLock request newFl newFl2 (state.flock inode)).1 := by
  unfold posixLockFile at granted ⊢
  split at granted
  · split at granted
    · cases granted
    · split at granted <;> cases granted
  · simp only [locking, Bool.false_eq_true, if_false] at granted ⊢
    exact ⟨_, _, newIds_freshId _ _ _, granted, by simp [LockState.setFlock]⟩

/-- **A granted request sets exactly its range in the byte map**, and the list stays well formed. -/
theorem posix_lock_byte_map (state : LockState Owner) (inode : Nat) (request : LockRequest Owner)
    (alloc alloc2 : Bool) (wf : WellFormed (state.flock inode))
    (range : InFile request.flStart request.flEnd) (locking : request.access = false)
    (granted : (posixLockFile state inode request alloc alloc2).2.1 = .granted) :
    WellFormed ((posixLockFile state inode request alloc alloc2).1.flock inode) ∧
      ∀ owner byte, lockMap ((posixLockFile state inode request alloc alloc2).1.flock inode) owner
          byte =
        if owner = request.flOwner ∧ request.flStart ≤ byte ∧ byte ≤ request.flEnd then
          request.flType
        else lockMap (state.flock inode) owner byte := by
  obtain ⟨newFl, newFl2, new, done, result⟩ := posixLockFile_granted locking granted
  obtain ⟨front, own, news, back, parts, after, regroups⟩ := setLock_granted wf range new done
  rw [result, after, parts]
  rw [parts] at wf
  exact ⟨regroups.wellFormed wf range, regroups.lockMap_eq wf⟩

theorem wellFormed_singleton (valid : Valid fl) : WellFormed [fl] where
  ids := pairwise_singleton _ _
  posixLast := pairwise_singleton _ _
  contiguous := fun owner => by
    by_cases held : heldBy owner fl = true
    · exact ⟨[], [fl], [], rfl, by simp, by simpa using held, by simp⟩
    · exact ⟨[fl], [], [], rfl, by simpa using held, by simp, by simp⟩
  valid := fun other member _ => mem_singleton.mp member ▸ valid
  laid := fun owner => by
    unfold extentsOf
    by_cases held : heldBy owner fl = true
    · rw [filter_cons_of_pos held]
      exact ⟨by simpa [FileLock.extent] using valid.range.ordered, pairwise_singleton _ _⟩
    · rw [filter_cons_of_neg held]
      exact Laid.nil

/-- One lock on the whole file, up to `OFFSET_MAX`. -/
def wholeFile : LockState Nat := ⟨fun _ => [⟨1, .posix, 7, .wrlck, 0, offsetMax, []⟩], []⟩

def unlockMiddle : LockRequest Nat := ⟨2, 7, .unlck, 10, 19, false, false, false⟩

theorem posix_lock_byte_map_split :
    (posixLockFile wholeFile 0 unlockMiddle true true).2.1 = .granted ∧
      WellFormed ((posixLockFile wholeFile 0 unlockMiddle true true).1.flock 0) ∧
      ∀ owner byte, lockMap ((posixLockFile wholeFile 0 unlockMiddle true true).1.flock 0) owner
          byte =
        if owner = 7 ∧ 10 ≤ byte ∧ byte ≤ 19 then .unlck
        else lockMap (wholeFile.flock 0) owner byte := by
  have granted : (posixLockFile wholeFile 0 unlockMiddle true true).2.1 = .granted := by
    decide +kernel
  exact ⟨granted, posix_lock_byte_map wholeFile 0 unlockMiddle true true
    (wellFormed_singleton ⟨⟨by decide, by decide, by decide⟩, nofun⟩)
    ⟨by decide, by decide, by decide⟩ rfl granted⟩

end KernelImx.Locks
