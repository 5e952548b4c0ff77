/-
**What a rejected fragment leaves behind.**

`ip_frag_queue` writes down what a fragment says about the end of the datagram, and drops the
fragments that it replaces, before all of its checks are made.

Main result: `rejected_unchanged_iff`.
-/

import KernelImx.Fragments.Queue

namespace KernelImx.Fragments

open List

/-- `ip_frag_queue` with its call of `ip_frag_reasm`: the queue and the error, if there is one. -/
def ipFragQueueAll (q : Ipq) (skb : Skb) (ch : Choices) : Ipq × Option Errno :=
  match ipFragQueue q skb ch with
  | (q, .refused err) => (q, some err)
  | (q, .inProgress) => (q, none)
  | (q, .reassembles prev) =>
    match ipFragReasm q prev ch with
    | (q, .error err) => (q, some err)
    | (q, .ok _) => (q, none)

/-- The end of the fragment, in whole units if more fragments follow. -/
def Skb.stop (skb : Skb) : Nat :=
  let stop := skb.offset + skb.bytes.length - skb.ihl
  if skb.moreFragments then stop - stop % 8 else stop

/-- The fragment contradicts what is known of the end. -/
def Contradicts (q : Ipq) (skb : Skb) : Prop :=
  if skb.moreFragments then q.lastIn = true ∧ q.len < skb.stop
  else skb.stop < q.len ∨ (q.lastIn = true ∧ skb.stop ≠ q.len)

/-- The fragment says nothing new about the end. -/
def Silent (q : Ipq) (skb : Skb) : Prop :=
  if skb.moreFragments then skb.stop ≤ q.len else q.lastIn = true ∧ skb.stop = q.len

/-- The fragment before leaves nothing, or there is no memory to cut what it has. -/
def Covered (prev : Option Fragment) (offset stop : Nat) (pullFront : Bool) : Prop :=
  ∃ p, prev = some p ∧ offset < p.stop ∧ (stop ≤ p.stop ∨ pullFront = false)

/-- The first fragment behind is to be cut, and there is no memory for it. -/
def Uncut (after : List Fragment) (stop : Nat) (pullNext : Bool) : Prop :=
  ∃ next, after.head? = some next ∧ next.offset < stop ∧ stop < next.stop ∧ pullNext = false

/-- The packet is refused before it replaces a fragment. -/
def Early (q : Ipq) (skb : Skb) (ch : Choices) : Prop :=
  skb.stop = skb.offset ∨ ch.pullHeader = false ∨ ch.trim ≠ none ∨
  Covered (q.fragments.takeWhile fun next => next.offset < skb.offset).getLast? skb.offset skb.stop
    ch.pullFront ∨
  Uncut (q.fragments.dropWhile fun next => next.offset < skb.offset) skb.stop ch.pullNext

variable {q : Ipq} {skb : Skb} {ch : Choices} {err : Errno}

/-! ### The parts -/

theorem placeFragment_told : placeFragment q skb = none ∧ Contradicts q skb ∨
    ¬ Contradicts q skb ∧ ∃ told : Ipq, placeFragment q skb = some (told, skb.stop) ∧
      told.fragments = q.fragments ∧
      (Silent q skb ∧ told = q ∨ ¬ Silent q skb ∧ (told.len ≠ q.len ∨ told.lastIn ≠ q.lastIn)) := by
  unfold placeFragment Contradicts Silent Skb.stop
  generalize skb.offset + skb.bytes.length - skb.ihl = stop
  obtain ⟨fragments, len, meat, firstIn, lastIn, complete⟩ := q
  cases skb.moreFragments <;> cases lastIn <;> simp
  all_goals grind

theorem overrun_length (stop : Nat) (pullNext : Bool) (after : List Fragment) (meat : Int) :
    (overrun stop pullNext after meat).1.length ≤ after.length := by
  induction after generalizing meat with
  | nil => rfl
  | cons next rest ih =>
    unfold overrun
    dsimp only
    split_ifs
    · rfl
    · rfl
    · exact Nat.le_succ_of_le (ih _)
    · rfl

theorem overrun_uncut (stop : Nat) (pullNext : Bool) (after : List Fragment) (meat : Int) :
    Uncut after stop pullNext ∧ overrun stop pullNext after meat = (after, meat, false) ∨
      ¬ Uncut after stop pullNext ∧ ((overrun stop pullNext after meat).2.2 = false →
        (overrun stop pullNext after meat).1.length < after.length) := by
  unfold Uncut Fragment.stop
  cases after with
  | nil => exact .inr ⟨by simp, nofun⟩
  | cons next behind =>
    have shorter := overrun_length stop pullNext behind (meat - next.data.length)
    simp only [head?_cons, Option.some.injEq, exists_eq_left']
    rw [overrun]
    dsimp only
    split_ifs with overlaps cut memory
    · exact .inr ⟨by simp [memory], nofun⟩
    · exact .inl ⟨⟨overlaps, by omega, by simpa using memory⟩, rfl⟩
    · exact .inr ⟨fun uncut => by omega, fun _ => Nat.lt_succ_of_le shorter⟩
    · exact .inr ⟨fun uncut => overlaps uncut.1, nofun⟩

theorem trimFront_error_iff {prev : Option Fragment} {f : Fragment} {stop : Nat} {pullFront : Bool} :
    (∃ err, trimFront prev f stop pullFront = .error err) ↔ Covered prev f.offset stop pullFront := by
  unfold Covered
  cases prev with
  | none => simp [trimFront]
  | some p =>
    unfold trimFront
    dsimp only
    split_ifs <;> simp_all <;> omega

theorem insertFragment_end (stop : Nat) :
    (insertFragment q skb stop ch).1.len = q.len ∧
      (insertFragment q skb stop ch).1.lastIn = q.lastIn := by
  unfold insertFragment linkFragment
  dsimp only
  repeat' split
  all_goals exact ⟨rfl, rfl⟩

theorem insertFragment_early :
    Early q skb ch ∧ (∃ err, insertFragment q skb skb.stop ch = (q, .refused err)) ∨
      ¬ Early q skb ch ∧ ∀ left err, insertFragment q skb skb.stop ch = (left, .refused err) →
        left.fragments.length < q.fragments.length := by
  unfold insertFragment Early
  split_ifs with empty header
  · exact .inl ⟨.inl empty, _, rfl⟩
  · cases ch.trim with
    | some err => exact .inl ⟨.inr (.inr (.inl nofun)), _, rfl⟩
    | none =>
      dsimp only
      have front := @trimFront_error_iff
        (q.fragments.takeWhile fun next => next.offset < skb.offset).getLast?
        ⟨skb.offset, skb.payload.take (skb.stop - skb.offset), skb.ihl⟩ skb.stop ch.pullFront
      generalize trimFront _ _ _ _ = trimmed at front ⊢
      have parts :=
        @takeWhile_append_dropWhile _ (fun next => next.offset < skb.offset) q.fragments
      generalize q.fragments.takeWhile (fun next => next.offset < skb.offset) = before at *
      generalize q.fragments.dropWhile (fun next => next.offset < skb.offset) = after at *
      cases trimmed with
      | error err => exact .inl ⟨.inr (.inr (.inr (.inl (front.mp ⟨err, rfl⟩)))), err, rfl⟩
      | ok f =>
        have uncovered : ¬ Covered before.getLast? skb.offset skb.stop ch.pullFront :=
          fun covered => nomatch front.mpr covered
        have behind := overrun_uncut skb.stop ch.pullNext after q.meat
        unfold linkFragment
        dsimp only
        generalize overrun skb.stop ch.pullNext after q.meat = result at behind ⊢
        obtain ⟨rest, meat, done⟩ := result
        rcases behind with ⟨uncut, same⟩ | ⟨cut, dropped⟩
        · cases same
          exact .inl ⟨.inr (.inr (.inr (.inr uncut))), .enomem, by simp [parts]⟩
        · refine .inr ⟨by simp [empty, header, uncovered, cut], fun left err refused => ?_⟩
          cases done with
          | false =>
            cases refused
            have shorter : rest.length < after.length := dropped rfl
            rw [← parts, length_append, length_append]
            omega
          | true =>
            dsimp only at refused
            split at refused <;> cases refused
  · exact .inl ⟨.inr (.inl (by simpa using header)), _, rfl⟩

theorem refused_unchanged_iff : (∃ err, ipFragQueue q skb ch = (q, .refused err)) ↔
    q.complete = true ∨ ¬ (skb.fragComplete = false ∧ q.fragments ≠ [] ∧ ch.tooFar = true) ∧
      (Contradicts q skb ∨ Silent q skb ∧ Early q skb ch) := by
  unfold ipFragQueue
  by_cases complete : q.complete = true
  · simp [complete]
  rw [if_neg complete, or_iff_right complete]
  dsimp only
  by_cases far : skb.fragComplete = false ∧ q.fragments ≠ [] ∧ ch.tooFar = true
  · refine iff_of_false ?_ fun unchanged => unchanged.1 far
    rintro ⟨err, refused⟩
    rw [if_pos (by simp [far]), ipFragReinit] at refused
    -- the queue has become empty or complete
    split_ifs at refused <;> dsimp only at refused
    · rcases @placeFragment_told fresh skb with ⟨none, -⟩ | ⟨-, told, placed, empty, -⟩
      · rw [none] at refused
        cases refused
        exact far.2.1 rfl
      · rw [placed] at refused
        rcases @insertFragment_early told skb ch with ⟨-, err, same⟩ | ⟨-, dropped⟩
        · cases refused.symm.trans same
          exact far.2.1 empty
        · exact Nat.not_lt_zero _ (empty ▸ dropped _ _ refused)
    · cases (congrArg (·.1.complete) refused).trans (Bool.not_eq_true _ ▸ complete)
  · rw [if_neg (by simpa [Bool.and_assoc] using far), and_iff_right far]
    rcases @placeFragment_told q skb with ⟨none, contradicts⟩ | ⟨fits, told, placed, -, silent⟩
    · simp [none, contradicts]
    rw [or_iff_right fits]
    simp only [placed]
    rcases silent with ⟨silent, rfl⟩ | ⟨speaks, differ⟩
    · rw [and_iff_right silent]
      rcases @insertFragment_early told skb ch with ⟨early, refused⟩ | ⟨late, dropped⟩
      · exact iff_of_true refused early
      · exact iff_of_false (fun ⟨err, refused⟩ => lt_irrefl _ (dropped _ err refused)) late
    · refine iff_of_false (fun ⟨err, refused⟩ => ?_) fun silent => speaks silent.1
      have same := @insertFragment_end told skb ch skb.stop
      rw [refused] at same
      exact differ.elim (fun other => other same.1.symm) fun other => other same.2.symm

/-- **A rejected fragment leaves the queue as it was** exactly when the datagram was complete, or
the fragment contradicts the known end, or says nothing new about it and is refused before it
replaces a fragment. -/
theorem rejected_unchanged_iff (rejected : (ipFragQueueAll q skb ch).2 = some err) :
    (ipFragQueueAll q skb ch).1 = q ↔ q.complete = true ∨
      ¬ (skb.fragComplete = false ∧ q.fragments ≠ [] ∧ ch.tooFar = true) ∧
        (Contradicts q skb ∨ Silent q skb ∧ Early q skb ch) := by
  rw [← refused_unchanged_iff]
  unfold ipFragQueueAll at *
  rcases result : ipFragQueue q skb ch with ⟨left, refused | _ | prev⟩ <;> rw [result] at rejected
  · simp
  · cases rejected
  · -- the queue is complete now, and was not before
    refine iff_of_false (fun same => ?_) nofun
    have complete : q.complete = true := by
      rw [← same]
      unfold ipFragReasm
      dsimp only
      split_ifs <;> rfl
    simp [ipFragQueue, complete] at result

/-- A fragment inside one that is there. -/
theorem rejected_unchanged_iff_inside :
    let q : Ipq := ⟨[⟨0, replicate 16 1, 20⟩], 16, 16, true, false, false⟩
    let skb : Skb := ⟨0x2001, 20, replicate 28 2, false, by decide, by decide⟩
    let ch : Choices := ⟨false, true, true, none, true, true, true, true, true⟩
    (ipFragQueueAll q skb ch).1 = q :=
  (@rejected_unchanged_iff _ _ _ .einval (by decide)).mpr
    (.inr ⟨by decide, .inr ⟨by unfold Silent; decide,
      .inr (.inr (.inr (.inl ⟨_, rfl, by decide, .inl (by decide)⟩)))⟩⟩)

/-- **An empty last fragment** at offset 80 is refused, and the length of the datagram is fixed. -/
theorem rejected_pins_length :
    ipFragQueueAll fresh ⟨10, 20, replicate 20 0, false, by decide, by decide⟩
        ⟨false, true, true, none, true, true, true, true, true⟩ =
      ({ fresh with len := 80, lastIn := true }, some .einval) := by
  decide

end KernelImx.Fragments
