/-
**The replay window over whole histories.**

Packets are processed one at a time. The bitmap is exact as long as no shift by 32 or more leaves
something in it: the advance compares the distance with the window, which may be wider than the
bitmap.

Main result: `replay_window_exact`.
-/

import KernelImx.Xfrm.Input

namespace KernelImx.Xfrm

open BitVec KernelImx.Lib

/-- The check and, if it passes, the advance, with the numbers accepted so far. -/
def receive (wide : BitVec 32 → BitVec 32 → BitVec 32) (s : XfrmState × List (BitVec 32))
    (seq : BitVec 32) : Option (XfrmState × List (BitVec 32)) :=
  match xfrmReplayCheck s.1 seq with
  | (.ok _, x) => some (xfrmReplayAdvance wide x seq, seq :: s.2)
  | (.error _, x) => some (x, s.2)

def highest (accepted : List (BitVec 32)) : Nat := (accepted.map BitVec.toNat).foldr max 0

/-- A distance that the bitmap cannot be shifted by is not below the window, or the machine shifts
everything out. -/
def ShiftsOut (wide : BitVec 32 → BitVec 32 → BitVec 32) (s : XfrmState × List (BitVec 32))
    (seq : BitVec 32) : Prop :=
  s.1.seq < seq → 32 ≤ (seq - s.1.seq).toNat → (seq - s.1.seq).toNat < s.1.replayWindow.toNat →
    wide s.1.bitmap (seq - s.1.seq) = 0

/-- **The window is exact.** -/
structure Exact (x : XfrmState) (accepted : List (BitVec 32)) : Prop where
  seq : x.seq.toNat = highest accepted
  recorded : ∀ n ∈ accepted, Recorded x n
  only : ∀ n ≤ x.seq, (x.seq - n).toNat < x.span → x.bitmap.getLsbD (x.seq - n).toNat = true →
    n ∈ accepted

variable {wide : BitVec 32 → BitVec 32 → BitVec 32} {x : XfrmState} {accepted : List (BitVec 32)}
  {seq : BitVec 32}

theorem highest_cons (n : BitVec 32) (rest : List (BitVec 32)) :
    highest (n :: rest) = max n.toNat (highest rest) := rfl

theorem shifted_bit {bitmap diff : BitVec 32} {window d : Nat} (small : d < 32) (above : d ≠ 0)
    (shifts : 32 ≤ diff.toNat → diff.toNat < window → wide bitmap diff = 0)
    (set : (if diff.toNat < window then shl wide bitmap diff ||| 1 else 1).getLsbD d = true) :
    diff.toNat ≤ d ∧ bitmap.getLsbD (d - diff.toNat) = true := by
  have lowest : (1 : BitVec 32).getLsbD d = false := by simp [getLsbD_one, above]
  split_ifs at set with jumps
  · rw [getLsbD_or, lowest, Bool.or_false, shl] at set
    split_ifs at set
    · simp only [getLsbD_shiftLeft, small, decide_true, Bool.true_and, Bool.and_eq_true] at set
      simpa using set
    · simp [shifts (by omega) jumps] at set
  · cases lowest.symm.trans set

namespace Exact

theorem same {y : XfrmState} (same : SameWindow x y) (exact : Exact x accepted) :
    Exact y accepted := by
  have span : y.span = x.span := by rw [XfrmState.span, same.replayWindow]; rfl
  refine ⟨same.seq ▸ exact.seq, fun n member => (exact.recorded n member).same same, ?_⟩
  rw [same.seq, same.bitmap, span]
  exact exact.only

variable (exact : Exact x accepted)

include exact

theorem check_iff : (xfrmReplayCheck x seq).1 = .ok () ↔ seq ≠ 0 ∧ seq ∉ accepted ∧
    (highest accepted < seq.toNat ∨ highest accepted - seq.toNat < x.span) := by
  by_cases member : seq ∈ accepted
  · rw [recorded_refused (exact.recorded seq member)]
    exact iff_of_false nofun fun accepts => accepts.2.1 member
  rw [← exact.seq]
  unfold xfrmReplayCheck
  split_ifs with zero up outside set
  · exact iff_of_false nofun fun accepts => accepts.1 zero
  · exact iff_of_true rfl ⟨zero, member, .inl up⟩
  all_goals
    have down : seq ≤ x.seq := BitVec.not_lt.mp up
    have only := exact.only seq down
    rw [toNat_sub_of_le down] at *
  · refine iff_of_false nofun fun accepts => ?_
    exact accepts.2.2.elim up (Nat.not_lt.mpr outside)
  · exact absurd (only (by omega) (and_bit_ne_zero.mp set)) member
  · exact iff_of_true rfl ⟨zero, member, .inr (by omega)⟩

theorem advance (near : ¬ x.seq < seq → (x.seq - seq).toNat < 32)
    (shifts : ShiftsOut wide (x, accepted) seq) :
    Exact (xfrmReplayAdvance wide x seq) (seq :: accepted) := by
  have recorded (n) (member : n ∈ seq :: accepted) : Recorded (xfrmReplayAdvance wide x seq) n :=
    advance_recorded wide ((List.mem_cons.mp member).imp_right (exact.recorded n))
  by_cases up : x.seq < seq
  · rw [xfrmReplayAdvance, if_pos up] at recorded ⊢
    refine ⟨?_, recorded, fun n low inside set => ?_⟩
    · rw [highest_cons, ← exact.seq, max_eq_left (Nat.le_of_lt up)]
    obtain ⟨-, small⟩ := lt_min_iff.mp inside
    by_cases own : n = seq
    · exact own ▸ List.mem_cons_self
    dsimp only at *
    obtain ⟨far, old⟩ := shifted_bit small (by bv_omega) (shifts up) set
    have apart : (seq - n).toNat - (seq - x.seq).toNat = (x.seq - n).toNat := by bv_omega
    have inside : (seq - n).toNat < x.span := inside
    exact .tail _ (exact.only n (by bv_omega) (by omega) (apart ▸ old))
  · rw [xfrmReplayAdvance, if_neg up] at recorded ⊢
    refine ⟨?_, recorded, fun n low inside set => ?_⟩
    · rw [highest_cons, ← exact.seq, max_eq_right (BitVec.not_lt.mp up)]
    rw [getLsbD_or, Bool.or_eq_true, shl, if_pos (near up)] at set
    rcases set with old | own
    · exact .tail _ (exact.only n low inside old)
    · have same : n = seq := by
        simp at own
        bv_omega
      exact same ▸ List.mem_cons_self

end Exact

theorem receive_exact {s next : XfrmState × List (BitVec 32)} (exact : Exact s.1 s.2)
    (shifts : ShiftsOut wide s seq) (received : receive wide s seq = some next) :
    Exact next.1 next.2 ∧ next.1.replayWindow = s.1.replayWindow := by
  have kept := xfrmReplayCheck_same s.1 seq
  have passes := (@Exact.check_iff s.1 s.2 seq exact).mp
  unfold receive at received
  generalize xfrmReplayCheck s.1 seq = checked at kept passes received
  obtain ⟨result, x⟩ := checked
  have exact' := exact.same kept
  cases result with
  | error err =>
    cases received
    exact ⟨exact', kept.replayWindow⟩
  | ok =>
    cases received
    refine ⟨?_, (xfrmReplayAdvance_window wide x seq).trans kept.replayWindow⟩
    refine exact'.advance (fun down => ?_)
      (by rwa [ShiftsOut, kept.seq, kept.bitmap, kept.replayWindow])
    have near := (passes rfl).2.2
    rw [← exact'.seq] at near
    rw [toNat_sub_of_le (BitVec.not_lt.mp down)]
    exact (lt_min_iff.mp (near.resolve_left down)).2

/-- **What the window accepts**, if no packet shifts the bitmap too far: new numbers other than
zero, above the highest one accepted or close below it. -/
theorem replay_window_exact {last : XfrmState × List (BitVec 32)} {packets : List (BitVec 32)}
    (unused : x.seq = 0 ∧ x.bitmap = 0)
    (shifts : Along (receive wide) (ShiftsOut wide) (x, []) packets)
    (run : exec (receive wide) (x, []) packets = some last) (seq : BitVec 32) :
    (xfrmReplayCheck last.1 seq).1 = .ok () ↔ seq ≠ 0 ∧ seq ∉ last.2 ∧
      (highest last.2 < seq.toNat ∨
        highest last.2 - seq.toNat < min x.replayWindow.toNat 32) := by
  obtain ⟨exact, window⟩ : Exact last.1 last.2 ∧ last.1.replayWindow = x.replayWindow := by
    refine exec_invariant_along (fun s => Exact s.1 s.2 ∧ s.1.replayWindow = x.replayWindow)
      (fun s seq next holds shifts received => ?_)
      ⟨⟨by rw [unused.1]; rfl, List.forall_mem_nil _, ?_⟩, rfl⟩ shifts run
    · obtain ⟨exact, same⟩ := receive_exact holds.1 shifts received
      exact ⟨exact, same.trans holds.2⟩
    · simp [unused]
  rw [exact.check_iff, XfrmState.span, window]
  rfl

/-- After the packets 1 and 3 the window accepts 2. -/
theorem replay_window_exact_two : ∃ last, exec (receive fun _ _ => 0) (newState, []) [1, 3] = some last ∧
    (xfrmReplayCheck last.1 2).1 = .ok () :=
  ⟨_, rfl, (@replay_window_exact (fun _ _ => 0) newState _ [1, 3] ⟨rfl, rfl⟩
    ⟨fun _ _ _ => rfl, fun _ _ => ⟨fun _ _ _ => rfl, fun _ _ => trivial⟩⟩ rfl 2).mpr (by decide)⟩

/-- With a window of 64 numbers, a machine that shifts modulo 32 refuses 33, which is new. -/
theorem replay_window_wide :
    (exec (receive fun a diff => a <<< (diff.toNat % 32)) ({ newState with replayWindow := 64 }, [])
      [1, 2, 34]).map (fun s => (s.2, (xfrmReplayCheck s.1 33).1)) =
        some ([34, 2, 1], .error .einval) := by
  decide

end KernelImx.Xfrm
