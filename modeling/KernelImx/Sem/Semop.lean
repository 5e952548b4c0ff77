/-
**What one call does to the array** (`try_atomic_semop`).

Each operation is checked against the adjustment before the call, and all of them are then taken off
(`semadj_exact_iff`).
-/

import KernelImx.Sem.Array

namespace KernelImx.Sem

open List

variable {sma other start next : SemArray} {un pid num : Nat} {sop : Sembuf}
  {sops done rest first second : List Sembuf}

/-! ### The values -/

@[simp] theorem semval_setSemval (value : Int) (at_ : Nat) :
    (sma.setSemval num value).semval at_ = if at_ = num then value else sma.semval at_ := by
  unfold SemArray.semval SemArray.setSemval
  by_cases same : at_ = num <;> simp [same]

@[simp] theorem semval_setSempid (at_ : Nat) : (sma.setSempid num pid).semval at_ = sma.semval at_ := by
  unfold SemArray.semval SemArray.setSempid
  by_cases same : at_ = num <;> simp [same]

@[simp] theorem semval_adjust (op : Int) (at_ : Nat) :
    (sma.adjust un num op).semval at_ = sma.semval at_ := rfl

theorem setSemval_setSemval (first second : Int) :
    (sma.setSemval num first).setSemval num second = sma.setSemval num second := by
  unfold SemArray.setSemval
  simp only [if_true, SemArray.mk.injEq, true_and, and_true]
  funext at_
  by_cases same : at_ = num <;> simp [same]

theorem setSemval_self : sma.setSemval num (sma.semval num) = sma := by
  unfold SemArray.setSemval SemArray.semval
  obtain ⟨nsems, base, pending, simple, complexCount, semadj, otime, ctime⟩ := sma
  simp only [SemArray.mk.injEq, true_and, and_true]
  funext at_
  by_cases same : at_ = num <;> simp [same]

/-- What the operations of a call add to a semaphore. -/
def opSum (num : Nat) : List Sembuf → Int
  | [] => 0
  | sop :: rest => (if sop.semNum = num then sop.semOp else 0) + opSum num rest

theorem opSum_zero (num : Nat) (zeros : ∀ sop ∈ sops, sop.semOp = 0) : opSum num sops = 0 := by
  induction sops with
  | nil => rfl
  | cons sop rest ih =>
    rw [opSum, ih (forall_mem_cons.mp zeros).2,
      zeros sop mem_cons_self, ite_self, add_zero]

theorem opSum_absent (num : Nat) (absent : ¬ ∃ sop ∈ sops, sop.semNum = num) : opSum num sops = 0 := by
  induction sops with
  | nil => rfl
  | cons sop rest ih =>
    have here : sop.semNum ≠ num := fun same => absent ⟨sop, mem_cons_self, same⟩
    rw [opSum, if_neg here, zero_add]
    exact ih fun ⟨other, member, same⟩ => absent ⟨other, mem_cons_of_mem _ member, same⟩

/-- Everything but the semaphores and the adjustments. -/
structure SameQueues (sma other : SemArray) : Prop where
  pending : other.pending = sma.pending
  simple : other.simple = sma.simple
  complexCount : other.complexCount = sma.complexCount

theorem SameQueues.refl (sma : SemArray) : SameQueues sma sma := ⟨rfl, rfl, rfl⟩

/-! ### The loops -/

/-- **One operation**: it stops the loop, or it is made and its value is in the range. -/
theorem semopLoop_cons :
    (∃ result ∈ [.sleep, .failed .eagain, .failed .erange],
      semopLoop un sma done (sop :: rest) = (sma, done, result)) ∨
    ((sop.semOp = 0 → sma.semval sop.semNum = 0) ∧
      0 ≤ sma.semval sop.semNum + sop.semOp ∧ sma.semval sop.semNum + sop.semOp ≤ semvmx ∧
      semopLoop un sma done (sop :: rest) =
        semopLoop un (sma.setSemval sop.semNum (sma.semval sop.semNum + sop.semOp)) (sop :: done)
          rest) := by
  have blocks : wouldBlock sop ∈ [.sleep, .failed .eagain, .failed .erange] := by
    unfold wouldBlock
    split <;> simp
  rw [semopLoop]
  simp only
  split
  · exact .inl ⟨_, blocks, rfl⟩
  next waits =>
  split
  · exact .inl ⟨_, blocks, rfl⟩
  next low =>
  split
  · exact .inl ⟨_, by simp, rfl⟩
  next high =>
  split
  · exact .inl ⟨_, by simp, rfl⟩
  · exact .inr ⟨fun zero => not_not.mp fun up => waits ⟨zero, up⟩, not_lt.mp low, not_lt.mp high, rfl⟩

theorem semopLoop_cons_done (success : (semopLoop un sma done (sop :: rest)).2.2 = .done) :
    (sop.semOp = 0 → sma.semval sop.semNum = 0) ∧
      0 ≤ sma.semval sop.semNum + sop.semOp ∧ sma.semval sop.semNum + sop.semOp ≤ semvmx ∧
      semopLoop un sma done (sop :: rest) =
        semopLoop un (sma.setSemval sop.semNum (sma.semval sop.semNum + sop.semOp)) (sop :: done)
          rest := by
  rcases @semopLoop_cons sma un sop done rest with ⟨result, is, stops⟩ | made
  · rw [stops] at success
    subst success
    simp at is
  · exact made

/-- The first operation is in the value, or in the sum. -/
theorem semval_add_opSum_cons :
    (sma.setSemval sop.semNum (sma.semval sop.semNum + sop.semOp)).semval num + opSum num rest =
      sma.semval num + opSum num (sop :: rest) := by
  rw [semval_setSemval, opSum]
  by_cases same : num = sop.semNum
  · rw [if_pos same, if_pos same.symm, same, add_assoc]
  · rw [if_neg same, if_neg (Ne.symm same), zero_add]

/-- **The undo loop takes back what the first loop has done.** -/
theorem undoLoop_semopLoop :
    undoLoop (semopLoop un sma done sops).1 (semopLoop un sma done sops).2.1 = undoLoop sma done ∧
      (semopLoop un sma done sops).2.2 ∈ [.done, .sleep, .failed .eagain, .failed .erange] := by
  induction sops generalizing done sma with
  | nil => exact ⟨rfl, mem_cons_self⟩
  | cons sop rest ih =>
    rcases @semopLoop_cons sma un sop done rest with ⟨result, is, stops⟩ | ⟨-, -, -, step⟩
    · rw [stops]
      exact ⟨rfl, mem_cons_of_mem _ is⟩
    obtain ⟨undone, is⟩ := @ih (sma.setSemval sop.semNum _) (sop :: done)
    rw [step]
    refine ⟨undone.trans ?_, is⟩
    rw [undoLoop, setSemval_setSemval, semval_setSemval, if_pos rfl, add_sub_cancel_right,
      setSemval_self]

theorem sempid_setSemval (value : Int) (at_ : Nat) :
    ((sma.setSemval num value).base at_).sempid = (sma.base at_).sempid := by
  unfold SemArray.setSemval
  by_cases same : at_ = num <;> simp [same]

theorem semopLoop_sempid :
    ((semopLoop un sma done sops).1.base num).sempid = (sma.base num).sempid := by
  induction sops generalizing done sma with
  | nil => rfl
  | cons sop rest ih =>
    rcases @semopLoop_cons sma un sop done rest with ⟨result, -, stops⟩ | ⟨-, -, -, step⟩
    · rw [stops]
    · rw [step, ih, sempid_setSemval]

theorem semopLoop_queues : SameQueues sma (semopLoop un sma done sops).1 ∧
    (semopLoop un sma done sops).1.semadj = sma.semadj := by
  induction sops generalizing done sma with
  | nil => exact ⟨.refl _, rfl⟩
  | cons sop rest ih =>
    rcases @semopLoop_cons sma un sop done rest with ⟨result, -, stops⟩ | ⟨-, -, -, step⟩
    · rw [stops]
      exact ⟨.refl _, rfl⟩
    · obtain ⟨same, adj⟩ := @ih (sma.setSemval sop.semNum (sma.semval sop.semNum + sop.semOp)) (sop :: done)
      rw [step]
      exact ⟨{ same with }, adj⟩

theorem semopLoop_done (success : (semopLoop un sma done sops).2.2 = .done) :
    (semopLoop un sma done sops).2.1 = sops.reverse ++ done ∧
      (∀ num, (semopLoop un sma done sops).1.semval num = sma.semval num + opSum num sops) ∧
      ∀ num count, 0 ≤ sma.semval num → 0 ≤ sma.semval num + opSum num (sops.take count) ∧
        (sma.semval num ≤ semvmx → sma.semval num + opSum num (sops.take count) ≤ semvmx) := by
  induction sops generalizing done sma with
  | nil =>
    refine ⟨rfl, fun num => (add_zero _).symm, fun num count low => ?_⟩
    rw [take_nil, opSum, add_zero]
    exact ⟨low, id⟩
  | cons sop rest ih =>
    obtain ⟨-, low, high, step⟩ := semopLoop_cons_done success
    rw [step] at success ⊢
    obtain ⟨list, values, within⟩ := ih success
    refine ⟨by rw [list, reverse_cons, append_assoc]; rfl,
      fun num => by rw [values, semval_add_opSum_cons], fun num count pos => ?_⟩
    cases count with
    | zero =>
      rw [take_zero, opSum, add_zero]
      exact ⟨pos, id⟩
    | succ count =>
      have later := within num count
      rw [semval_add_opSum_cons, semval_setSemval] at later
      rw [take_succ_cons]
      by_cases same : num = sop.semNum
      · rw [if_pos same] at later
        exact ⟨(later low).1, fun _ => (later low).2 high⟩
      · rw [if_neg same] at later
        exact later pos

/-- **A wait for zero** has found zero. -/
theorem semopLoop_zero {count : Nat} (success : (semopLoop un sma done sops).2.2 = .done)
    (waits : sops[count]? = some sop) (zero : sop.semOp = 0) :
    sma.semval sop.semNum + opSum sop.semNum (sops.take count) = 0 := by
  induction sops generalizing done sma count with
  | nil => cases waits
  | cons first rest ih =>
    obtain ⟨found, -, -, step⟩ := semopLoop_cons_done success
    cases count with
    | zero =>
      cases waits
      rw [found zero]
      rfl
    | succ count =>
      rw [step] at success
      rw [take_succ_cons, ← semval_add_opSum_cons]
      exact ih success waits

theorem semopLoop_congr (values : ∀ num, other.semval num = sma.semval num)
    (adj : other.semadj = sma.semadj) :
    (semopLoop un other second sops).2.2 = (semopLoop un sma first sops).2.2 := by
  induction sops generalizing first second sma other with
  | nil =>
    rfl
  | cons sop rest ih =>
    unfold semopLoop
    simp only [values, adj]
    split
    · rfl
    split
    · rfl
    split
    · rfl
    split
    · rfl
    · refine ih (fun num => ?_) adj
      rw [semval_setSemval, semval_setSemval, values]

theorem commitLoop_queues (un pid : Nat) (done : List Sembuf)
    (same : SameQueues start sma) : SameQueues start (commitLoop un pid sma done) ∧
      ∀ num, (commitLoop un pid sma done).semval num = sma.semval num := by
  induction done generalizing sma with
  | nil => exact ⟨same, fun num => rfl⟩
  | cons sop rest ih =>
    unfold commitLoop
    split
    · obtain ⟨same, values⟩ :=
        @ih ((sma.setSempid sop.semNum pid).adjust un sop.semNum sop.semOp) { same with }
      exact ⟨same, fun num => by rw [values, semval_adjust, semval_setSempid]⟩
    · obtain ⟨same, values⟩ := @ih (sma.setSempid sop.semNum pid) { same with }
      exact ⟨same, fun num => by rw [values, semval_setSempid]⟩

theorem opSum_append : opSum num (first ++ second) = opSum num first + opSum num second := by
  induction first with
  | nil => exact (zero_add _).symm
  | cons sop rest ih => rw [cons_append, opSum, opSum, ih, add_assoc]

theorem opSum_reverse : opSum num sops.reverse = opSum num sops := by
  induction sops with
  | nil => rfl
  | cons sop rest ih => rw [reverse_cons, opSum_append, ih, opSum, opSum, opSum, add_zero, add_comm]

/-- What a call adds to an adjustment: nothing to those of the other processes. -/
def adjustment (un undo num : Nat) (sops : List Sembuf) : Int :=
  if undo = un then opSum num (sops.filter Sembuf.undo) else 0

theorem adjustment_reverse {undo : Nat} :
    adjustment un undo num sops.reverse = adjustment un undo num sops := by
  rw [adjustment, filter_reverse, opSum_reverse, adjustment]

theorem commitLoop_adjusts (undo : Nat) : (commitLoop un pid sma done).semadj undo num =
    sma.semadj undo num - BitVec.ofInt 16 (adjustment un undo num done) := by
  unfold adjustment
  induction done generalizing sma with
  | nil => rw [filter_nil, opSum, ite_self]; exact (sub_zero _).symm
  | cons sop rest ih =>
    rw [commitLoop, ih]
    cases flag : sop.undo with
    | false =>
      rw [filter_cons_of_neg (by simp [flag])]
      rfl
    | true =>
      rw [filter_cons_of_pos flag, opSum]
      simp only [if_true, SemArray.adjust]
      by_cases own : undo = un
      · subst own
        simp only [if_true, true_and, BitVec.ofInt_add, sub_add_eq_sub_sub]
        by_cases same : sop.semNum = num
        · rw [if_pos same.symm, if_pos same, same]
          rfl
        · rw [if_neg (Ne.symm same), if_neg same]
          exact congrArg (· - _) (sub_zero _).symm
      · rw [if_neg own, if_neg own, if_neg fun both => own both.1]
        rfl

theorem commitLoop_sempid : ((commitLoop un pid sma done).base num).sempid =
    if ∃ sop ∈ done, sop.semNum = num then pid else (sma.base num).sempid := by
  induction done generalizing sma with
  | nil => simp [commitLoop]
  | cons sop rest ih =>
    have noted : ((if sop.undo then (sma.setSempid sop.semNum pid).adjust un sop.semNum sop.semOp
        else sma.setSempid sop.semNum pid).base num).sempid =
        if sop.semNum = num then pid else (sma.base num).sempid := by
      by_cases same : sop.semNum = num
      · split <;> simp [SemArray.adjust, SemArray.setSempid, same]
      · split <;> simp [SemArray.adjust, SemArray.setSempid, Ne.symm same]
    rw [commitLoop, ih, noted]
    by_cases same : sop.semNum = num <;> simp [same]

/-! ### The call -/

theorem tryAtomicSemop_result :
    (tryAtomicSemop sma sops un pid).2 = (semopLoop un sma [] sops).2.2 := by
  unfold tryAtomicSemop
  split
  next eq => rw [eq]
  next eq => rw [eq]

/-- A call that fails or has to sleep changes nothing. -/
theorem tryAtomicSemop_not_done {result : SemResult}
    (call : tryAtomicSemop sma sops un pid = (next, result)) (stops : result ≠ .done) :
    next = sma := by
  have undone := (@undoLoop_semopLoop sma un sops []).1
  unfold tryAtomicSemop at call
  split at call
  · cases call
    exact absurd rfl stops
  next eq =>
    cases call
    rw [eq] at undone
    exact undone

theorem tryAtomicSemop_commits (success : tryAtomicSemop sma sops un pid = (next, .done)) :
    (semopLoop un sma [] sops).2.2 = .done ∧
      next = commitLoop un pid (semopLoop un sma [] sops).1 (semopLoop un sma [] sops).2.1 := by
  unfold tryAtomicSemop at success
  split at success
  next eq =>
    cases success
    rw [eq]
    exact ⟨rfl, rfl⟩
  next ne eq =>
    cases success
    exact absurd rfl ne

/-- **The operations are made** in order, each wait for zero at a value of zero; the process and its
adjustments are noted, and the queues are as before. -/
structure Made (sma : SemArray) (sops : List Sembuf) (un pid : Nat) (next : SemArray) : Prop where
  values : ∀ num, next.semval num = sma.semval num + opSum num sops
  within : ∀ num count, 0 ≤ sma.semval num → 0 ≤ sma.semval num + opSum num (sops.take count) ∧
    (sma.semval num ≤ semvmx → sma.semval num + opSum num (sops.take count) ≤ semvmx)
  zeros : ∀ count sop, sops[count]? = some sop → sop.semOp = 0 →
    sma.semval sop.semNum + opSum sop.semNum (sops.take count) = 0
  sempids : ∀ num, (next.base num).sempid =
    if ∃ sop ∈ sops, sop.semNum = num then pid else (sma.base num).sempid
  semadjs : ∀ undo num, next.semadj undo num =
    sma.semadj undo num - BitVec.ofInt 16 (adjustment un undo num sops)
  queues : SameQueues sma next

theorem tryAtomicSemop_made (success : tryAtomicSemop sma sops un pid = (next, .done)) :
    Made sma sops un pid next := by
  obtain ⟨ends, rfl⟩ := tryAtomicSemop_commits success
  obtain ⟨queues, adj⟩ := @semopLoop_queues sma un sops []
  obtain ⟨list, values, within⟩ := semopLoop_done ends
  obtain ⟨queues, same⟩ := commitLoop_queues un pid (semopLoop un sma [] sops).2.1 queues
  rw [append_nil] at list
  refine ⟨fun num => by rw [same, values], within, fun count sop => semopLoop_zero ends,
    fun num => ?_, fun undo num => ?_, queues⟩
  · rw [commitLoop_sempid, list]
    simp only [mem_reverse, semopLoop_sempid]
  · rw [commitLoop_adjusts, list, adjustment_reverse, adj]

theorem Made.nonneg (made : Made sma sops un pid next) (num : Nat) (pos : 0 ≤ sma.semval num) :
    0 ≤ next.semval num := by
  rw [made.values, ← take_length (l := sops)]
  exact (made.within num sops.length pos).1

theorem Made.semadj_eq (made : Made sma sops un pid next) (zeros : ∀ sop ∈ sops, sop.semOp = 0) :
    next.semadj = sma.semadj := by
  funext undo num
  rw [made.semadjs, adjustment, opSum_zero num fun sop member =>
    zeros sop (mem_of_mem_filter member), ite_self]
  exact sub_zero _

/-- Whether it succeeds depends on the values and the adjustments only. -/
theorem tryAtomicSemop_congr (values : ∀ num, other.semval num = sma.semval num)
    (adj : other.semadj = sma.semadj) :
    (tryAtomicSemop other sops un pid).2 = (tryAtomicSemop sma sops un pid).2 := by
  rw [tryAtomicSemop_result, tryAtomicSemop_result]
  exact semopLoop_congr values adj

/-- When a call with one operation sleeps. -/
theorem tryAtomicSemop_single : (tryAtomicSemop sma [sop] un pid).2 = .sleep ↔
    sop.nowait = false ∧ ((sop.semOp = 0 ∧ sma.semval sop.semNum ≠ 0) ∨
      sma.semval sop.semNum + sop.semOp < 0) := by
  rw [tryAtomicSemop_result]
  simp only [semopLoop, wouldBlock]
  by_cases zero : sop.semOp = 0 ∧ sma.semval sop.semNum ≠ 0
  · cases sop.nowait <;> simp [zero]
  rw [if_neg zero]
  by_cases low : sma.semval sop.semNum + sop.semOp < 0
  · cases sop.nowait <;> simp [low]
  rw [if_neg low]
  split
  · simp [zero, low]
  · split
    · simp [zero, low]
    · simp [zero, low]

/-- **A call is all or nothing.** It returns 0 with the operations made in order, every value that was
in the range staying there after each of them, or it returns 1 or an error and changes nothing. -/
theorem semop_atomic (sma : SemArray) (sops : List Sembuf) (un pid : Nat) :
    ((tryAtomicSemop sma sops un pid).2 = .done ∧
      Made sma sops un pid (tryAtomicSemop sma sops un pid).1 ∧
      ∀ num, 0 ≤ sma.semval num ∧ sma.semval num ≤ semvmx → ∀ count,
        0 ≤ sma.semval num + opSum num (sops.take count) ∧
          sma.semval num + opSum num (sops.take count) ≤ semvmx) ∨
    ((tryAtomicSemop sma sops un pid).2 ∈ [.sleep, .failed .eagain, .failed .erange] ∧
      (tryAtomicSemop sma sops un pid).1 = sma) := by
  by_cases success : (tryAtomicSemop sma sops un pid).2 = .done
  · have made := tryAtomicSemop_made (Prod.ext rfl success)
    refine .inl ⟨success, made, fun num range count => ?_⟩
    have within := made.within num count range.1
    exact ⟨within.1, within.2 range.2⟩
  · refine .inr ⟨?_, tryAtomicSemop_not_done rfl success⟩
    rw [tryAtomicSemop_result] at success ⊢
    exact (mem_cons.mp undoLoop_semopLoop.2).resolve_left success

/-- **When the adjustments are exact.** The adjustment of every semaphore is the old one less the
operations with `SEM_UNDO`, in the range, exactly when this difference is in the range. -/
theorem semadj_exact_iff (success : (tryAtomicSemop sma sops un pid).2 = .done) :
    (∀ num, ((tryAtomicSemop sma sops un pid).1.semadj un num).toInt =
        (sma.semadj un num).toInt - opSum num (sops.filter Sembuf.undo) ∧
      -semaem - 1 ≤ ((tryAtomicSemop sma sops un pid).1.semadj un num).toInt ∧
      ((tryAtomicSemop sma sops un pid).1.semadj un num).toInt ≤ semaem) ↔
    ∀ num, -semaem - 1 ≤ (sma.semadj un num).toInt - opSum num (sops.filter Sembuf.undo) ∧
      (sma.semadj un num).toInt - opSum num (sops.filter Sembuf.undo) ≤ semaem := by
  have made := tryAtomicSemop_made (Prod.ext rfl success)
  refine forall_congr' fun num => ?_
  rw [made.semadjs, adjustment, if_pos rfl, BitVec.toInt_sub, BitVec.toInt_ofInt, Int.sub_bmod_bmod]
  unfold semaem semvmx
  constructor
  · rintro ⟨exact, range⟩
    rwa [exact] at range
  · intro range
    rw [Int.bmod_eq_of_le (by omega) (by omega)]
    exact ⟨rfl, range⟩

def oneSemaphore : SemArray := ⟨1, fun _ => ⟨0, 0⟩, [], fun _ => [], 0, fun _ _ => 0, 0, 0⟩

/-- Raised twice with `SEM_UNDO`, and lowered in between. -/
theorem semadj_exact_iff_twice :
    let sops := [⟨0, 5, false, true⟩, ⟨0, -5, false, false⟩, ⟨0, 2, false, true⟩]
    (tryAtomicSemop oneSemaphore sops 0 1).2 = .done ∧
      ((tryAtomicSemop oneSemaphore sops 0 1).1.semadj 0 0).toInt = -7 := by
  intro sops
  have success : (tryAtomicSemop oneSemaphore sops 0 1).2 = .done := by decide
  refine ⟨success, ((semadj_exact_iff success).mpr (fun num => ?_) 0).1⟩
  rcases eq_or_ne 0 num with rfl | here
  · decide
  · simp [sops, oneSemaphore, opSum, here, semaem, semvmx]

/-- **The adjustment wraps** when the semaphore is raised by more. -/
theorem semadj_wraps :
    let sops := [⟨0, 30000, false, true⟩, ⟨0, -30000, false, false⟩, ⟨0, 30000, false, true⟩]
    (tryAtomicSemop oneSemaphore sops 0 1).2 = .done ∧
      ((tryAtomicSemop oneSemaphore sops 0 1).1.semadj 0 0).toInt = 5536 := by
  decide

end KernelImx.Sem
