/-
**A table that is accepted keeps packets on its rules**, if it is laid out as the kernel takes it to be.

`translate_table` does not check that the parts of an entry lie behind each other, that a jump leads to
an entry, that the last entry cannot be passed, or that an underflow has no matches.

Main result: `table_confined`.
-/

import Mathlib.Algebra.Order.BigOperators.Group.List
import KernelImx.Netfilter.Addresses
import KernelImx.Netfilter.Marks

namespace KernelImx.Netfilter

open List KernelImx.Lib Nat Bool Option BitVec

/-- **A clean block**: every entry is well laid, every rule that can be reached leads to entries only, and
the underflows have no matches. -/
structure Clean (repl : Replace) (m : Blob) : Prop where
  laid : ∀ e ∈ repl.entries m, WellLaid repl.size.toNat m e
  flow : ∀ h : Fin 5, repl.validHooks.getLsbD h = true → ∀ e, Reach m (repl.hookEntry h).toNat e →
    ∀ n ∈ succs m e, n ∈ repl.entries m
  underflow : ∀ h : Fin 5, repl.validHooks.getLsbD h = true →
    targetOffset m (repl.underflow h).toNat = sizeofEntry

/-! ### What acceptance gives -/

/-- What is known of an accepted table about one hook. -/
structure HookReady (repl : Replace) (m : Blob) (info : TableInfo) (h : Fin 5) : Prop where
  entry : info.hookEntry h = repl.hookEntry h
  underflow : info.underflow h = repl.underflow h
  member : (repl.underflow h).toNat ∈ repl.entries m
  checked : checkUnderflow m (repl.underflow h).toNat = true
  closed : ∀ e, Reach m (repl.hookEntry h).toNat e → e ∈ repl.entries m
  finished : ∃ fin, Ordered (succs m) fin ∧ (repl.hookEntry h).toNat ∈ fin

section Accepted

variable {reg : Registry} {repl : Replace} {m m' : Blob} {info : TableInfo} {fuel : Nat}

theorem hooksAssigned_get (assigned : hooksAssigned repl info = true) {h : Fin 5}
    (valid : repl.validHooks.getLsbD h = true) :
    info.hookEntry h ≠ invalidHook ∧ info.underflow h ≠ invalidHook := by
  have here := all_eq_true.mp assigned h (mem_finRange h)
  simpa [valid] using here

theorem clean_closed (clean : Clean repl m) {h : Fin 5} (valid : repl.validHooks.getLsbD h = true)
    (start : (repl.hookEntry h).toNat ∈ repl.entries m) {e : Nat}
    (reach : Reach m (repl.hookEntry h).toNat e) : e ∈ repl.entries m := by
  cases reach with
  | refl => exact start
  | tail before edge => exact clean.flow h valid _ before e edge

theorem translateTable_accepted (clean : Clean repl m)
    (accepted : translateTable reg fuel repl m = some (.ok (info, m'))) :
    Rules repl.size.toNat (repl.entries m) m ∧ (∀ e ∈ repl.entries m, Resolved reg e m m') ∧
      ∀ h : Fin 5, repl.validHooks.getLsbD h = true → HookReady repl m info h := by
  unfold translateTable at accepted
  split at accepted
  · cases accepted
  rename_i i info₁ m₁ walks
  obtain ⟨walked, met⟩ :
      Walked repl m (repl.entries m) m m₁ ∧ HooksIn repl m (repl.entries m) info₁ :=
    checkEntries_walked _ (fun _ _ => rfl) (fun _ member => member)
      ⟨rfl, fun _ => .inl rfl, fun _ => .inl rfl⟩ walks
  split at accepted
  · cases accepted
  split at accepted
  · cases accepted
  rename_i assigned
  have rules : Rules repl.size.toNat (repl.entries m) m :=
    ⟨walked.inside, walked.long, fun _ member _ member' => entryStarts_apart _ member member'⟩
  -- the hooks that are valid were met on the walk
  have hooks : ∀ h : Fin 5, repl.validHooks.getLsbD h = true →
      (info₁.hookEntry h = repl.hookEntry h ∧ (repl.hookEntry h).toNat ∈ repl.entries m) ∧
        (info₁.underflow h = repl.underflow h ∧ (repl.underflow h).toNat ∈ repl.entries m ∧
          checkUnderflow m (repl.underflow h).toNat = true) := by
    intro h valid
    obtain ⟨entry, underflow⟩ := hooksAssigned_get (by simpa using assigned) valid
    exact ⟨(met.hookEntry h).resolve_left entry, (met.underflow h).resolve_left underflow⟩
  have closed : ∀ h : Fin 5, repl.validHooks.getLsbD h = true →
      ∀ e, Reach m (info₁.hookEntry h).toNat e → e ∈ repl.entries m := by
    intro h valid e reach
    obtain ⟨⟨entry, member⟩, -⟩ := hooks h valid
    rw [entry] at reach
    exact clean_closed clean valid member reach
  split at accepted
  · cases accepted
  · cases accepted
  rename_i m₂ marked
  have none_set : ∀ j, ∀ e ∈ repl.entries m, (comefrom m₁ e).testBit j = false := by
    intro j e member
    rw [walked.fresh e member, zero_testBit]
  obtain ⟨outside, ordered⟩ := markSourceChains_ordered rules clean.laid
    (le_of_lt repl.size.isLt) closed (finRange 5) (nodup_finRange 5) walked.outside
    (none_set onWay) (fun h _ => none_set h) marked
  split at accepted
  · cases accepted
  rename_i m₃ resolves
  cases accepted
  refine ⟨rules, ?_, fun h valid => ?_⟩
  · exact (findCheckEntries_resolved _ clean.laid
      (fun s member => outside_sameEntry rules member outside) resolves).2
  · obtain ⟨⟨entry, member⟩, underflow, inside, checked⟩ := hooks h valid
    refine ⟨entry, underflow, inside, checked, fun e => clean_closed clean valid member, ?_⟩
    rw [← entry]
    exact ordered h (mem_finRange h) valid

end Accepted

/-! ### Whether a rule applies -/

section Applies

variable {size e : Nat} {reg : Registry} {m mem : Blob}

theorem Resolved.getTarget (resolved : Resolved reg e m mem) : getTarget mem e = getTarget m e := by
  rw [Netfilter.getTarget, resolved.targetOffset]
  rfl

theorem ematchLoop_some (applies : Nat → Bool) (fuel : Nat) : ∀ {t last : Nat},
    matchesEnd mem e fuel t = some last → ∃ answer, ematchLoop mem e applies fuel t = some answer := by
  induction fuel with
  | zero => exact nofun
  | succ fuel ih =>
    intro t last ends
    rw [matchesEnd] at ends
    rw [ematchLoop]
    split
    · rename_i below
      rw [if_pos below] at ends
      split
      · exact ih ends
      · exact ⟨false, rfl⟩
    · exact ⟨true, rfl⟩

section

variable (resolved : Resolved reg e m mem)

include resolved

theorem ruleMatches_some (ans : Answers) : ∃ answer, ruleMatches mem e ans = some answer := by
  unfold ruleMatches
  split
  · rw [resolved.targetOffset]
    exact ematchLoop_some ans.applies _ resolved.matched
  · exact ⟨false, rfl⟩

/-- **A rule without conditions and matches applies.** -/
theorem ruleMatches_always (all : unconditional m e = true) (bare : targetOffset m e = sizeofEntry)
    (ans : Answers) : ruleMatches mem e ans = some true := by
  have here : unconditional mem e = true := resolved.unconditional.trans all
  have target : getTarget mem e = e + sizeofEntry := by rw [getTarget, resolved.targetOffset, bare]
  rw [ruleMatches, if_pos (ipPacketMatch_unconditional here ans.packet), ematchLoop, target,
    if_neg (lt_irrefl _)]

theorem ruleMatches_ends (last : ends m e = true) (ans : Answers) :
    ruleMatches mem e ans = some true := by
  unfold ends at last
  simp only [and_eq_true, decide_eq_true_eq] at last
  exact ruleMatches_always resolved last.2 last.1.1.1 ans

end

theorem ends_false_of_verdict (positive : ¬verdict m (getTarget m e) < 0) : ends m e = false := by
  unfold ends
  simp [positive]

theorem ends_false_of_named (named : isStandard m (getTarget m e) = false) : ends m e = false := by
  unfold ends
  simp [named]

theorem succs_jump (standard : isStandard m (getTarget m e) = true)
    (positive : ¬verdict m (getTarget m e) < 0) :
    succs m e = [(verdict m (getTarget m e)).toNat, e + nextOffset m e] := by
  have other : ¬ends m e = true := by
    rw [ends_false_of_verdict positive]
    exact false_ne_true
  have jumps : (isStandard m (getTarget m e) && decide (0 ≤ verdict m (getTarget m e))) = true := by
    rw [standard, Bool.true_and, decide_eq_true_eq]
    omega
  rw [succs, if_neg other, if_pos jumps]

end Applies

/-! ### One rule -/

section Rule

/-- **A hook of an accepted table**, with the weights of its search. -/
structure Entered where
  reg : Registry
  info : TableInfo
  hook : Fin 5
  size : Nat
  entries : List Nat
  m : Blob
  start : Nat
  weight : Nat → Nat
  rules : Rules size entries m
  laid : ∀ e ∈ entries, WellLaid size m e
  closed : ∀ e, Reach m start e → e ∈ entries
  heavier : ∀ e, Reach m start e → ((succs m e).map weight).sum < weight e
  bottom : (info.underflow hook).toNat ∈ entries
  checked : checkUnderflow m (info.underflow hook).toNat = true
  bare : targetOffset m (info.underflow hook).toNat = sizeofEntry

/-- **A packet between two rules** that can be reached, as can the rules it will return to. -/
structure OnRules (table : Entered) (s : Eval) : Prop where
  resolved : ∀ e ∈ table.entries, Resolved table.reg e table.m s.mem
  reach : Reach table.m table.start s.e
  stack : ∀ t ∈ s.jumpstack, Reach table.m table.start t ∧ ends table.m t = false

/-- The rules that are left, counted with the weights of a search. -/
def workload (m : Blob) (weight : Nat → Nat) (s : Eval) : Nat :=
  weight s.e + (s.jumpstack.map fun t => weight (t + nextOffset m t)).sum

/-- The packet has enough turns left for the rules that are left, or is at the underflow. -/
def HasTurns (table : Entered) (turns : Nat) (s : Eval) : Prop :=
  OnRules table s ∧ workload table.m table.weight s + 1 < turns ∨
    0 < turns ∧ s.e = (table.info.underflow table.hook).toNat ∧
      ∀ e ∈ table.entries, Resolved table.reg e table.m s.mem

/-- The packet comes to its end, or has enough turns left. -/
def Comes (table : Entered) (turns : Nat) : Outcome → Prop
  | .hang => False
  | .verdict _ => True
  | .goOn next => HasTurns table turns next

variable {table : Entered} {turns : Nat} {s : Eval}

/-- Counters do not matter. -/
theorem resolved_outside {mem mem' : Blob}
    (resolved : ∀ e ∈ table.entries, Resolved table.reg e table.m mem)
    (outside : Outside table.entries mem mem') :
    ∀ e ∈ table.entries, Resolved table.reg e table.m mem' := by
  have rules' : Rules table.size table.entries mem := by
    refine ⟨table.rules.inside, fun e inside => ?_, fun a inside b inside' => ?_⟩
    · rw [(resolved e inside).next]
      exact table.rules.long e inside
    · rw [(resolved a inside).next, (resolved b inside').next]
      exact table.rules.apart a inside b inside'
  exact fun e inside => resolved_same (table.laid e inside) (resolved e inside)
    (outside_sameEntry rules' inside outside)

theorem addCounter_resolved {mem : Blob} {e : Nat}
    (resolved : ∀ e ∈ table.entries, Resolved table.reg e table.m mem) (member : e ∈ table.entries)
    (len : Nat) : ∀ e' ∈ table.entries, Resolved table.reg e' table.m (addCounter mem e len) :=
  resolved_outside resolved ((outside_store member (by omega) (by unfold sizeofEntry; omega)).trans
    (outside_store member (by omega) (by unfold sizeofEntry; omega)))

theorem comes_hotdrop {outcome : Outcome} (hotdrop : Bool) (closer : Comes table turns outcome) :
    Comes table turns (outcome.checkHotdrop hotdrop) := by
  cases outcome with
  | hang => exact closer
  | verdict v => trivial
  | goOn next =>
    cases hotdrop with
    | true => trivial
    | false => exact closer

section OnRules

variable (running : OnRules table s) (enough : workload table.m table.weight s < turns)

include running enough

theorem comes_edge {n : Nat} (edge : n ∈ succs table.m s.e) :
    Comes table turns (.goOn { s with e := n }) := by
  refine .inl ⟨⟨running.resolved, running.reach.tail edge, running.stack⟩, ?_⟩
  have lighter : table.weight n ≤ ((succs table.m s.e).map table.weight).sum :=
    single_le_sum (fun _ _ => zero_le _) _ (mem_map_of_mem edge)
  have light := table.heavier s.e running.reach
  unfold workload at enough ⊢
  dsimp only
  omega

theorem comes_next (other : ends table.m s.e = false) : Comes table turns (.goOn s.nextEntry) := by
  unfold Eval.nextEntry
  rw [(running.resolved s.e (table.closed s.e running.reach)).next]
  exact comes_edge running enough (succs_next other)

/-- **The standard target**: a verdict, a return or a jump. -/
theorem standardTarget_comes (standard : isStandard table.m (getTarget table.m s.e) = true) :
    Comes table turns (standardTarget table.info table.hook s) := by
  have found := running.resolved s.e (table.closed s.e running.reach)
  have light := table.heavier s.e running.reach
  unfold standardTarget
  rw [found.getTarget, found.verdict standard, found.next]
  dsimp only
  split
  · split
    · trivial
    split
    · exact .inr ⟨zero_lt_of_lt enough, rfl, running.resolved⟩
    rename_i top rest stack
    have back := running.stack
    rw [stack] at back
    obtain ⟨⟨reach, other⟩, back⟩ := forall_mem_cons.mp back
    rw [(running.resolved top (table.closed top reach)).next]
    refine .inl ⟨⟨running.resolved, reach.tail (succs_next other), back⟩, ?_⟩
    unfold workload at enough ⊢
    rw [stack, map_cons, sum_cons] at enough
    dsimp only
    omega
  rename_i positive
  have ways := succs_jump standard positive
  split
  · split
    · trivial
    refine .inl ⟨⟨running.resolved, running.reach.tail ?_, forall_mem_cons.mpr
      ⟨⟨running.reach, ends_false_of_verdict positive⟩, running.stack⟩⟩, ?_⟩
    · rw [ways]
      exact mem_cons_self
    rw [ways] at light
    simp only [map_cons, map_nil, sum_cons, sum_nil] at light
    unfold workload at enough ⊢
    rw [map_cons, sum_cons]
    dsimp only
    omega
  · refine comes_edge running enough ?_
    rw [ways]
    exact mem_cons_self

theorem doRule_comes (ans : Answers) :
    Comes table turns (doRule table.reg table.info table.hook ans s) := by
  have here := table.closed s.e running.reach
  have found := running.resolved s.e here
  obtain ⟨answer, applies⟩ := ruleMatches_some found ans
  unfold doRule
  rw [applies]
  cases answer with
  | false =>
    refine comes_next running enough ?_
    by_contra last
    rw [ruleMatches_ends found (by simpa using last)] at applies
    cases applies
  | true =>
    have counted := addCounter_resolved running.resolved here ans.packet.totLen
    show Comes table turns (applyRule table.reg table.info table.hook ans s)
    unfold applyRule
    generalize addCounter s.mem s.e ans.packet.totLen = mem at counted ⊢
    have running' : OnRules table { s with mem := mem } := ⟨counted, running.reach, running.stack⟩
    have found' := counted s.e here
    dsimp only
    rw [found'.getTarget]
    split
    · rename_i pointer
      exact standardTarget_comes running' enough (found'.standard.mp pointer)
    rename_i pointer
    have named : isStandard table.m (getTarget table.m s.e) = false := by
      rw [← not_eq_true]
      exact fun standard => pointer (found'.standard.mpr standard)
    split
    · exact comes_next running' enough (ends_false_of_named named)
    · trivial

end OnRules

/-- **At the underflow a packet gets its verdict.** -/
theorem doRule_underflow (resolved : ∀ e ∈ table.entries, Resolved table.reg e table.m s.mem)
    (under : s.e = (table.info.underflow table.hook).toNat) (ans : Answers) :
    s.e ∈ table.entries ∧ ∃ v, doRule table.reg table.info table.hook ans s = .verdict v := by
  have here := table.bottom
  have checked := table.checked
  have bare := table.bare
  rw [← under] at here checked bare
  unfold checkUnderflow at checked
  simp only [and_eq_true, or_eq_true, decide_eq_true_eq] at checked
  obtain ⟨⟨all, standard⟩, policy⟩ := checked
  have counted := addCounter_resolved resolved here ans.packet.totLen s.e here
  have value : verdict table.m (getTarget table.m s.e) = -1 ∨
      verdict table.m (getTarget table.m s.e) = -2 := by
    have low : -2 ^ 31 ≤ verdict table.m (getTarget table.m s.e) := le_toInt _
    have high : verdict table.m (getTarget table.m s.e) < 2 ^ 31 := toInt_lt
    unfold nfDrop nfAccept at policy
    omega
  unfold doRule
  rw [ruleMatches_always (resolved s.e here) all bare]
  unfold applyRule
  dsimp only
  rw [counted.getTarget, if_pos (counted.standard.mpr standard)]
  unfold standardTarget
  rw [counted.getTarget, counted.verdict standard, if_pos (by omega),
    if_pos (by unfold iptReturn; omega)]
  exact ⟨here, _, rfl⟩

/-! ### The whole run -/

/-- **Every run from a rule that can be reached** stays on entries and comes to a verdict. -/
theorem evalLoop_confined (fuel : Nat) {answers : Nat → Answers} {s : Eval}
    (within : HasTurns table fuel s) :
    (∀ e ∈ (evalLoop table.reg table.info table.hook fuel answers s).1, e ∈ table.entries) ∧
      ∃ v, (evalLoop table.reg table.info table.hook fuel answers s).2 = some v := by
  induction fuel generalizing answers s with
  | zero => rcases within with ⟨-, none⟩ | ⟨none, -⟩ <;> exact absurd none (not_lt_zero _)
  | succ fuel ih =>
    have round : s.e ∈ table.entries ∧
        Comes table fuel (doRule table.reg table.info table.hook (answers 0) s) := by
      rcases within with ⟨running, enough⟩ | ⟨-, under, resolved⟩
      · exact ⟨table.closed s.e running.reach,
          doRule_comes running (succ_lt_succ_iff.mp enough) (answers 0)⟩
      · obtain ⟨here, v, last⟩ := doRule_underflow resolved under (answers 0)
        rw [last]
        exact ⟨here, trivial⟩
    obtain ⟨here, next⟩ := round.imp_right (comes_hotdrop (answers 0).hotdrop)
    rw [evalLoop]
    generalize (doRule _ _ _ (answers 0) s).checkHotdrop (answers 0).hotdrop = outcome at next
    cases outcome with
    | hang => exact next.elim
    | verdict v => exact ⟨forall_mem_singleton.mpr here, v, rfl⟩
    | goOn next =>
      obtain ⟨inside, v, ended⟩ := @ih (fun n => answers (n + 1)) _ next
      exact ⟨forall_mem_cons.mpr ⟨here, inside⟩, v, ended⟩

end Rule

/-- **An accepted table that is clean keeps every packet on its entries.** From every valid hook, for
all answers of matches and targets and whatever the packets before have counted, only entries that
were checked are visited, and there is a verdict. -/
theorem table_confined {reg : Registry} {fuel : Nat} {repl : Replace} {m m' : Blob} {info : TableInfo}
    (accepted : translateTable reg fuel repl m = some (.ok (info, m'))) (clean : Clean repl m)
    (hook : Fin 5) (valid : repl.validHooks.getLsbD hook = true) :
    ∃ bound, ∀ mem, Outside (repl.entries m) m' mem → ∀ turns ≥ bound, ∀ answers,
      (∀ e ∈ (iptDoTable reg info mem hook turns answers).1,
        e < repl.size.toNat ∧ e ∈ repl.entries m) ∧
      ∃ v, (iptDoTable reg info mem hook turns answers).2 = some v := by
  obtain ⟨rules, resolved, hooks⟩ := translateTable_accepted clean accepted
  have ready := hooks hook valid
  obtain ⟨fin, ordered, member⟩ := ready.finished
  obtain ⟨weight, heavier⟩ := ordered_weight ordered
  let table : Entered := ⟨reg, info, hook, _, _, m, _, weight, rules, clean.laid, ready.closed,
    fun e reach => heavier e (ordered_closed ordered member reach),
    by rw [ready.underflow]; exact ready.member, by rw [ready.underflow]; exact ready.checked,
    by rw [ready.underflow]; exact clean.underflow hook valid⟩
  refine ⟨workload m weight ⟨m', (repl.hookEntry hook).toNat, []⟩ + 2,
    fun mem counted turns enough answers => ?_⟩
  have running : OnRules table ⟨mem, (repl.hookEntry hook).toNat, []⟩ :=
    ⟨@resolved_outside table _ _ resolved counted, .refl, nofun⟩
  have confined := @evalLoop_confined table turns answers _ (.inl ⟨running, enough⟩)
  rw [iptDoTable, ready.entry]
  refine ⟨fun e visited => ?_, confined.2⟩
  have inside := confined.1 e visited
  have := rules.inside e inside
  exact ⟨by omega, inside⟩

/-! ### Two tables -/

theorem reach_subset {m : Blob} {start e : Nat} {rules : List Nat} (first : start ∈ rules)
    (closed : ∀ a ∈ rules, ∀ b ∈ succs m a, b ∈ rules) (reach : Reach m start e) : e ∈ rules := by
  induction reach with
  | refl => exact first
  | tail _ edge ih => exact closed _ ih _ edge

/-- A block with the given bytes, and zero elsewhere. -/
def sparse (bytes : List (Nat × BitVec 8)) : Blob := fun a => (bytes.lookup a).getD 0

/-- No matches or targets but the standard one. -/
def bareRegistry : Registry :=
  ⟨0xc0000000, fun _ _ => .error .enoent, fun _ _ => .error .enoent, nofun⟩

/-- A table of three standard entries for `NF_INET_LOCAL_IN`. -/
def threeRules (underflow : BitVec 32) : Replace := ⟨2, 3, 456, fun _ => 0, fun _ => underflow⟩

/-- The first rule goes to the last, which returns; the policy is to accept. -/
def cleanBlob : Blob := sparse
  [(82, 2), (88, 112), (90, 152), (112, 40), (144, 48), (145, 1),
    (240, 112), (242, 152), (264, 40), (296, 0xfe), (297, 0xff), (298, 0xff), (299, 0xff),
    (392, 112), (394, 152), (416, 40), (448, 0xfb), (449, 0xff), (450, 0xff), (451, 0xff)]

theorem cleanBlob_clean : Clean (threeRules 152) cleanBlob := by
  have bare : targetOffset cleanBlob 152 = sizeofEntry := by decide +kernel
  refine ⟨by decide +kernel, fun h _ e reach => ?_, fun _ _ => bare⟩
  have member : e ∈ [0, 152, 304] := reach_subset mem_cons_self (by decide +kernel) reach
  have leads : ∀ a ∈ [0, 152, 304], ∀ n ∈ succs cleanBlob a, n ∈ (threeRules 152).entries cleanBlob := by
    decide +kernel
  exact leads e member

theorem table_confined_three_rules : ∃ info m' bound,
    translateTable bareRegistry 100 (threeRules 152) cleanBlob = some (.ok (info, m')) ∧
      ∀ turns ≥ bound, ∀ answers, ∃ v, (iptDoTable bareRegistry info m' 1 turns answers).2 = some v := by
  have accepts : ((translateTable bareRegistry 100 (threeRules 152) cleanBlob).bind
      Except.toOption).isSome = true := by decide +kernel
  obtain ⟨⟨info, m'⟩, found⟩ := isSome_iff_exists.mp accepts
  obtain ⟨result, accepted, ok⟩ := bind_eq_some_iff.mp found
  cases result with
  | error err => cases ok
  | ok result =>
    cases ok
    obtain ⟨bound, confined⟩ := table_confined accepted cleanBlob_clean 1 (by decide)
    exact ⟨info, m', bound, accepted, fun turns enough answers =>
      (confined m' .refl turns enough answers).2⟩

/-- The first rule goes to offset 184, inside the second entry, where the name of its target is read
as offsets; they lead to the third entry. -/
def middleBlob : Blob := sparse
  [(82, 2), (88, 112), (90, 152), (112, 40), (144, 184),
    (240, 112), (242, 152), (264, 40), (272, 112), (274, 120), (296, 0xfe), (297, 0xff), (298, 0xff),
    (299, 0xff),
    (392, 112), (394, 152), (416, 40), (448, 0xfe), (449, 0xff), (450, 0xff), (451, 0xff)]

/-- A packet of 20 bytes, and matches and targets that agree to everything. -/
def plainAnswers : Answers :=
  ⟨⟨0, 0, 0, false, 20, fun _ => 0, fun _ => 0⟩, fun _ => true, 0, false⟩

/-- An accepted table that jumps into the middle of an entry. -/
theorem jump_into_entry : ∃ info m',
    translateTable bareRegistry 100 (threeRules 304) middleBlob = some (.ok (info, m')) ∧
      184 ∈ (iptDoTable bareRegistry info m' 1 2 fun _ => plainAnswers).1 ∧
      184 ∉ (threeRules 304).entries middleBlob := by
  have visits : ((translateTable bareRegistry 100 (threeRules 304) middleBlob).bind fun result =>
      result.toOption.map fun table =>
        (iptDoTable bareRegistry table.1 table.2 1 2 fun _ => plainAnswers).1) = some [0, 184] := by
    decide +kernel
  obtain ⟨result, accepted, visited⟩ := bind_eq_some_iff.mp visits
  cases result with
  | error err => cases visited
  | ok table =>
    obtain ⟨info, m'⟩ := table
    have offsets : (iptDoTable bareRegistry info m' 1 2 fun _ => plainAnswers).1 = [0, 184] :=
      some.inj visited
    refine ⟨info, m', accepted, ?_, by decide +kernel⟩
    rw [offsets]
    decide

end KernelImx.Netfilter
