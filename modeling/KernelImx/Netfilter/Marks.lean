/-
**The search for loops is a depth-first search.**

`mark_source_chains` follows the rules without a stack of its own: a bit of `comefrom` says that a rule is
on the way, and `counters.pcnt` of a rule is the offset of the rule before it on the way. When the way
comes to a return it goes back to the last rule that jumped, and from there to the rule behind it.

* **`markSourceChains_ordered`**: a table that is not refused has no loops: the rules that can be reached
  from a hook are finished one after the other.
-/

import KernelImx.Lib.FinishOrder
import KernelImx.Netfilter.Layout

namespace KernelImx.Netfilter

open List KernelImx.Lib Nat

/-! ### Where a rule leads -/

/-- The rules that may follow a rule: none behind an unconditional return or verdict; for a jump its
target and the rule behind it. -/
def succs (m : Blob) (e : Nat) : List Nat :=
  if ends m e then []
  else if isStandard m (getTarget m e) && 0 ≤ verdict m (getTarget m e) then
    [(verdict m (getTarget m e)).toNat, e + nextOffset m e]
  else [e + nextOffset m e]

def Reach (m : Blob) : Nat → Nat → Prop := Relation.ReflTransGen fun a b => b ∈ succs m a

variable {e n : Nat}

section Succs

variable {m m' : Blob} {size : Nat}

theorem succs_next (other : ends m e = false) : e + nextOffset m e ∈ succs m e := by
  rw [succs, if_neg (by rw [other]; exact Bool.false_ne_true)]
  split
  · exact mem_cons_of_mem _ mem_cons_self
  · exact mem_cons_self

theorem succs_of_ends (last : ends m e = true) : succs m e = [] := if_pos last

theorem ends_of_succs (edge : n ∈ succs m e) : ends m e = false := by
  by_contra last
  rw [succs_of_ends (by simpa using last)] at edge
  cases edge

theorem succs_either {a b : Nat} (edge : a ∈ succs m e) (edge' : b ∈ succs m e)
    (jump : a ≠ e + nextOffset m e) : b = e + nextOffset m e ∨ b = a := by
  have other : ¬ends m e = true := by
    rw [ends_of_succs edge]
    exact Bool.false_ne_true
  rw [succs, if_neg other] at edge edge'
  split at edge
  · rename_i standard
    rw [if_pos standard] at edge'
    simp only [mem_cons, not_mem_nil, or_false] at edge edge'
    omega
  · simp only [mem_cons, not_mem_nil, or_false] at edge edge'
    exact absurd edge jump

theorem SameEntry.ends (same : SameEntry e m m') (laid : WellLaid size m e) :
    ends m' e = ends m e := by
  unfold Netfilter.ends
  rw [same.targetOffset, same.standard laid, same.unconditional]
  cases standard : isStandard m (Netfilter.getTarget m e) with
  | false => simp
  | true => rw [same.verdict laid standard]

theorem chase_succs {bound : BitVec 32} (same : SameEntry e m m') (laid : WellLaid size m e)
    (other : Netfilter.ends m e = false) (chased : chase bound m' e = some n) :
    n ∈ succs m e ∧ (n = e + nextOffset m e → ∀ b ∈ succs m e, b = n) := by
  unfold chase at chased
  rw [same.standard laid, same.next] at chased
  rw [succs, if_neg (by rw [other]; exact Bool.false_ne_true)]
  cases standard : isStandard m (getTarget m e) with
  | false =>
    rw [standard] at chased
    cases chased
    refine ⟨?_, fun _ b edge => ?_⟩
    · exact mem_cons_self
    · exact mem_singleton.mp edge
  | true =>
    rw [standard, same.verdict laid standard] at chased
    split at chased
    · rename_i positive
      rw [if_pos positive]
      split at chased
      · cases chased
      cases chased
      refine ⟨mem_cons_self, fun next b edge => ?_⟩
      rw [← next] at edge
      simpa using edge
    · rename_i negative
      cases chased
      rw [if_neg negative]
      exact ⟨mem_cons_self, fun _ b edge => mem_singleton.mp edge⟩

end Succs

/-! ### What is written -/

variable {mem : Blob} {j : Nat}

section Writes

variable {size hook e' : Nat} {entries : List Nat} {m : Blob}

/-- Two entries are the same, or far enough from each other. -/
def Far (e e' : Nat) : Prop := e' = e ∨ e + sizeofEntry ≤ e' ∨ e' + sizeofEntry ≤ e

theorem rules_far (rules : Rules size entries m) (member : e ∈ entries) (member' : e' ∈ entries) :
    Far e e' := by
  have long := rules.long e member
  have long' := rules.long e' member'
  rcases rules.apart e member e' member' with same | after | before
  · exact .inl same.symm
  · exact .inr (.inl (by omega))
  · exact .inr (.inr (by omega))

theorem comefrom_lt (mem : Blob) (e v : Nat) : comefrom (store 4 mem (e + 92) v) e = v % 2 ^ 32 :=
  load_store (le_refl 4) mem (e + 92) v

theorem comefrom_other (far : Far e e') (apart : e' ≠ e) (v : Nat) :
    comefrom (store 4 mem (e + 92) v) e' = comefrom mem e' := by
  unfold Far sizeofEntry at far
  exact load_store_apart (by omega)

theorem pcnt_of_comefrom (far : Far e e') (v : Nat) :
    pcnt (store 4 mem (e + 92) v) e' = pcnt mem e' := by
  unfold Far sizeofEntry at far
  exact load_store_apart (by omega)

theorem comefrom_setBack (far : Far e e') (p : Nat) : comefrom (setBack mem e p) e' = comefrom mem e' := by
  unfold Far sizeofEntry at far
  exact load_store_apart (by omega)

theorem pcnt_setBack {p : Nat} (small : p < 2 ^ 32) : pcnt (setBack mem e p) e = p := by
  have part : pcnt (setBack mem e p) e = p % 2 ^ 32 := load_store (by decide) mem (e + 96) p
  rw [part, mod_eq_of_lt small]

theorem pcnt_setBack_other (far : Far e e') (apart : e' ≠ e) (p : Nat) :
    pcnt (setBack mem e p) e' = pcnt mem e' := by
  unfold Far sizeofEntry at far
  exact load_store_apart (by omega)

theorem enter_bit (far : Far e e') (small : j < 32) :
    (comefrom (enter hook mem e) e').testBit j =
      ((comefrom mem e').testBit j || decide (e' = e ∧ (j = hook ∨ j = onWay))) := by
  by_cases here : e' = e
  · subst here
    rw [enter, comefrom_lt, testBit_mod_two_pow, testBit_or, testBit_or,
      testBit_two_pow, testBit_two_pow]
    simp [small, eq_comm]
  · rw [enter, comefrom_other far here]
    simp [here]

theorem unmark_bit (far : Far e e') (small : j < 32) :
    (comefrom (unmark mem e) e').testBit j =
      xor ((comefrom mem e').testBit j) (decide (e' = e ∧ j = onWay)) := by
  by_cases here : e' = e
  · subst here
    rw [unmark, comefrom_lt, testBit_mod_two_pow, testBit_xor, testBit_two_pow]
    simp [small, eq_comm]
  · rw [unmark, comefrom_other far here]
    simp [here]

variable (member : e ∈ entries)

include member

theorem enter_outside : Outside entries mem (enter hook mem e) :=
  outside_store member le_rfl (by unfold sizeofEntry; omega)

theorem unmark_outside : Outside entries mem (unmark mem e) :=
  outside_store member le_rfl (by unfold sizeofEntry; omega)

theorem setBack_outside (p : Nat) : Outside entries mem (setBack mem e p) :=
  outside_store member (by omega) (by unfold sizeofEntry; omega)

end Writes

/-! ### The way and the rules that are finished -/

/-- **A search from a hook**: the rules, which `m` describes, and the memory with which it begins. -/
structure Search where
  hook : Nat
  start : Nat
  size : Nat
  entries : List Nat
  m : Blob
  before : Blob
  small : hook < onWay
  narrow : size ≤ 2 ^ 32
  rules : Rules size entries m
  laid : ∀ e ∈ entries, WellLaid size m e
  closed : ∀ e, Reach m start e → e ∈ entries

/-- **The way, last rule first**: every rule points back to the one before it. Where the way went on
to the rule behind, all other ways out are finished. -/
def Way (search : Search) (mem : Blob) (fin : List Nat) : List Nat → Prop
  | [] => search.start ∈ fin
  | [p] => p = search.start ∧ pcnt mem p = p
  | p :: q :: rest => pcnt mem p = q ∧ p ∈ succs search.m q ∧
      (p = q + nextOffset search.m q → ∀ b ∈ succs search.m q, b = p ∨ b ∈ fin) ∧
      Way search mem fin (q :: rest)

/-- **The state of a search**: `marked` are on the way, `fin` are finished, and `comefrom` shows
both. -/
structure Traced (search : Search) (mem : Blob) (way marked fin : List Nat) : Prop where
  outside : Outside search.entries search.m mem
  path : Way search mem fin way
  reach : ∀ e ∈ way, Reach search.m search.start e
  nodup : marked.Nodup
  ordered : Ordered (succs search.m) fin
  bits : ∀ e ∈ search.entries, ∀ j < 32, (comefrom mem e).testBit j =
    if j = onWay then decide (e ∈ marked)
    else if j = search.hook then decide (e ∈ fin ∨ e ∈ marked)
    else (comefrom search.before e).testBit j

section Trails

variable {search : Search} {pos : Nat} {rest fin way marked : List Nat}

theorem way_congr {mem' : Blob} {fin' : List Nat} (more : fin ⊆ fin') (way : List Nat) :
    (∀ e ∈ way, pcnt mem' e = pcnt mem e) → Way search mem fin way → Way search mem' fin' way := by
  induction way with
  | nil => exact fun _ member => more member
  | cons p rest ih =>
    intro same path
    have here := same p mem_cons_self
    cases rest with
    | nil => exact ⟨path.1, here.trans path.2⟩
    | cons q rest =>
      obtain ⟨back, edge, explored, path⟩ := path
      refine ⟨here.trans back, edge, fun next b edge' => ?_,
        ih (fun e member => same e (mem_cons_of_mem p member)) path⟩
      exact (explored next b edge').imp_right fun finished => more finished

theorem Search.far (search : Search) (member : e ∈ search.entries) :
    ∀ e' ∈ search.entries, Far e e' :=
  fun _ => rules_far search.rules member

section

variable (trail : Traced search mem way marked fin)

include trail

theorem Traced.member : ∀ e ∈ way, e ∈ search.entries :=
  fun e on => search.closed e (trail.reach e on)

theorem Traced.onWay (member : e ∈ search.entries) :
    (comefrom mem e).testBit onWay = decide (e ∈ marked) := by
  rw [trail.bits e member _ (by decide), if_pos rfl]

theorem Traced.seen (member : e ∈ search.entries) :
    (comefrom mem e).testBit search.hook = decide (e ∈ fin ∨ e ∈ marked) := by
  have small := search.small
  rw [trail.bits e member _ (lt_trans small (by decide)), if_neg (Nat.ne_of_lt small), if_pos rfl]

theorem Traced.next (on : e ∈ way) : nextOffset mem e = nextOffset search.m e :=
  (outside_sameEntry search.rules (trail.member e on) trail.outside).next

end

theorem Traced.enter (trail : Traced search mem (pos :: rest) rest fin) (off : pos ∉ rest) :
    Traced search (enter search.hook mem pos) (pos :: rest) (pos :: rest) fin := by
  have here := trail.member pos mem_cons_self
  have far := search.far here
  refine { trail with
    outside := trail.outside.trans (enter_outside here)
    path := way_congr (Subset.refl _) _
      (fun e on => pcnt_of_comefrom (far e (trail.member e on)) _) trail.path
    nodup := nodup_cons.mpr ⟨off, trail.nodup⟩
    bits := fun e member j low => ?_ }
  rw [enter_bit (far e member) low, trail.bits e member j low, Bool.eq_iff_iff]
  split_ifs <;> simp_all [or_comm, or_assoc]

theorem Traced.finish (trail : Traced search mem way marked fin)
    (done : ∀ b ∈ succs search.m pos, b ∈ fin) (here : pos ∈ marked) :
    Traced search mem way marked (pos :: fin) := by
  refine { trail with
    path := way_congr (subset_cons_self pos fin) way (fun _ _ => rfl) trail.path
    ordered := ⟨done, trail.ordered⟩
    bits := fun e member j low => ?_ }
  have same : e ∈ pos :: fin ∨ e ∈ marked ↔ e ∈ fin ∨ e ∈ marked := by
    rw [mem_cons, or_assoc, or_iff_right_iff_imp]
    rintro rfl
    exact .inr here
  rw [trail.bits e member j low]
  simp only [same]

/-- The memory when the way has gone back from `pos`. -/
def leave (mem : Blob) (pos : Nat) : Blob := setBack (unmark mem pos) pos 0

theorem Traced.leave (trail : Traced search mem (pos :: rest) (pos :: rest) fin) (done : pos ∈ fin) :
    Traced search (leave mem pos) rest rest fin := by
  have here := trail.member pos mem_cons_self
  have far := search.far here
  obtain ⟨fresh, nodup⟩ := nodup_cons.mp trail.nodup
  have back : ∀ e ∈ rest, pcnt (Netfilter.leave mem pos) e = pcnt mem e := by
    intro e on
    have away := far e (trail.member e (mem_cons_of_mem pos on))
    rw [Netfilter.leave, pcnt_setBack_other away (ne_of_mem_of_not_mem on fresh), unmark,
      pcnt_of_comefrom away]
  refine ⟨trail.outside.trans ((unmark_outside here).trans (setBack_outside here 0)), ?_,
    fun e on => trail.reach e (mem_cons_of_mem pos on), nodup, trail.ordered,
    fun e member j low => ?_⟩
  · cases rest with
    | nil => exact trail.path.1 ▸ done
    | cons q rest => exact way_congr (Subset.refl fin) (q :: rest) back trail.path.2.2.2
  · rw [Netfilter.leave, comefrom_setBack (far e member), unmark_bit (far e member) low,
      trail.bits e member j low]
    by_cases same : e = pos
    · split_ifs <;> simp_all
    · simp [same]

theorem Traced.step (trail : Traced search mem (pos :: rest) (pos :: rest) fin)
    (edge : n ∈ succs search.m pos)
    (explored : n = pos + nextOffset search.m pos → ∀ b ∈ succs search.m pos, b = n ∨ b ∈ fin)
    (fresh : n ∉ pos :: rest) :
    Traced search (setBack mem n pos) (n :: pos :: rest) (pos :: rest) fin := by
  have reached : Reach search.m search.start n := (trail.reach pos mem_cons_self).tail edge
  have inside := search.closed n reached
  have far := search.far inside
  have low : pos < 2 ^ 32 := by
    have := search.rules.inside pos (trail.member pos mem_cons_self)
    have := search.narrow
    omega
  refine { trail with
    outside := trail.outside.trans (setBack_outside inside pos)
    path := ⟨pcnt_setBack low, edge, explored, ?_⟩
    reach := forall_mem_cons.mpr ⟨reached, trail.reach⟩
    bits := fun e member j => ?_ }
  · refine way_congr (Subset.refl fin) (pos :: rest) (fun e on => ?_) trail.path
    exact pcnt_setBack_other (far e (trail.member e on)) (ne_of_mem_of_not_mem on fresh) pos
  · rw [comefrom_setBack (far e member)]
    exact trail.bits e member j

/-! ### A return -/

/-- Where a return leaves the search: at its end, or at a rule of which only the next is left. -/
def ReturnsTo (search : Search) : Back → Prop
  | .next mem => ∃ fin, Traced search mem [] [] fin
  | .along mem q => ∃ rest fin, Traced search mem (q :: rest) (q :: rest) fin ∧
      ends search.m q = false ∧ ∀ b ∈ succs search.m q, b = q + nextOffset search.m q ∨ b ∈ fin

theorem backtrack_succ (fuel : Nat) : backtrack (fuel + 1) mem pos =
      if pcnt mem pos = pos then some (.next (leave mem pos))
      else if pos = pcnt mem pos + nextOffset (leave mem pos) (pcnt mem pos) then
        backtrack fuel (leave mem pos) (pcnt mem pos)
      else some (.along (leave mem pos) (pcnt mem pos)) := by
  have same : pcnt (unmark mem pos) pos = pcnt mem pos := pcnt_of_comefrom (.inl rfl) _
  rw [backtrack, same]
  rfl

/-- **A return** finishes the rules that the way fell through to, up to a jump. -/
theorem backtrack_trail (fuel : Nat) : ∀ {mem : Blob} {pos : Nat} {rest fin : List Nat} {back : Back},
    Traced search mem (pos :: rest) (pos :: rest) fin → pos ∈ fin →
    backtrack fuel mem pos = some back → ReturnsTo search back := by
  induction fuel with
  | zero => exact fun _ _ returns => by cases returns
  | succ fuel ih =>
    intro mem pos rest fin back trail done returns
    rw [backtrack_succ fuel] at returns
    have left := trail.leave done
    cases rest with
    | nil =>
      rw [if_pos trail.path.2] at returns
      cases returns
      exact ⟨fin, left⟩
    | cons q rest =>
      obtain ⟨pointer, edge, explored, -⟩ := trail.path
      have apart : q ≠ pos := ne_of_mem_of_not_mem mem_cons_self (nodup_cons.mp trail.nodup).1
      rw [pointer, if_neg apart, left.next mem_cons_self] at returns
      split at returns
      · rename_i fell
        have finished : ∀ b ∈ succs search.m q, b ∈ fin := by
          intro b edge'
          rcases explored fell b edge' with rfl | finished
          · exact done
          · exact finished
        exact ih (left.finish finished mem_cons_self) mem_cons_self returns
      · rename_i jumped
        cases returns
        refine ⟨rest, fin, left, ends_of_succs edge, fun b edge' => ?_⟩
        rcases succs_either edge edge' jumped with next | same
        · exact .inl next
        · rw [same]
          exact .inr done

/-! ### The whole search -/

/-- The search goes on from `pos`, or will find that the rule is already on the way. -/
def Goes (search : Search) (mem : Blob) (pos : Nat) : Prop :=
  (comefrom mem pos).testBit onWay = true ∨ ∃ rest fin, Traced search mem (pos :: rest) rest fin

theorem Traced.goes (trail : Traced search mem (pos :: rest) (pos :: rest) fin)
    (edge : n ∈ succs search.m pos)
    (explored : n = pos + nextOffset search.m pos → ∀ b ∈ succs search.m pos, b = n ∨ b ∈ fin) :
    Goes search (setBack mem n pos) n := by
  by_cases fresh : n ∈ pos :: rest
  · left
    rw [comefrom_setBack (.inl rfl), trail.onWay (trail.member n fresh)]
    exact decide_eq_true fresh
  · exact .inr ⟨pos :: rest, fin, trail.step edge explored fresh⟩

def TurnsTo (search : Search) : Turn → Prop
  | .refused => True
  | .next mem => ∃ fin, Traced search mem [] [] fin
  | .goOn mem pos => Goes search mem pos

theorem turn_trail {bound : BitVec 32} {fuel : Nat} {result : Turn} (going : Goes search mem pos)
    (turns : turn bound search.hook fuel mem pos = some result) : TurnsTo search result := by
  unfold turn at turns
  rcases going with loop | ⟨rest, fin, trail⟩
  · rw [if_pos loop] at turns
    cases turns
    trivial
  have here := trail.member pos mem_cons_self
  split at turns
  · cases turns
    trivial
  rename_i off
  rw [trail.onWay here, decide_eq_true_eq] at off
  have entered := trail.enter off
  have same := outside_sameEntry search.rules here entered.outside
  have ends_eq := same.ends (search.laid pos here)
  dsimp only at turns
  split at turns
  · rename_i returns
    split at turns
    · cases turns
      trivial
    -- the rule is finished, now or before
    have finished : ∃ fin, Traced search (enter search.hook mem pos) (pos :: rest) (pos :: rest) fin ∧
        pos ∈ fin := by
      by_cases last : ends search.m pos = true
      · refine ⟨pos :: fin, entered.finish ?_ mem_cons_self, mem_cons_self⟩
        rw [succs_of_ends last]
        exact nofun
      · rw [ends_eq, Bool.eq_false_iff.mpr last, Bool.false_or, trail.seen here,
          decide_eq_true_eq] at returns
        exact ⟨fin, entered, returns.resolve_right off⟩
    obtain ⟨fin, trail, done⟩ := finished
    split at turns
    · cases turns
    · cases turns
      exact backtrack_trail fuel trail done ‹_›
    rename_i goes
    cases turns
    obtain ⟨rest, fin, trail, other, explored⟩ := backtrack_trail fuel trail done goes
    rw [trail.next mem_cons_self]
    exact trail.goes (succs_next other) fun _ => explored
  · rename_i goes
    rw [Bool.or_eq_true, not_or, ends_eq] at goes
    split at turns
    · cases turns
      trivial
    · rename_i n chased
      cases turns
      obtain ⟨edge, only⟩ := chase_succs same (search.laid pos here) (by simpa using goes.1) chased
      exact entered.goes edge fun next b edge' => .inl (only next b edge')

theorem markLoop_trail {bound : BitVec 32} {mem' : Blob} (fuel : Nat) : ∀ {mem : Blob} {pos : Nat},
    Goes search mem pos → markLoop bound search.hook fuel mem pos = some (some mem') →
      ∃ fin, Traced search mem' [] [] fin := by
  induction fuel with
  | zero => exact fun _ ends => by cases ends
  | succ fuel ih =>
    intro mem pos going finishes
    rw [markLoop] at finishes
    split at finishes
    · cases finishes
    · cases finishes
    · cases finishes
      exact turn_trail going ‹_›
    · rename_i turns
      have goes := turn_trail going turns
      exact ih goes finishes

theorem going_start (outside : Outside search.entries search.m search.before)
    (clear : ∀ e ∈ search.entries, (comefrom search.before e).testBit onWay = false)
    (unseen : ∀ e ∈ search.entries, (comefrom search.before e).testBit search.hook = false) :
    Goes search (setBack search.before search.start search.start) search.start := by
  have member := search.closed search.start .refl
  have low : search.start < 2 ^ 32 := by
    have := search.rules.inside search.start member
    have := search.narrow
    omega
  refine .inr ⟨[], [], outside.trans (setBack_outside member search.start), ⟨rfl, pcnt_setBack low⟩,
    fun e here => ?_, nodup_nil, trivial, fun e inside j _ => ?_⟩
  · rw [mem_singleton.mp here]
    exact .refl
  · rw [comefrom_setBack (search.far member e inside)]
    split_ifs with isOnWay isHook
    · rw [isOnWay, clear e inside]
      rfl
    · rw [isHook, unseen e inside]
      rfl
    · rfl

end Trails

/-- **A table that is not refused has no loops.** From every hook the rules that can be reached were
finished one after the other. -/
theorem markSourceChains_ordered {size fuel : Nat} {entries : List Nat} {m m' : Blob}
    {validHooks : BitVec 32} {info : TableInfo} (rules : Rules size entries m)
    (laid : ∀ e ∈ entries, WellLaid size m e) (narrow : size ≤ 2 ^ 32)
    (closed : ∀ h : Fin 5, validHooks.getLsbD h = true →
      ∀ e, Reach m (info.hookEntry h).toNat e → e ∈ entries)
    (hooks : List (Fin 5)) : hooks.Nodup → ∀ {mem : Blob}, Outside entries m mem →
      (∀ e ∈ entries, (comefrom mem e).testBit onWay = false) →
      (∀ h ∈ hooks, ∀ e ∈ entries, (comefrom mem e).testBit h = false) →
      markSourceChains fuel validHooks info hooks mem = some (some m') →
      Outside entries m m' ∧ ∀ h ∈ hooks, validHooks.getLsbD h = true →
        ∃ fin, Ordered (succs m) fin ∧ (info.hookEntry h).toNat ∈ fin := by
  induction hooks with
  | nil =>
    intro _ mem outside _ _ marked
    cases marked
    exact ⟨outside, nofun⟩
  | cons hook rest ih =>
    intro nodup mem outside clear unseen marked
    obtain ⟨new, nodup⟩ := nodup_cons.mp nodup
    rw [markSourceChains] at marked
    split at marked
    · rename_i invalid
      obtain ⟨outside', ordered⟩ := ih nodup outside clear
        (fun h member => unseen h (mem_cons_of_mem hook member)) marked
      refine ⟨outside', forall_mem_cons.mpr ⟨fun valid => ?_, ordered⟩⟩
      rw [invalid] at valid
      cases valid
    rename_i valid
    have valid' : validHooks.getLsbD hook = true := by simpa using valid
    dsimp only at marked
    split at marked
    · rename_i mem₁ finishes
      let search : Search := ⟨hook, (info.hookEntry hook).toNat, size, entries, m, mem, hook.isLt,
        narrow, rules, laid, closed hook valid'⟩
      have going := @going_start search outside clear (unseen hook mem_cons_self)
      obtain ⟨fin, finished⟩ := markLoop_trail fuel going finishes
      have unseen' : ∀ h ∈ rest, ∀ e ∈ entries, (comefrom mem₁ e).testBit h = false := by
        intro h member e inside
        have other : (h : Nat) ≠ hook := by
          intro same
          exact new (Fin.ext same ▸ member)
        rw [finished.bits e inside h (by omega),
          if_neg (Nat.ne_of_lt (show _ < onWay from h.isLt)), if_neg other]
        exact unseen h (mem_cons_of_mem hook member) e inside
      obtain ⟨outside', ordered⟩ := ih nodup finished.outside
        (fun e inside => (finished.onWay inside).trans (decide_eq_false not_mem_nil)) unseen' marked
      exact ⟨outside', forall_mem_cons.mpr
        ⟨fun _ => ⟨fin, finished.ordered, finished.path⟩, ordered⟩⟩
    · rename_i other
      exact absurd marked (other m')

end KernelImx.Netfilter
