/-
**The entries of a table and what the first walk leaves of them.**

Main result: `checkEntries_walked`.
-/

import Mathlib.Data.List.Basic
import KernelImx.Netfilter.Eval

namespace KernelImx.Netfilter

open Function KernelImx.Lib List

/-! ### Entries -/

/-- The offsets of an `xt_entry_foreach` from `e` on. -/
def entryStarts (m : Blob) (size : Nat) : Nat → Nat → List Nat
  | 0, _ => []
  | fuel + 1, e => if e < size then e :: entryStarts m size fuel (e + nextOffset m e) else []

def Replace.entries (repl : Replace) (m : Blob) : List Nat :=
  entryStarts m repl.size.toNat (repl.size.toNat + 1) 0

/-- The end of the matches of an entry, from the match at `t` on. -/
def matchesEnd (m : Blob) (e : Nat) : Nat → Nat → Option Nat
  | 0, _ => none
  | fuel + 1, t => if t < getTarget m e then matchesEnd m e fuel (t + unionSize m t) else some t

/-- **Header, matches and target of an entry lie one behind the other**, inside the entry and the
table. -/
structure WellLaid (size : Nat) (m : Blob) (e : Nat) : Prop where
  header : sizeofEntry ≤ targetOffset m e
  matched : matchesEnd m e (targetOffset m e + 1) (e + sizeofEntry) = some (getTarget m e)
  target : targetOffset m e + sizeofTarget ≤ nextOffset m e
  verdict : isStandard m (getTarget m e) = true → targetOffset m e + sizeofTarget + 4 ≤ nextOffset m e
  inside : e + nextOffset m e ≤ size

instance (size : Nat) (m : Blob) (e : Nat) : Decidable (WellLaid size m e) :=
  decidable_of_iff
    (sizeofEntry ≤ targetOffset m e ∧
      matchesEnd m e (targetOffset m e + 1) (e + sizeofEntry) = some (getTarget m e) ∧
      targetOffset m e + sizeofTarget ≤ nextOffset m e ∧
      (isStandard m (getTarget m e) = true →
        targetOffset m e + sizeofTarget + 4 ≤ nextOffset m e) ∧
      e + nextOffset m e ≤ size)
    ⟨fun ⟨header, matched, target, verdict, inside⟩ => ⟨header, matched, target, verdict, inside⟩,
      fun ⟨header, matched, target, verdict, inside⟩ => ⟨header, matched, target, verdict, inside⟩⟩

section Starts

variable {m : Blob} {size : Nat}

theorem entryStarts_ge (fuel : Nat) : ∀ {e s : Nat}, s ∈ entryStarts m size fuel e → e ≤ s := by
  induction fuel with
  | zero => exact nofun
  | succ fuel ih =>
    intro e s member
    rw [entryStarts] at member
    split at member
    · rcases mem_cons.mp member with rfl | member
      · exact le_refl s
      · have := ih member
        omega
    · cases member

theorem entryStarts_apart (fuel : Nat) : ∀ {e s s' : Nat}, s ∈ entryStarts m size fuel e →
    s' ∈ entryStarts m size fuel e →
    s = s' ∨ s + nextOffset m s ≤ s' ∨ s' + nextOffset m s' ≤ s := by
  induction fuel with
  | zero => exact nofun
  | succ fuel ih =>
    intro e s s' member member'
    rw [entryStarts] at member member'
    split at member
    · rename_i inside
      rw [if_pos inside] at member'
      rcases mem_cons.mp member with rfl | later <;>
        rcases mem_cons.mp member' with rfl | later'
      · exact .inl rfl
      · exact .inr (.inl (entryStarts_ge fuel later'))
      · exact .inr (.inr (entryStarts_ge fuel later))
      · exact ih later later'
    · cases member

end Starts

/-! ### What is written -/

/-- Nothing but `comefrom` and `counters` of the entries is different. -/
def Outside (entries : List Nat) (m m' : Blob) : Prop :=
  ∀ a, (∀ e ∈ entries, a < e + 92 ∨ e + sizeofEntry ≤ a) → m' a = m a

/-- An entry is the same but for `comefrom` and `counters`. -/
structure SameEntry (e : Nat) (m m' : Blob) : Prop where
  header : ∀ a, e ≤ a → a < e + 92 → m' a = m a
  body : ∀ a, e + sizeofEntry ≤ a → a < e + nextOffset m e → m' a = m a

/-- **The entries of a table that was walked**: long enough, and not overlapping. -/
structure Rules (size : Nat) (entries : List Nat) (m : Blob) : Prop where
  inside : ∀ e ∈ entries, e + sizeofEntry < size
  long : ∀ e ∈ entries, sizeofEntry + sizeofTarget ≤ nextOffset m e
  apart : ∀ e ∈ entries, ∀ e' ∈ entries,
    e = e' ∨ e + nextOffset m e ≤ e' ∨ e' + nextOffset m e' ≤ e

section Same

variable {size e : Nat} {entries : List Nat} {m m' m'' : Blob}

theorem Outside.refl : Outside entries m m := fun _ _ => rfl

theorem Outside.trans (first : Outside entries m m') (second : Outside entries m' m'') :
    Outside entries m m'' := fun a away => (second a away).trans (first a away)

theorem outside_store {n o v : Nat} (member : e ∈ entries) (low : e + 92 ≤ o)
    (high : o + n ≤ e + sizeofEntry) : Outside entries m (store n m o v) := by
  intro a away
  apply store_apart
  have := away e member
  omega

theorem outside_sameEntry (rules : Rules size entries m) (member : e ∈ entries)
    (outside : Outside entries m m') : SameEntry e m m' := by
  refine ⟨fun a low high => outside a fun e' member' => ?_,
    fun a low high => outside a fun e' member' => ?_⟩
  · have other := rules.long e' member'
    rcases rules.apart e member e' member' with rfl | after | before <;> omega
  · rcases rules.apart e member e' member' with rfl | after | before <;> omega

section Header

variable (header : ∀ a, e ≤ a → a < e + 92 → m' a = m a)

include header

theorem nextOffset_congr : nextOffset m' e = nextOffset m e :=
  load_congr 2 fun a low high => header a (by omega) (by omega)

theorem targetOffset_congr : targetOffset m' e = targetOffset m e :=
  load_congr 2 fun a low high => header a (by omega) (by omega)

theorem getTarget_congr : getTarget m' e = getTarget m e := by
  rw [getTarget, targetOffset_congr header]
  rfl

theorem unconditional_congr : unconditional m' e = unconditional m e := by
  unfold unconditional
  rw [Bool.eq_iff_iff, all_eq_true, all_eq_true]
  refine forall₂_congr fun i member => ?_
  have inside := mem_range.mp member
  rw [header (e + i) (by omega) (by omega)]

end Header

variable (same : SameEntry e m m')

include same

theorem SameEntry.next : nextOffset m' e = nextOffset m e := nextOffset_congr same.header

theorem SameEntry.targetOffset : targetOffset m' e = targetOffset m e :=
  targetOffset_congr same.header

theorem SameEntry.getTarget : getTarget m' e = getTarget m e := getTarget_congr same.header

theorem SameEntry.unconditional : unconditional m' e = unconditional m e :=
  unconditional_congr same.header

theorem SameEntry.standard (laid : WellLaid size m e) :
    isStandard m' (Netfilter.getTarget m' e) = isStandard m (Netfilter.getTarget m e) := by
  have low := laid.header
  have high := laid.target
  rw [same.getTarget]
  unfold isStandard
  unfold Netfilter.getTarget sizeofTarget at *
  rw [same.body (e + Netfilter.targetOffset m e + 2) (by omega) (by omega)]

theorem SameEntry.verdict (laid : WellLaid size m e)
    (standard : isStandard m (Netfilter.getTarget m e) = true) :
    verdict m' (Netfilter.getTarget m' e) = verdict m (Netfilter.getTarget m e) := by
  have low := laid.header
  have high := laid.verdict standard
  rw [same.getTarget]
  unfold Netfilter.verdict
  unfold Netfilter.getTarget sizeofTarget at *
  rw [load_congr 4 fun a low' high' => same.body a (by omega) (by omega)]

end Same

/-! ### The first walk -/

/-- The hook entries and underflows that are set belong to entries. -/
structure HooksIn (repl : Replace) (m : Blob) (entries : List Nat) (info : TableInfo) : Prop where
  size : info.size = repl.size
  hookEntry : ∀ h, info.hookEntry h = invalidHook ∨
    info.hookEntry h = repl.hookEntry h ∧ (repl.hookEntry h).toNat ∈ entries
  underflow : ∀ h, info.underflow h = invalidHook ∨
    info.underflow h = repl.underflow h ∧ (repl.underflow h).toNat ∈ entries ∧
      checkUnderflow m (repl.underflow h).toNat = true

section Walk

variable {repl : Replace} {m cur m' : Blob} {info info' : TableInfo} {e : Nat} {entries : List Nat}

theorem checkUnderflow_congr (same : ∀ a, e ≤ a → cur a = m a) :
    checkUnderflow cur e = checkUnderflow m e := by
  have entry : SameEntry e m cur := ⟨fun a low _ => same a low, fun a low _ => same a (by omega)⟩
  have target : e ≤ getTarget m e := Nat.le_add_right _ _
  have name : isStandard cur (getTarget m e) = isStandard m (getTarget m e) := by
    unfold isStandard
    rw [same _ (by omega)]
  have value : verdict cur (getTarget m e) = verdict m (getTarget m e) := by
    unfold verdict
    rw [load_congr 4 fun a low _ => same a (by omega)]
  rw [checkUnderflow, entry.getTarget, entry.unconditional, name, value]
  rfl

section Hooks

variable (member : e ∈ entries) (same : ∀ a, e ≤ a → cur a = m a)

include member same

theorem checkHook_in {h : Fin 5} (hooks : HooksIn repl m entries info)
    (ok : checkHook repl cur e info h = .ok info') : HooksIn repl m entries info' := by
  unfold checkHook at ok
  split at ok
  · cases ok
    exact hooks
  -- first the hook entry, then the underflow
  generalize chosen : (if e = (repl.hookEntry h).toNat then _ else info) = middle at ok
  have entry : HooksIn repl m entries middle := by
    rw [← chosen]
    split
    case isTrue here =>
      refine { hooks with hookEntry := fun other => ?_ }
      by_cases equal : other = h
      · rw [equal]
        exact .inr ⟨update_self _ _ _, here ▸ member⟩
      · dsimp only
        rw [update_of_ne equal]
        exact hooks.hookEntry other
    case isFalse => exact hooks
  split at ok
  case isFalse =>
    cases ok
    exact entry
  case isTrue here =>
    split at ok
    case isFalse => cases ok
    case isTrue checked =>
      cases ok
      refine { entry with underflow := fun other => ?_ }
      by_cases equal : other = h
      · rw [equal]
        exact .inr ⟨update_self _ _ _, here ▸ member, here ▸ checkUnderflow_congr same ▸ checked⟩
      · dsimp only
        rw [update_of_ne equal]
        exact entry.underflow other

theorem checkHooks_in (left : List (Fin 5)) {info : TableInfo} (hooks : HooksIn repl m entries info)
    (ok : checkHooks repl cur e left info = .ok info') : HooksIn repl m entries info' := by
  induction left generalizing info with
  | nil =>
    cases ok
    exact hooks
  | cons h rest ih =>
    rw [checkHooks] at ok
    split at ok
    · cases ok
    · exact ih (checkHook_in member same hooks ‹_›) ok

end Hooks

/-- **What the first walk has established** about the entries it has seen. -/
structure Walked (repl : Replace) (m : Blob) (entries : List Nat) (cur m' : Blob) : Prop where
  inside : ∀ s ∈ entries, s + sizeofEntry < repl.size.toNat
  long : ∀ s ∈ entries, sizeofEntry + sizeofTarget ≤ nextOffset m s
  outside : Outside entries cur m'
  fresh : ∀ s ∈ entries, comefrom m' s = 0

theorem clearEntry_outside (a : Nat) (away : a < e + 92 ∨ e + sizeofEntry ≤ a) :
    clearEntry cur e a = cur a := by
  unfold sizeofEntry at away
  rw [clearEntry, store_apart (by omega), store_apart (by omega)]

theorem walked_cons {rest : List Nat} (inside : e + sizeofEntry < repl.size.toNat)
    (long : sizeofEntry + sizeofTarget ≤ nextOffset m e) (later : ∀ s ∈ rest, e + nextOffset m e ≤ s)
    (walked : Walked repl m rest (clearEntry cur e) m') : Walked repl m (e :: rest) cur m' := by
  refine ⟨forall_mem_cons.mpr ⟨inside, walked.inside⟩,
    forall_mem_cons.mpr ⟨long, walked.long⟩, fun a away => ?_,
    forall_mem_cons.mpr ⟨?_, walked.fresh⟩⟩
  · rw [walked.outside a (forall_mem_cons.mp away).2]
    exact clearEntry_outside a (forall_mem_cons.mp away).1
  · have kept : comefrom m' e = comefrom (clearEntry cur e) e := by
      refine load_congr 4 fun a low high => walked.outside a fun s member => ?_
      have := later s member
      omega
    rw [kept, comefrom, clearEntry, load_store (le_refl 4)]
    rfl

/-- **The first walk** checks every entry, and takes the hooks from them. -/
theorem checkEntries_walked (fuel : Nat) {e i i' : Nat} {info : TableInfo} {cur : Blob}
    (same : ∀ a, e ≤ a → cur a = m a)
    (listed : ∀ s ∈ entryStarts m repl.size.toNat fuel e, s ∈ entries) (hooks : HooksIn repl m entries info)
    (ok : checkEntries repl fuel e i info cur = .ok (i', info', m')) :
    Walked repl m (entryStarts m repl.size.toNat fuel e) cur m' ∧ HooksIn repl m entries info' := by
  induction fuel generalizing e i i' info cur with
  | zero =>
    cases ok
  | succ fuel ih =>
    rw [checkEntries] at ok
    rw [entryStarts] at listed ⊢
    split at ok
    · rename_i below
      rw [if_pos below] at listed ⊢
      obtain ⟨member, listed⟩ := forall_mem_cons.mp listed
      unfold checkEntrySizeAndHooks at ok
      split at ok
      · cases ok
      rename_i info₁ m₁ checked
      split at checked
      · cases checked
      split at checked
      · cases checked
      split at checked
      · cases checked
      cases checked
      have hooks₁ := checkHooks_in member same _ hooks ‹_›
      have next : nextOffset cur e = nextOffset m e := load_congr 2 fun a low _ => same a (by omega)
      have next' : nextOffset (clearEntry cur e) e = nextOffset m e := by
        rw [← next]
        refine load_congr 2 fun a low high => clearEntry_outside a (.inl (by omega))
      rw [next'] at ok
      have same' : ∀ a, e + nextOffset m e ≤ a → clearEntry cur e a = m a := by
        intro a above
        rw [clearEntry_outside a (.inr (by omega)), same a (by omega)]
      obtain ⟨walked, hooks'⟩ := ih same' listed (by split; exacts [{ hooks₁ with }, hooks₁]) ok
      exact ⟨walked_cons (by omega) (by omega) (fun s => entryStarts_ge fuel) walked, hooks'⟩
    · rename_i above
      rw [if_neg above]
      cases ok
      exact ⟨⟨nofun, nofun, .refl, nofun⟩, hooks⟩

end Walk

end KernelImx.Netfilter
