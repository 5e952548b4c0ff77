/-
**The last walk**, which puts the addresses of matches and targets in the place of their names.

Nothing checks that the parts of an entry lie behind each other, but where they do (`WellLaid`) each
address lands in the part it belongs to.

Main result: `findCheckEntries_resolved`.
-/

import KernelImx.Netfilter.Layout

namespace KernelImx.Netfilter

open KernelImx.Lib List

/-- **What a packet finds in an entry**, compared to what user space has written there. -/
structure Resolved (reg : Registry) (e : Nat) (m mem : Blob) : Prop where
  next : nextOffset mem e = nextOffset m e
  targetOffset : targetOffset mem e = targetOffset m e
  unconditional : unconditional mem e = unconditional m e
  standard : kernelPointer mem (getTarget m e) = reg.standard.toNat ↔
    isStandard m (getTarget m e) = true
  verdict : isStandard m (getTarget m e) = true →
    verdict mem (getTarget m e) = verdict m (getTarget m e)
  matched : matchesEnd mem e (Netfilter.targetOffset m e + 1) (e + sizeofEntry) = some (getTarget m e)

variable {reg : Registry} {size e t : Nat} {cur m cur' : Blob} {ext : Extension}

theorem matchesEnd_ge (fuel : Nat) : ∀ {t last : Nat}, matchesEnd m e fuel t = some last → t ≤ last := by
  induction fuel with
  | zero => exact nofun
  | succ fuel ih =>
    intro t last ends
    rw [matchesEnd] at ends
    split at ends
    · have := ih ends
      omega
    · cases ends
      exact le_refl t

theorem matchesEnd_congr (header : ∀ a, e ≤ a → a < e + 92 → cur a = m a) (fuel : Nat) :
    ∀ {t : Nat}, (∀ a, t ≤ a → a < getTarget m e + 2 → cur a = m a) →
      matchesEnd cur e fuel t = matchesEnd m e fuel t := by
  induction fuel with
  | zero => exact fun _ => rfl
  | succ fuel ih =>
    intro t same
    rw [matchesEnd, matchesEnd, getTarget_congr header]
    split
    · have sizes : unionSize cur t = unionSize m t :=
        load_congr 2 fun a low high => same a low (by omega)
      rw [sizes]
      exact ih fun a low high => same a (by omega) high
    · rfl

theorem checkExtension_spec (ok : checkExtension ext cur e t = .ok cur') :
    cur' = cur ∧ sizeofTarget ≤ unionSize cur t := by
  unfold checkExtension at ok
  split at ok
  · cases ok
  split at ok
  · cases ok
  · cases ok
    exact ⟨rfl, by omega⟩

theorem findCheckMatch_spec (ok : findCheckMatch reg cur e t = .ok cur') :
    (∀ a, a < t + 4 ∨ t + 8 ≤ a → cur' a = cur a) ∧ sizeofTarget ≤ unionSize cur t := by
  unfold findCheckMatch at ok
  split at ok
  · cases ok
  rename_i ext _
  obtain ⟨rfl, fits⟩ := checkExtension_spec ok
  have size : unionSize (store 4 cur (t + 4) ext.address.toNat) t = unionSize cur t :=
    load_store_apart (by omega)
  rw [size] at fits
  exact ⟨fun a away => store_apart (by omega), fits⟩

theorem findCheckMatches_spec (fuel : Nat) {t : Nat} {cur : Blob} (behind : e + sizeofEntry ≤ t)
    (header : ∀ a, e ≤ a → a < e + 92 → cur a = m a)
    (same : ∀ a, t ≤ a → a < getTarget m e + 2 → cur a = m a)
    (ends : matchesEnd m e fuel t = some (getTarget m e))
    (ok : findCheckMatches reg e fuel cur t = .ok cur') :
    (∀ a, a < t ∨ getTarget m e ≤ a → cur' a = cur a) ∧
      matchesEnd cur' e fuel t = some (getTarget m e) := by
  induction fuel generalizing t cur with
  | zero =>
    cases ok
  | succ fuel ih =>
    unfold sizeofEntry at behind
    have target := getTarget_congr header
    rw [findCheckMatches, target] at ok
    rw [matchesEnd] at ends
    split at ok
    · rename_i below
      rw [if_pos below] at ends
      split at ok
      · cases ok
      rename_i cur₁ checked
      obtain ⟨frame, fits⟩ := findCheckMatch_spec checked
      unfold sizeofTarget at fits
      have sizes : unionSize cur t = unionSize m t :=
        load_congr 2 fun a low high => same a low (by omega)
      have sizes₁ : unionSize cur₁ t = unionSize m t := by
        rw [← sizes]
        exact load_congr 2 fun a low high => frame a (.inl (by omega))
      have room := matchesEnd_ge fuel ends
      rw [sizes₁] at ok
      have header₁ : ∀ a, e ≤ a → a < e + 92 → cur₁ a = m a := fun a low high =>
        (frame a (.inl (by omega))).trans (header a low high)
      obtain ⟨frame', ends'⟩ := ih (by unfold sizeofEntry; omega) header₁
        (fun a low high => (frame a (.inr (by omega))).trans (same a (by omega) high)) ends ok
      refine ⟨fun a away => ?_, ?_⟩
      · rw [frame' a (by omega), frame a (by omega)]
      have header' : ∀ a, e ≤ a → a < e + 92 → cur' a = m a := fun a low high =>
        (frame' a (.inl (by omega))).trans (header₁ a low high)
      have sizes' : unionSize cur' t = unionSize m t := by
        rw [← sizes₁]
        exact load_congr 2 fun a low high => frame' a (.inl (by omega))
      rw [matchesEnd, getTarget_congr header', if_pos below, sizes']
      exact ends'
    · rename_i above
      rw [if_neg above] at ends
      cases ok
      refine ⟨fun _ _ => rfl, ?_⟩
      rw [matchesEnd, target, if_neg above]
      exact ends

theorem xtRequestFindTarget_standard {revision : BitVec 8}
    (found : xtRequestFindTarget reg (userName m t) revision = .ok ext) :
    ext.address = reg.standard ↔ isStandard m t = true := by
  unfold xtRequestFindTarget at found
  unfold isStandard
  rw [decide_eq_true_iff]
  split at found
  · rename_i empty
    split at found
    · cases found
      exact iff_of_true rfl (Option.some.inj empty)
    · cases found
  · rename_i named
    exact iff_of_false (reg.others _ _ _ found) fun empty => named (congrArg some empty)

theorem findCheckTarget_spec (ok : findCheckTarget reg cur e = .ok cur') :
    (∀ a, a < getTarget cur e + 4 ∨ getTarget cur e + 8 ≤ a → cur' a = cur a) ∧
      (kernelPointer cur' (getTarget cur e) = reg.standard.toNat ↔
        isStandard cur (getTarget cur e) = true) := by
  unfold findCheckTarget at ok
  dsimp only at ok
  split at ok
  · cases ok
  rename_i ext found
  obtain ⟨rfl, -⟩ := checkExtension_spec ok
  refine ⟨fun a away => store_apart (by omega), ?_⟩
  rw [← xtRequestFindTarget_standard found, kernelPointer, load_store (le_refl 4),
    Nat.mod_eq_of_lt (show ext.address.toNat < 256 ^ 4 from ext.address.isLt)]
  exact BitVec.toNat_inj

theorem findCheckEntry_resolved (laid : WellLaid size m e) (same : SameEntry e m cur)
    (ok : findCheckEntry reg cur e = .ok cur') :
    (∀ a, a < e + sizeofEntry ∨ e + nextOffset m e ≤ a → cur' a = cur a) ∧
      Resolved reg e m cur' := by
  have header := laid.header
  have room := laid.target
  have target : getTarget m e = e + targetOffset m e := rfl
  unfold sizeofEntry at header
  unfold sizeofTarget at room
  unfold findCheckEntry at ok
  split at ok
  · cases ok
  split at ok
  · cases ok
  rename_i cur₁ matched
  rw [same.targetOffset] at matched
  obtain ⟨frame, ends⟩ := findCheckMatches_spec _ le_rfl same.header
    (fun a low high => same.body a low (by omega)) laid.matched matched
  have header₁ : ∀ a, e ≤ a → a < e + 92 → cur₁ a = m a := fun a low high =>
    (frame a (.inl (by unfold sizeofEntry; omega))).trans (same.header a low high)
  obtain ⟨frame', pointer⟩ := findCheckTarget_spec ok
  rw [getTarget_congr header₁] at frame' pointer
  -- the bytes of the target but for its address
  have body : ∀ a, getTarget m e ≤ a → a < e + nextOffset m e → cur₁ a = m a := fun a low high =>
    (frame a (.inr low)).trans (same.body a (by unfold sizeofEntry; omega) high)
  have header' : ∀ a, e ≤ a → a < e + 92 → cur' a = m a := fun a low high =>
    (frame' a (.inl (by omega))).trans (header₁ a low high)
  refine ⟨fun a away => ?_, nextOffset_congr header', targetOffset_congr header',
    unconditional_congr header', ?_, fun standard => ?_, ?_⟩
  · rw [frame' a (by unfold sizeofEntry at away; omega), frame a (by unfold sizeofEntry at *; omega)]
  · rw [pointer]
    unfold isStandard
    rw [body (getTarget m e + 2) (by omega) (by omega)]
  · have inside := laid.verdict standard
    unfold sizeofTarget at inside
    unfold verdict
    rw [load_congr 4 fun a low high =>
      (frame' a (.inr (by omega))).trans (body a (by omega) (by omega))]
  · rw [← ends]
    refine matchesEnd_congr (fun a low high => frame' a (.inl (by omega))) _ fun a low high => ?_
    rw [getTarget_congr header₁] at high
    exact frame' a (.inl (by omega))

theorem resolved_same {mem mem' : Blob} (laid : WellLaid size m e) (resolved : Resolved reg e m mem)
    (same : SameEntry e mem mem') : Resolved reg e m mem' := by
  have header := laid.header
  have room := laid.target
  have target : getTarget m e = e + targetOffset m e := rfl
  unfold sizeofTarget at room
  have body : ∀ a, e + sizeofEntry ≤ a → a < e + nextOffset m e → mem' a = mem a := by
    rw [← resolved.next]
    exact same.body
  refine ⟨same.next.trans resolved.next, same.targetOffset.trans resolved.targetOffset,
    same.unconditional.trans resolved.unconditional, ?_, fun standard => ?_, ?_⟩
  · rw [← resolved.standard, kernelPointer, load_congr 4 fun a low high => body a (by omega) (by omega)]
    rfl
  · have inside := laid.verdict standard
    unfold sizeofTarget at inside
    rw [← resolved.verdict standard]
    unfold verdict
    rw [load_congr 4 fun a low high => body a (by omega) (by omega)]
  · rw [← resolved.matched]
    refine matchesEnd_congr same.header _ fun a low high => body a low ?_
    rw [getTarget, resolved.targetOffset] at high
    omega

/-- **The last walk resolves every entry.** -/
theorem findCheckEntries_resolved {bound : BitVec 32} (fuel : Nat) {e : Nat} {cur : Blob}
    (laid : ∀ s ∈ entryStarts m bound.toNat fuel e, WellLaid size m s)
    (same : ∀ s ∈ entryStarts m bound.toNat fuel e, SameEntry s m cur)
    (ok : findCheckEntries reg bound fuel e cur = .ok cur') :
    (∀ a < e, cur' a = cur a) ∧
      ∀ s ∈ entryStarts m bound.toNat fuel e, Resolved reg s m cur' := by
  induction fuel generalizing e cur with
  | zero =>
    cases ok
  | succ fuel ih =>
    rw [findCheckEntries] at ok
    rw [entryStarts] at laid same ⊢
    split at ok
    · rename_i below
      rw [if_pos below] at laid same ⊢
      obtain ⟨laid_here, laid⟩ := forall_mem_cons.mp laid
      obtain ⟨same_here, same⟩ := forall_mem_cons.mp same
      split at ok
      · cases ok
      rename_i cur₁ checked
      obtain ⟨frame, resolved⟩ := findCheckEntry_resolved laid_here same_here checked
      rw [resolved.next] at ok
      have room := laid_here.target
      have behind := laid_here.header
      have same₁ : ∀ s ∈ entryStarts m bound.toNat fuel (e + nextOffset m e), SameEntry s m cur₁ := by
        intro s member
        have later := entryStarts_ge fuel member
        exact ⟨fun a low high => (frame a (.inr (by omega))).trans ((same s member).header a low high),
          fun a low high => (frame a (.inr (by omega))).trans ((same s member).body a low high)⟩
      obtain ⟨frame', rest⟩ := ih laid same₁ ok
      refine ⟨fun a low => ?_, forall_mem_cons.mpr ⟨?_, rest⟩⟩
      · rw [frame' a (by omega), frame a (.inl (by omega))]
      refine resolved_same laid_here resolved ⟨fun a _ high => frame' a ?_, fun a _ high => frame' a ?_⟩
      · unfold sizeofEntry at behind
        omega
      · rw [resolved.next] at high
        exact high
    · rename_i above
      rw [if_neg above]
      cases ok
      exact ⟨fun _ _ => rfl, forall_mem_nil _⟩

end KernelImx.Netfilter
