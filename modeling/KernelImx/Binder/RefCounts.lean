/-
**The reference counts of binder agree.**

Every operation on nodes and references keeps the internal count of a node equal to the number of
strong references on its list, the descriptors of a process distinct and every reference on a node
that is there, as long as no strong count of a reference overflows.

Main result: `binder_ref_accounting`.
-/

import Mathlib.Order.Bounds.Basic
import Mathlib.Data.BitVec
import Mathlib.Tactic.LinearCombination
import KernelImx.Lib.Runs
import KernelImx.Binder.Refs

namespace KernelImx.Binder

open Function List KernelImx.Lib Nat Heap
open Option hiding mem_map

/-! ### One node -/

/-- The counts and the identity of a node, not its flags and its work entry. -/
structure SameCounts (node other : BinderNode) : Prop where
  proc : node.proc = other.proc
  ptr : node.ptr = other.ptr
  cookie : node.cookie = other.cookie
  internal : node.internalStrongRefs = other.internalStrongRefs
  weak : node.localWeakRefs = other.localWeakRefs
  strong : node.localStrongRefs = other.localStrongRefs

theorem SameCounts.refl (node : BinderNode) : SameCounts node node := ⟨rfl, rfl, rfl, rfl, rfl, rfl⟩

/-- The count that `binder_inc_node` takes up. -/
def BinderNode.more (node : BinderNode) (strong internal : Bool) : BinderNode :=
  if strong then
    if internal then { node with internalStrongRefs := node.internalStrongRefs + 1 }
    else { node with localStrongRefs := node.localStrongRefs + 1 }
  else if internal then node
  else { node with localWeakRefs := node.localWeakRefs + 1 }

variable {st : RefState} {addr : Nat} {node new : BinderNode}

/-- **What `binder_inc_node` does**: an error leaves an internal count as it is, a local one goes up
all the same. -/
theorem inc_counts (node : BinderNode) (isContextMgr strong internal : Bool)
    (targetList : Option TodoList) {error : Option Errno}
    (call : node.inc isContextMgr strong internal targetList = (new, error)) :
    SameCounts new (if error.isSome && internal then node else node.more strong internal) := by
  have failed : SameCounts (node.more false internal)
      (if internal then node else node.more false internal) := by
    cases internal <;> exact .refl _
  unfold BinderNode.inc at call
  cases strong with
  | false =>
    have up : (if internal = true then node
        else { node with localWeakRefs := node.localWeakRefs + 1 }) = node.more false internal := by
      cases internal <;> rfl
    simp only [Bool.false_eq_true, if_false, up] at call
    split at call
    · cases targetList with
      | none =>
        cases call
        exact failed
      | some list =>
        cases call
        exact ⟨rfl, rfl, rfl, rfl, rfl, rfl⟩
    · cases call
      exact .refl _
  | true =>
    have up : (if internal = true then { node with internalStrongRefs := node.internalStrongRefs + 1 }
        else { node with localStrongRefs := node.localStrongRefs + 1 }) = node.more true internal := by
      cases internal <;> rfl
    simp only [if_true, up] at call
    split at call
    next refused =>
      cases call
      simp only [Bool.and_eq_true] at refused
      rw [refused.1.1.1]
      exact .refl _
    · split at call
      · cases call
        exact ⟨rfl, rfl, rfl, rfl, rfl, rfl⟩
      · cases call
        exact .refl _

theorem binderIncNode_spec (there : st.nodes.get addr = some node) (strong internal : Bool)
    (targetList : Option TodoList) :
    ∃ new error, binderIncNode st addr strong internal targetList =
        some (st.setNode addr new, error) ∧
      SameCounts new (if error.isSome && internal then node else node.more strong internal) := by
  unfold binderIncNode
  rw [there]
  exact ⟨_, _, rfl, inc_counts node (st.contextMgrNode = some addr) strong internal targetList rfl⟩

/-- What becomes of a node: it keeps the given counts, or it is freed when nothing refers to it. -/
inductive Becomes (st : RefState) (addr : Nat) (node : BinderNode) (freedBy : FreedBy) :
    RefState → Prop
  | kept (new : BinderNode) (same : SameCounts new node) :
      Becomes st addr node freedBy (st.setNode addr new)
  | freed (bare : st.nodeRefs addr = 0) (strong : node.localStrongRefs = 0)
      (weak : node.localWeakRefs = 0) :
      Becomes st addr node freedBy (st.freeNode freedBy addr node)

theorem binderDecNode_spec (there : st.nodes.get addr = some node) (strong internal : Bool) :
    ∃ next, binderDecNode st addr strong internal = some next ∧
      Becomes st addr (node.dec strong internal) .decNode next := by
  unfold binderDecNode
  rw [there]
  refine ⟨_, rfl, ?_⟩
  simp only
  split
  · exact .kept _ (.refl _)
  split
  · refine .kept _ ?_
    split
    · exact ⟨rfl, rfl, rfl, rfl, rfl, rfl⟩
    · exact .refl _
  split
  next zero =>
    simp only [Bool.and_eq_true, decide_eq_true_eq] at zero
    exact .freed zero.1.1 zero.1.2 zero.2
  · exact .kept _ (.refl _)

theorem nodeWork_spec (there : st.nodes.get addr = some node) :
    ∃ next cmd, nodeWork st addr = some (next, cmd) ∧
      ((∃ new : BinderNode, next = st.setNode addr new ∧ new.proc = node.proc ∧ new.ptr = node.ptr ∧
          new.internalStrongRefs = node.internalStrongRefs) ∨
        Becomes st addr node .nodeWork next) := by
  unfold nodeWork
  rw [there]
  simp only [map_some]
  -- the four commands
  iterate 4
    split
    · exact ⟨_, _, rfl, .inl ⟨_, rfl, rfl, rfl, rfl⟩⟩
  split
  next zero =>
    simp only [Bool.and_eq_true, Bool.not_eq_true', Bool.or_eq_false_iff, decide_eq_false_iff_not,
      not_not] at zero
    obtain ⟨⟨⟨bare, weak⟩, -⟩, -, strong⟩ := zero
    exact ⟨_, _, rfl, .inr (.freed bare strong weak)⟩
  · exact ⟨_, _, rfl, .inl ⟨_, rfl, rfl, rfl, rfl⟩⟩

/-! ### Counts by address -/

def BinderNode.localCount (node : BinderNode) (strong : Bool) : CInt :=
  if strong then node.localStrongRefs else node.localWeakRefs

def localCount (nodes : Heap BinderNode) (addr : Nat) (strong : Bool) : CInt :=
  match nodes.get addr with
  | some node => node.localCount strong
  | none => 0

def refCount (refs : Heap BinderRef) (addr : Nat) (strong : Bool) : CInt :=
  match refs.get addr with
  | some ref => ref.count strong
  | none => 0

/-- What a node is, whatever its counts. -/
def BinderNode.ident (node : BinderNode) : Option Nat × Nat := (node.proc, node.ptr)

def BinderRef.ident (ref : BinderRef) : Nat × Nat × Nat := (ref.proc, ref.node, ref.desc)

theorem ident_inc (ref : BinderRef) (strong : Bool) : (ref.inc strong).ident = ref.ident := by
  cases strong <;> rfl

theorem ident_dec (ref : BinderRef) (strong : Bool) : (ref.dec strong).ident = ref.ident := by
  cases strong <;> rfl

/-- A count of a node or of a reference that an object of a buffer stands for. -/
inductive Grant where
  | node (addr : Nat) (strong : Bool)
  | ref (addr : Nat) (strong : Bool)
  deriving DecidableEq, Repr

def RefState.total (st : RefState) : Grant → CInt
  | .node addr strong => localCount st.nodes addr strong
  | .ref addr strong => refCount st.refs addr strong

/-- The count of one grant changes, and no other. -/
def Shifts (st next : RefState) (grant : Grant) (change : CInt) : Prop :=
  ∀ other, next.total other = st.total other + if other = grant then change else 0

theorem localCount_eq {nodes : Heap BinderNode} (there : nodes.get addr = some node)
    (strong : Bool) : localCount nodes addr strong = node.localCount strong := by
  unfold localCount
  rw [there]

variable {next : RefState} {strong : Bool} {change : CInt}

theorem shifts_node (refs : next.refs = st.refs)
    (others : ∀ other, other ≠ addr → next.nodes.get other = st.nodes.get other)
    (counts : ∀ which, localCount next.nodes addr which =
      localCount st.nodes addr which + if which = strong then change else 0) :
    Shifts st next (.node addr strong) change := by
  rintro (⟨other, which⟩ | ⟨other, which⟩)
  · by_cases here : other = addr
    · subst here
      simpa [RefState.total] using counts which
    · simp [RefState.total, localCount, others other here, here]
  · simp [RefState.total, refs]

theorem get_setNode : (st.setNode addr new).nodes.get addr = some new := (get_set ..).trans (if_pos rfl)

theorem SameCounts.localCount {other : BinderNode} (same : SameCounts node other) (strong : Bool) :
    node.localCount strong = other.localCount strong := by
  cases strong
  · exact same.weak
  · exact same.strong

theorem SameCounts.ident {other : BinderNode} (same : SameCounts node other) :
    node.ident = other.ident :=
  Prod.ext same.proc same.ptr

theorem Becomes.locals {internal : Bool} (there : st.nodes.get addr = some node)
    (becomes : Becomes st addr (node.dec strong internal) .decNode next) :
    Within BinderNode.ident next.nodes st.nodes ∧
      Shifts st next (.node addr strong) (if internal then 0 else -1) := by
  have down : ∀ which, (node.dec strong internal).localCount which = localCount st.nodes addr which +
      if which = strong then if internal then 0 else -1 else 0 := by
    intro which
    rw [localCount_eq there]
    cases strong <;> cases internal <;> cases which <;>
      simp [BinderNode.dec, BinderNode.localCount, sub_eq_add_neg]
  cases becomes with
  | kept new same =>
    refine ⟨(within_set there (same.ident.trans ?_)).2, shifts_node rfl
      (fun other differ => (get_set ..).trans (if_neg differ)) fun which => ?_⟩
    · cases strong <;> cases internal <;> rfl
    · rw [← down, ← same.localCount, localCount_eq get_setNode]
  | freed bare strongZero weakZero =>
    refine ⟨within_free _ _, shifts_node rfl
      (fun other differ => (get_free ..).trans (if_neg differ)) fun which => ?_⟩
    rw [← down]
    simp only [localCount, RefState.freeNode, get_free, if_true]
    cases which
    · exact weakZero.symm
    · exact strongZero.symm

theorem inc_locals {internal : Bool} {error : Option Errno} (there : st.nodes.get addr = some node)
    (same : SameCounts new (if error.isSome && internal then node else node.more strong internal)) :
    new.ident = node.ident ∧
      Shifts st (st.setNode addr new) (.node addr strong) (if internal then 0 else 1) := by
  refine ⟨?_, shifts_node rfl (fun other differ => (get_set ..).trans (if_neg differ)) fun which => ?_⟩
  · -- an error of an internal count changes no local one either
    rw [same.ident]
    split
    · rfl
    · cases strong <;> cases internal <;> rfl
  · rw [localCount_eq get_setNode, same.localCount, localCount_eq there]
    cases strong <;> cases internal <;> cases which <;> cases error <;>
      simp [BinderNode.more, BinderNode.localCount]

/-- The local counts stay, and no node changes its identity; a node may be freed. -/
structure NodesKept (before after : Heap BinderNode) : Prop where
  within : Within BinderNode.ident after before
  locals : ∀ addr strong, localCount after addr strong = localCount before addr strong

theorem NodesKept.refl (nodes : Heap BinderNode) : NodesKept nodes nodes :=
  ⟨Within.refl nodes, fun _ _ => rfl⟩

theorem NodesKept.trans {first second third : Heap BinderNode} (one : NodesKept first second)
    (two : NodesKept second third) : NodesKept first third :=
  ⟨two.within.trans one.within, fun addr strong =>
    (two.locals addr strong).trans (one.locals addr strong)⟩

theorem Shifts.kept (shifts : Shifts st next (.node addr strong) 0)
    (within : Within BinderNode.ident next.nodes st.nodes) : NodesKept st.nodes next.nodes :=
  ⟨within, fun other which => by simpa [RefState.total] using shifts (.node other which)⟩

/-! ### Descriptors -/

variable {desc proc : Nat} {ref : BinderRef}

/-- **The loop over the descriptors** finds the smallest one that is not in use. -/
theorem newDesc_isLeast (descs : List Nat) (sorted : descs.Pairwise (· < ·))
    (low : ∀ used ∈ descs, desc ≤ used + 1) :
    IsLeast {candidate | desc ≤ candidate ∧ candidate ∉ descs} (newDesc desc descs) := by
  induction descs generalizing desc with
  | nil => exact ⟨⟨le_rfl, not_mem_nil⟩, fun candidate more => more.1⟩
  | cons first rest ih =>
    obtain ⟨above, sorted⟩ := pairwise_cons.mp sorted
    have start := low first mem_cons_self
    unfold newDesc
    split
    next gap =>
      refine ⟨⟨le_rfl, fun used => ?_⟩, fun candidate more => more.1⟩
      rcases mem_cons.mp used with rfl | later
      · omega
      · have := above _ later
        omega
    next taken =>
      have same : {candidate | desc ≤ candidate ∧ candidate ∉ first :: rest} =
          {candidate | first + 1 ≤ candidate ∧ candidate ∉ rest} := by
        ext candidate
        simp only [Set.mem_ofPred_eq, mem_cons, not_or]
        constructor
        · rintro ⟨more, differ, free⟩
          exact ⟨by omega, free⟩
        · rintro ⟨more, free⟩
          exact ⟨by omega, by omega, free⟩
      rw [same]
      exact ih sorted fun used member => Nat.add_le_add_right (above used member).le 1

theorem mem_refsByDesc (there : st.refs.get addr = some ref) (own : ref.proc = proc)
    (same : ref.desc = desc) : desc ∈ refsByDesc st proc := by
  rw [refsByDesc, mem_insertionSort, mem_map]
  exact ⟨⟨addr, ref⟩, mem_filter.mpr ⟨mem_entries_iff.mpr there, decide_eq_true own⟩, same⟩

def DistinctDescs (refs : Heap BinderRef) : Prop :=
  ∀ addr other ref ref', refs.get addr = some ref → refs.get other = some ref' →
    ref.proc = ref'.proc → ref.desc = ref'.desc → addr = other

theorem refsByDesc_sorted (distinct : DistinctDescs st.refs) (proc : Nat) :
    (refsByDesc st proc).Pairwise (· < ·) := by
  have nodup : ((st.refs.records.entries.filter fun entry => entry.2.proc = proc).map
      fun entry => entry.2.desc).Nodup := by
    refine Nodup.map_on ?_ (st.refs.records.nodupKeys.nodup.filter _)
    rintro ⟨addr, ref⟩ member ⟨other, ref'⟩ member' same
    obtain ⟨member, proc⟩ := mem_filter.mp member
    obtain ⟨member', proc'⟩ := mem_filter.mp member'
    have there := mem_entries_iff.mp member
    have there' := mem_entries_iff.mp member'
    obtain rfl := distinct addr other ref ref' there there'
      ((of_decide_eq_true proc).trans (of_decide_eq_true proc').symm) same
    rw [some.inj (there.symm.trans there')]
  have distinct := (perm_insertionSort (· ≤ ·) _).nodup_iff.mpr nodup
  exact ((pairwise_insertionSort (· ≤ ·) _).and distinct).imp fun both => lt_of_le_of_ne both.1 both.2

/-! ### The invariant -/

/-- A reference on the list of the node that holds a strong count. -/
def strongOn (addr : Nat) (ref : BinderRef) : Bool := ref.node = addr && ref.strong ≠ 0

/-- When a node may be freed; the process of a node does not wait for the local counts. -/
def FreedNode.unused (freed : FreedNode) : Prop :=
  freed.refs = 0 ∧
    (freed.freedBy ≠ .procRelease → freed.node.localStrongRefs = 0 ∧ freed.node.localWeakRefs = 0)

/-- **The invariant.** The internal counts may differ by `off` from the strong references while an
operation is under way. -/
structure Tied (off : Nat → CInt) (st : RefState) : Prop where
  counted : ∀ addr node, st.nodes.get addr = some node →
    node.internalStrongRefs = BitVec.ofNat 32 (st.refs.count (strongOn addr)) + off addr
  live : ∀ addr ref, st.refs.get addr = some ref → ∃ node, st.nodes.get ref.node = some node
  descs : st.refs.Distinct fun ref => some (ref.proc, ref.desc)
  pairs : st.refs.Distinct fun ref => some (ref.proc, ref.node)
  ptrs : st.nodes.Distinct fun node => node.proc.map (·, node.ptr)
  fresh : ∀ addr, st.nextAddr ≤ addr → st.nodes.get addr = none ∧ st.refs.get addr = none
  unused : ∀ freed ∈ st.freed, freed.unused

variable {off : Nat → CInt} {changed : BinderRef} {freedBy : FreedBy}

theorem Tied.distinctDescs (linked : Tied off st) : DistinctDescs st.refs :=
  fun _ _ _ _ there there' proc desc => linked.descs there there' rfl (by rw [proc, desc])

theorem Tied.setNode (linked : Tied off st) (there : st.nodes.get addr = some node)
    (ptr : new.ptr = node.ptr) (proc : new.proc = node.proc ∨ new.proc = none)
    (internal : new.internalStrongRefs = node.internalStrongRefs + change) :
    Tied (update off addr (off addr + change)) (st.setNode addr new) := by
  obtain ⟨counted, live, descs, pairs, ptrs, fresh, unused⟩ := linked
  refine ⟨fun other node' found => ?_, fun other ref found => ?_, descs, pairs,
    ptrs.change there fun key is => ?_, fun other beyond => ?_, unused⟩
  · rcases get_set_eq_some.mp found with ⟨rfl, rfl⟩ | ⟨differ, found⟩
    · rw [internal, counted _ _ there, update_self, BitVec.add_assoc]
      rfl
    · rw [counted _ _ found, update_of_ne differ]
      rfl
  · obtain ⟨node', alive⟩ := live other ref found
    simp only [RefState.setNode, get_set]
    split
    · exact ⟨new, rfl⟩
    · exact ⟨node', alive⟩
  · rcases proc with same | gone
    · rwa [same, ptr] at is
    · rw [gone] at is
      cases is
  · obtain ⟨noNode, noRef⟩ := fresh other beyond
    exact ⟨get_set_eq_none there noNode, noRef⟩

theorem Tied.freeNode (linked : Tied off st) (bare : st.nodeRefs addr = 0)
    (unused : FreedNode.unused ⟨freedBy, node, 0⟩) (any : CInt) :
    Tied (update off addr any) (st.freeNode freedBy addr node) := by
  obtain ⟨counted, live, descs, pairs, ptrs, fresh, others⟩ := linked
  have old {other : Nat} {node' : BinderNode} (found : (st.nodes.free addr).get other = some node') :
      other ≠ addr ∧ st.nodes.get other = some node' := get_free_eq_some.mp found
  refine ⟨fun other node' found => ?_, fun other ref found => ?_, descs, pairs,
    ptrs.free, fun other beyond => ⟨get_free_eq_none (fresh other beyond).1, (fresh other beyond).2⟩,
    forall_mem_cons.mpr ⟨bare.symm ▸ unused, others⟩⟩
  · rw [counted _ _ (old found).2, update_of_ne (old found).1]
    rfl
  obtain ⟨node', alive⟩ := live other ref found
  refine ⟨node', get_free_eq_some.mpr ⟨?_, alive⟩⟩
  rintro rfl
  have := count_eq_zero_iff.mp bare other ref found
  simp at this

theorem count_moves {refs now : Heap BinderRef} {target other : Nat} {lost gained : Bool}
    (counts : now.count (strongOn other) + (decide (target = other) && lost).toNat =
      refs.count (strongOn other) + (decide (target = other) && gained).toNat) :
    BitVec.ofNat 32 (refs.count (strongOn other)) + off other =
      BitVec.ofNat 32 (now.count (strongOn other)) + update off target
        (off target + BitVec.ofNat 32 lost.toNat - BitVec.ofNat 32 gained.toNat) other := by
  have counts := congrArg (BitVec.ofNat 32) counts
  rw [BitVec.ofNat_add, BitVec.ofNat_add] at counts
  by_cases here : other = target
  · subst here
    rw [update_self]
    simp only [decide_true, Bool.true_and] at counts
    linear_combination -counts
  · rw [update_of_ne here]
    simp only [decide_eq_false (Ne.symm here), Bool.false_and, Bool.toNat_false, BitVec.add_zero]
      at counts
    rw [counts]

theorem Tied.setRef (linked : Tied off st) (there : st.refs.get addr = some ref)
    (same : changed.ident = ref.ident) :
    Tied (update off ref.node (off ref.node + BitVec.ofNat 32 (ref.strong ≠ 0 : Bool).toNat -
      BitVec.ofNat 32 (changed.strong ≠ 0 : Bool).toNat)) (st.setRef addr changed) := by
  obtain ⟨counted, live, descs, pairs, ptrs, fresh, unused⟩ := linked
  simp only [BinderRef.ident, Prod.mk.injEq] at same
  obtain ⟨proc, target, desc⟩ := same
  refine ⟨fun other node found => ?_, fun other now found => ?_,
    descs.change there fun _ is => by rwa [proc, desc] at is,
    pairs.change there fun _ is => by rwa [proc, target] at is, ptrs, fun other beyond => ?_, unused⟩
  · rw [counted _ _ found]
    have counts := count_set (strongOn other) there changed
    unfold strongOn at counts
    rw [target] at counts
    exact count_moves counts
  · rcases get_set_eq_some.mp found with ⟨rfl, rfl⟩ | ⟨-, found⟩
    · exact target ▸ live _ ref there
    · exact live other now found
  · obtain ⟨noNode, noRef⟩ := fresh other beyond
    exact ⟨noNode, get_set_eq_none there noRef⟩

theorem Tied.freeRef (linked : Tied off st) (there : st.refs.get addr = some ref) :
    Tied (update off ref.node (off ref.node + BitVec.ofNat 32 (ref.strong ≠ 0 : Bool).toNat -
      BitVec.ofNat 32 false.toNat)) { st with refs := st.refs.free addr } := by
  obtain ⟨counted, live, descs, pairs, ptrs, fresh, unused⟩ := linked
  have old {other : Nat} {now : BinderRef} (found : (st.refs.free addr).get other = some now) :
      st.refs.get other = some now := (get_free_eq_some.mp found).2
  refine ⟨fun other node found => ?_, fun _ _ found => live _ _ (old found),
    descs.free, pairs.free, ptrs,
    fun other beyond => ⟨(fresh other beyond).1, get_free_eq_none (fresh other beyond).2⟩, unused⟩
  rw [counted _ _ found]
  refine count_moves ?_
  rw [Bool.and_false]
  exact count_free (strongOn other) there

theorem Becomes.linked (becomes : Becomes st addr new freedBy next)
    (linked : Tied off st) (there : st.nodes.get addr = some node) (ptr : new.ptr = node.ptr)
    (proc : new.proc = node.proc)
    (internal : new.internalStrongRefs = node.internalStrongRefs + change) :
    Tied (update off addr (off addr + change)) next := by
  cases becomes with
  | kept changed same =>
    exact linked.setNode there (same.ptr.trans ptr) (.inl (same.proc.trans proc))
      (same.internal.trans internal)
  | freed bare strong weak => exact linked.freeNode bare ⟨rfl, fun _ => ⟨strong, weak⟩⟩ _

theorem Becomes.refs (becomes : Becomes st addr new freedBy next) : next.refs = st.refs := by
  cases becomes <;> rfl

/-! ### The operations -/

variable {target : Nat}

theorem Tied.decNode (linked : Tied off st) (there : st.nodes.get addr = some node)
    (strong internal : Bool) : ∃ next, binderDecNode st addr strong internal = some next ∧
      next.refs = st.refs ∧ Tied (update off addr
        (off addr + -BitVec.ofNat 32 (strong && internal).toNat)) next ∧
      Within BinderNode.ident next.nodes st.nodes ∧
      Shifts st next (.node addr strong) (if internal then 0 else -1) := by
  obtain ⟨next, call, becomes⟩ := binderDecNode_spec there strong internal
  refine ⟨next, call, becomes.refs, becomes.linked linked there ?_ ?_ ?_, becomes.locals there⟩ <;>
    cases strong <;> cases internal <;> simp [BinderNode.dec, sub_eq_add_neg]

theorem Tied.incNode (linked : Tied off st) (there : st.nodes.get addr = some node)
    (strong internal : Bool) (targetList : Option TodoList) :
    ∃ next error, binderIncNode st addr strong internal targetList = some (next, error) ∧
      next.refs = st.refs ∧ Tied (update off addr
        (off addr + BitVec.ofNat 32 (strong && internal && error.isNone).toNat)) next ∧
      Within BinderNode.ident next.nodes st.nodes ∧ Within BinderNode.ident st.nodes next.nodes ∧
      Shifts st next (.node addr strong) (if internal then 0 else 1) := by
  obtain ⟨new, error, call, same⟩ := binderIncNode_spec there strong internal targetList
  obtain ⟨ident, shifts⟩ := inc_locals there same
  obtain ⟨proc, ptr⟩ := Prod.mk.inj ident
  obtain ⟨grown, shrunk⟩ := within_set there ident
  refine ⟨_, error, call, rfl, linked.setNode there ptr (.inl proc) ?_, shrunk, grown, shifts⟩
  rw [same.internal]
  cases strong <;> cases internal <;> cases error <;> simp [BinderNode.more]

abbrev Balanced (st : RefState) : Prop := Tied (fun _ => 0) st

theorem Tied.settle (linked : Tied (update (fun _ => 0) addr change) st) (zero : change = 0) :
    Balanced st := by
  have same : update (fun _ => (0 : CInt)) addr 0 = fun _ => 0 := update_eq_self addr _
  rwa [zero, same] at linked

theorem Balanced.deleteRef (sound : Balanced st) (there : st.refs.get addr = some ref) :
    ∃ next, binderDeleteRef st addr = some next ∧ next.refs = st.refs.free addr ∧ Balanced next ∧
      NodesKept st.nodes next.nodes := by
  obtain ⟨node, alive⟩ := sound.live addr ref there
  -- the strong count goes first, while the reference keeps the node
  obtain ⟨middle, first, same, kept, linked⟩ : ∃ middle,
      (if ref.strong ≠ 0 then binderDecNode st ref.node true true else some st) = some middle ∧
        middle.refs = st.refs ∧ NodesKept st.nodes middle.nodes ∧ Tied (update (fun _ => 0) ref.node
          (-BitVec.ofNat 32 (ref.strong ≠ 0 : Bool).toNat)) middle := by
    by_cases strong : ref.strong = 0
    · refine ⟨st, by simp [strong], rfl, .refl _, ?_⟩
      simpa [strong, Balanced] using sound
    · obtain ⟨next, call, same, linked, within, shifts⟩ := sound.decNode alive true true
      refine ⟨next, by rw [if_pos strong, call], same, shifts.kept within, ?_⟩
      rw [decide_eq_true strong, ← zero_add (-_)]
      exact linked
  have still : middle.refs.get addr = some ref := same ▸ there
  obtain ⟨node, alive⟩ := linked.live addr ref still
  have freed := linked.freeRef still
  rw [update_self, update_idem] at freed
  obtain ⟨next, second, refs, linked, within, shifts⟩ :=
    (freed.settle (by simp)).decNode alive false true
  refine ⟨next, ?_, by rw [refs, same], linked.settle (by simp), kept.trans (shifts.kept within)⟩
  unfold binderDeleteRef
  simp only [there, first]
  exact second

theorem Balanced.incRef (sound : Balanced st) (there : st.refs.get addr = some ref)
    (nonzero : strong = true → ref.strong + 1 ≠ 0) (targetList : Option TodoList) :
    ∃ next error, binderIncRef st addr strong targetList = some (next, error) ∧ Balanced next ∧
      NodesKept st.nodes next.nodes ∧ Within BinderNode.ident st.nodes next.nodes ∧
      next.refs = if error.isSome then st.refs else st.refs.set addr (ref.inc strong) := by
  have same := ident_inc ref strong
  unfold binderIncRef
  simp only [there]
  by_cases zero : ref.count strong = 0
  · rw [if_pos zero]
    obtain ⟨node, alive⟩ := sound.live addr ref there
    obtain ⟨next, error, call, refs, linked, shrunk, grown, shifts⟩ :=
      sound.incNode alive strong true targetList
    have kept := shifts.kept shrunk
    rw [call]
    cases error with
    | some error =>
      exact ⟨next, some error, rfl, linked.settle (by simp), kept, grown, refs⟩
    | none =>
      have set := linked.setRef (refs ▸ there : next.refs.get addr = some ref) same
      rw [update_self, update_idem] at set
      refine ⟨_, none, rfl, set.settle ?_, kept, grown, by rw [← refs]; rfl⟩
      cases strong with
      | false => simp [BinderRef.inc]
      | true =>
        have old : ref.strong = 0 := zero
        simp [BinderRef.inc, old]
  · rw [if_neg zero]
    refine ⟨_, none, rfl, (sound.setRef there same).settle ?_, .refl _, .refl _, rfl⟩
    cases strong with
    | false => simp [BinderRef.inc]
    | true =>
      have old : ref.strong ≠ 0 := zero
      have new : (ref.inc true).strong ≠ 0 := nonzero rfl
      simp only [decide_eq_true old, decide_eq_true new]
      ring

/-- **The count of a reference goes down**; without counts the reference is deleted. -/
theorem Balanced.decRef (sound : Balanced st) (there : st.refs.get addr = some ref) (strong : Bool) :
    ∃ next error, binderDecRef st addr strong = some (next, error) ∧ Balanced next ∧
      NodesKept st.nodes next.nodes ∧ next.refs = if ref.count strong = 0 then st.refs
        else if (ref.dec strong).strong = 0 ∧ (ref.dec strong).weak = 0 then
          (st.refs.set addr (ref.dec strong)).free addr
        else st.refs.set addr (ref.dec strong) := by
  unfold binderDecRef
  simp only [there]
  by_cases zero : ref.count strong = 0
  · rw [if_pos zero]
    exact ⟨st, some .einval, rfl, sound, .refl _, by rw [if_pos zero]⟩
  rw [if_neg zero]
  obtain ⟨node, alive⟩ := sound.live addr ref there
  have set := sound.setRef there (ident_dec ref strong)
  obtain ⟨middle, first, same, kept, linked⟩ : ∃ middle,
      (if strong = true ∧ (ref.dec strong).strong = 0 then
          binderDecNode (st.setRef addr (ref.dec strong)) ref.node true true
        else some (st.setRef addr (ref.dec strong))) = some middle ∧
      middle.refs = st.refs.set addr (ref.dec strong) ∧ NodesKept st.nodes middle.nodes ∧
      Balanced middle := by
    by_cases last : strong = true ∧ (ref.dec strong).strong = 0
    · obtain ⟨rfl, gone⟩ := last
      have old : ref.strong ≠ 0 := zero
      obtain ⟨next, call, same, linked, within, shifts⟩ := set.decNode alive true true
      rw [update_self, update_idem] at linked
      refine ⟨next, by rw [if_pos ⟨rfl, gone⟩, call], same, shifts.kept within, linked.settle ?_⟩
      rw [decide_eq_true old]
      simp [gone]
    refine ⟨st.setRef addr _, by rw [if_neg last], rfl, .refl _, set.settle ?_⟩
    cases strong with
    | false => simp [BinderRef.dec]
    | true =>
      have old : ref.strong ≠ 0 := zero
      have new : (ref.dec true).strong ≠ 0 := fun gone => last ⟨rfl, gone⟩
      simp only [decide_eq_true old, decide_eq_true new]
      ring
  rw [if_neg zero]
  simp only [first]
  by_cases gone : (ref.dec strong).strong = 0 ∧ (ref.dec strong).weak = 0
  · rw [if_pos gone, if_pos gone]
    have still : middle.refs.get addr = some (ref.dec strong) := by
      rw [same, get_set, if_pos rfl]
    obtain ⟨next, call, refs, linked, further⟩ := linked.deleteRef still
    exact ⟨next, none, by rw [call]; rfl, linked, kept.trans further, by rw [refs, same]⟩
  · rw [if_neg gone, if_neg gone]
    exact ⟨middle, none, rfl, linked, kept, same⟩

/-- **The smallest descriptor that is not in use**, from 1 on, from 0 on for the context manager. -/
theorem Tied.freeDesc_isLeast (linked : Tied off st) (proc node : Nat) :
    IsLeast {desc | (if st.contextMgrNode = some node then 0 else 1) ≤ desc ∧
      desc ∉ refsByDesc st proc} (freeDesc st proc node) := by
  refine newDesc_isLeast _ (refsByDesc_sorted linked.distinctDescs proc) fun used _ => ?_
  split <;> omega

theorem Tied.newRef (linked : Tied off st) (alive : st.nodes.get target = some node)
    (absent : ∀ addr ref, st.refs.get addr = some ref → ¬ (ref.proc = proc ∧ ref.node = target)) :
    Tied off { st with
      refs := st.refs.set st.nextAddr ⟨proc, target, freeDesc st proc target, 0, 0⟩
      nextAddr := st.nextAddr + 1 } := by
  obtain ⟨-, free⟩ := (linked.freeDesc_isLeast proc target).1
  obtain ⟨counted, live, descs, pairs, ptrs, fresh, unused⟩ := linked
  have noRef := (fresh st.nextAddr le_rfl).2
  refine ⟨fun other node found => ?_, fun other now found => ?_,
    descs.set fun other now key found _ is same => ?_,
    pairs.set fun other now key found _ is same => ?_, ptrs, fun other beyond => ?_, unused⟩
  · rw [counted _ _ found, count_new _ noRef]
    simp [strongOn]
  · rcases get_set_eq_some.mp found with ⟨-, rfl⟩ | ⟨-, found⟩
    · exact ⟨node, alive⟩
    · exact live other now found
  · obtain ⟨proc, desc⟩ := Prod.mk.inj (some.inj (same.trans is.symm))
    exact free (mem_refsByDesc found proc desc)
  · exact absent other now found (Prod.mk.inj (some.inj (same.trans is.symm)))
  · obtain ⟨noNode, noRef⟩ := fresh other ((le_succ _).trans beyond)
    refine ⟨noNode, ?_⟩
    rw [get_set, if_neg (ne_of_gt beyond)]
    exact noRef

theorem Tied.getRefForNode (linked : Tied off st) (alive : st.nodes.get target = some node)
    (memory : Bool) (proc : Nat) :
    ∃ next found, binderGetRefForNode st memory proc target = some (next, found) ∧ Tied off next ∧
      next.nodes = st.nodes ∧
      ((next = st ∧ ∀ addr ∈ found, ∃ ref, st.refs.get addr = some ref ∧ ref.proc = proc ∧
          ref.node = target) ∨
        (found = some st.nextAddr ∧
          (∀ addr ref, st.refs.get addr = some ref → ¬ (ref.proc = proc ∧ ref.node = target)) ∧
          next.refs = st.refs.set st.nextAddr ⟨proc, target, freeDesc st proc target, 0, 0⟩)) := by
  unfold binderGetRefForNode
  cases search : st.refs.find fun ref => ref.proc = proc ∧ ref.node = target with
  | some addr =>
    obtain ⟨ref, there, is⟩ := find_some search
    refine ⟨st, some addr, rfl, linked, rfl, .inl ⟨rfl, ?_⟩⟩
    rintro _ ⟨⟩
    exact ⟨ref, there, of_decide_eq_true is⟩
  | none =>
    have absent : ∀ addr ref, st.refs.get addr = some ref →
        ¬ (ref.proc = proc ∧ ref.node = target) := fun addr ref there => by
      simpa using find_none search there
    cases memory with
    | false => exact ⟨st, none, rfl, linked, rfl, .inl ⟨rfl, nofun⟩⟩
    | true =>
      have free := (linked.freeDesc_isLeast proc target).1.2
      have added := linked.newRef alive absent
      rw [if_neg free]
      exact ⟨_, _, rfl, added, rfl, .inr ⟨rfl, absent, rfl⟩⟩

theorem Balanced.newNode (sound : Balanced st) (memory : Bool) (proc ptr cookie : Nat)
    {found : Option Nat} (call : binderNewNode st memory proc ptr cookie = (next, found)) :
    Balanced next ∧ next.refs = st.refs ∧ ∀ addr ∈ found, addr = st.nextAddr ∧
      next.nodes = st.nodes.set addr ⟨some proc, ptr, cookie, 0, 0, 0, false, false, none⟩ := by
  unfold binderNewNode at call
  split at call
  · cases call
    exact ⟨sound, rfl, nofun⟩
  next search =>
    cases memory <;> cases call
    · exact ⟨sound, rfl, nofun⟩
    refine ⟨?_, rfl, by rintro _ ⟨⟩; exact ⟨rfl, rfl⟩⟩
    have absent : ∀ addr node, st.nodes.get addr = some node →
        ¬ (node.proc = some proc ∧ node.ptr = ptr) := fun addr node there => by
      simpa using find_none search there
    obtain ⟨counted, live, descs, pairs, ptrs, fresh, unused⟩ := sound
    have noRefs : st.refs.count (strongOn st.nextAddr) = 0 := by
      refine count_eq_zero_iff.mpr fun addr ref there => ?_
      obtain ⟨node, alive⟩ := live addr ref there
      have differ : ref.node ≠ st.nextAddr := by
        intro same
        rw [same, (fresh _ le_rfl).1] at alive
        cases alive
      simp [strongOn, differ]
    refine ⟨fun other node' there => ?_, fun other ref there => ?_, descs, pairs,
      ptrs.set fun other node' key there _ is same => ?_, fun other beyond => ?_, unused⟩
    · rcases get_set_eq_some.mp there with ⟨rfl, rfl⟩ | ⟨-, there⟩
      · rw [noRefs]
        rfl
      · exact counted other node' there
    · obtain ⟨node', alive⟩ := live other ref there
      refine ⟨node', get_set_eq_some.mpr (.inr ⟨fun same => ?_, alive⟩)⟩
      rw [same, (fresh _ le_rfl).1] at alive
      cases alive
    · obtain ⟨owner, owned, pair⟩ := map_eq_some_iff.mp (same.trans is.symm)
      obtain ⟨rfl, ptr⟩ := Prod.mk.inj pair
      exact absent other node' there ⟨owned, ptr⟩
    · obtain ⟨noNode, noRef⟩ := fresh other ((le_succ _).trans beyond)
      refine ⟨?_, noRef⟩
      rw [get_set, if_neg (ne_of_gt beyond)]
      exact noNode

theorem Tied.contextMgr (linked : Tied off st) (mgr : Option Nat) :
    Tied off { st with contextMgrNode := mgr } :=
  { linked with }

/-! ### Runs -/

/-- The calls on nodes and references. The callers take the local counts of a node, its references
the internal ones. -/
inductive RefCall where
  | newNode (memory : Bool) (proc ptr cookie : Nat)
  | getRefForNode (memory : Bool) (proc node : Nat)
  | incRef (ref : Nat) (strong : Bool) (targetList : Option TodoList)
  | decRef (ref : Nat) (strong : Bool)
  | deleteRef (ref : Nat)
  | incNode (node : Nat) (strong : Bool) (targetList : Option TodoList)
  | decNode (node : Nat) (strong : Bool)
  | nodeWork (node : Nat)
  | releaseNode (node : Nat)
  | setContextMgr (memory : Bool) (proc : Nat)

def refStep (st : RefState) : RefCall → Option RefState
  | .newNode memory proc ptr cookie => some (binderNewNode st memory proc ptr cookie).1
  | .getRefForNode memory proc node =>
    if (st.nodes.get node).isSome then (binderGetRefForNode st memory proc node).map Prod.fst
    else none
  | .incRef ref strong targetList => (binderIncRef st ref strong targetList).map Prod.fst
  | .decRef ref strong => (binderDecRef st ref strong).map Prod.fst
  | .deleteRef ref => binderDeleteRef st ref
  | .incNode node strong targetList => (binderIncNode st node strong false targetList).map Prod.fst
  | .decNode node strong => binderDecNode st node strong false
  | .nodeWork node =>
    if (st.nodes.get node).any fun node => node.work.isSome then (nodeWork st node).map Prod.fst
    else none
  | .releaseNode node => releaseNode st node
  | .setContextMgr memory proc => some (setContextMgr st memory proc)

def RefCall.present (st : RefState) : RefCall → Prop
  | .newNode .. | .setContextMgr .. => True
  | .getRefForNode _ _ node | .incNode node .. | .decNode node _ | .releaseNode node =>
    (st.nodes.get node).isSome
  | .nodeWork node => ∃ record, st.nodes.get node = some record ∧ record.work.isSome
  | .incRef ref .. | .decRef ref _ | .deleteRef ref => (st.refs.get ref).isSome

def NoOverflow (st : RefState) : RefCall → Prop
  | .incRef addr true _ => ∀ ref ∈ st.refs.get addr, ref.strong ≠ BitVec.intMax 32
  | _ => True

instance (st : RefState) (call : RefCall) : Decidable (NoOverflow st call) := by
  unfold NoOverflow
  split <;> infer_instance

def NonNeg (refs : Heap BinderRef) : Prop :=
  ∀ addr ref, refs.get addr = some ref → ref.strong.toNat < 2 ^ 31

variable {refs : Heap BinderRef}

theorem NonNeg.set (nonneg : NonNeg refs) (fits : ref.strong.toNat < 2 ^ 31) :
    NonNeg (refs.set addr ref) := by
  intro other now there
  rcases get_set_eq_some.mp there with ⟨-, rfl⟩ | ⟨-, there⟩
  · exact fits
  · exact nonneg other now there

theorem NonNeg.free (nonneg : NonNeg refs) : NonNeg (refs.free addr) :=
  fun other now there => nonneg other now (get_free_eq_some.mp there).2

theorem inc_fits (fits : ref.strong.toNat < 2 ^ 31)
    (room : strong = true → ref.strong ≠ BitVec.intMax 32) :
    (ref.inc strong).strong.toNat < 2 ^ 31 := by
  cases strong with
  | false => exact fits
  | true =>
    have room := room rfl
    show (ref.strong + 1).toNat < 2 ^ 31
    bv_omega

theorem dec_fits (fits : ref.strong.toNat < 2 ^ 31) (held : ref.count strong ≠ 0) :
    (ref.dec strong).strong.toNat < 2 ^ 31 := by
  cases strong with
  | false => exact fits
  | true =>
    have held : ref.strong ≠ 0 := held
    show (ref.strong - 1).toNat < 2 ^ 31
    bv_omega

theorem strongOn_eq (addr : Nat) (fits : ref.strong.toNat < 2 ^ 31) :
    strongOn addr ref = decide (ref.node = addr ∧ 0 < ref.strong.toInt) := by
  have positive : ref.strong ≠ 0 ↔ 0 < ref.strong.toInt := by
    rw [BitVec.toInt_eq_toNat_of_lt (by omega)]
    bv_omega
  rw [strongOn, Bool.decide_and, ← Bool.decide_congr positive]

section

variable (sound : Balanced st) (there : st.nodes.get addr = some node)

include sound there

theorem Balanced.setNode (ptr : new.ptr = node.ptr) (proc : new.proc = node.proc ∨ new.proc = none)
    (internal : new.internalStrongRefs = node.internalStrongRefs) :
    Balanced (st.setNode addr new) :=
  (Tied.setNode sound there ptr proc (internal.trans (BitVec.add_zero _).symm)).settle
    (BitVec.add_zero _)

theorem Balanced.nodeWork :
    ∃ next cmd, Binder.nodeWork st addr = some (next, cmd) ∧ Balanced next ∧ next.refs = st.refs := by
  obtain ⟨next, cmd, call, ⟨new, rfl, proc, ptr, internal⟩ | becomes⟩ := nodeWork_spec there
  · exact ⟨_, cmd, call, sound.setNode there ptr (.inl proc) internal, rfl⟩
  · have linked := becomes.linked sound there rfl rfl (BitVec.add_zero _).symm
    exact ⟨next, cmd, call, linked.settle (BitVec.add_zero _), becomes.refs⟩

theorem Balanced.releaseNode :
    ∃ next, Binder.releaseNode st addr = some next ∧ Balanced next ∧ next.refs = st.refs := by
  have linked := sound.contextMgr
    (if st.contextMgrNode = some addr then none else st.contextMgrNode)
  unfold Binder.releaseNode
  rw [there]
  simp only [map_some]
  generalize (if st.contextMgrNode = some addr then none else st.contextMgrNode) = mgr at linked ⊢
  split
  next none =>
    have freed := @Tied.freeNode _ addr { node with work := Option.none } _ .procRelease linked none
      ⟨rfl, fun differ => (differ rfl).elim⟩ 0
    exact ⟨_, rfl, freed.settle rfl, rfl⟩
  · exact ⟨_, rfl, Balanced.setNode linked there rfl (.inr rfl) rfl, rfl⟩

end

theorem Balanced.setContextMgr (sound : Balanced st) (memory : Bool) (proc : Nat) :
    Balanced (Binder.setContextMgr st memory proc) ∧
      (Binder.setContextMgr st memory proc).refs = st.refs := by
  unfold Binder.setContextMgr
  split
  · exact ⟨sound, rfl⟩
  cases call : binderNewNode st memory proc 0 0 with
  | mk next found =>
    obtain ⟨fresh, refs, -⟩ := sound.newNode memory proc 0 0 call
    cases found with
    | none => exact ⟨fresh, refs⟩
    | some addr =>
      simp only
      cases there : next.nodes.get addr with
      | none => exact ⟨fresh, refs⟩
      | some node =>
        refine ⟨Tied.contextMgr (Balanced.setNode fresh there ?_ (.inl ?_) ?_) _, refs⟩ <;> rfl

/-- **One call.** It returns, keeps the invariant, and no strong count overflows unless it was at its
maximum. -/
theorem refStep_spec (sound : Balanced st) (nonneg : NonNeg st.refs) (call : RefCall)
    (present : call.present st) : ∃ next, refStep st call = some next ∧ Balanced next ∧
      (NoOverflow st call → NonNeg next.refs) := by
  cases call with
  | newNode memory proc ptr cookie =>
    obtain ⟨fresh, refs, -⟩ := sound.newNode memory proc ptr cookie rfl
    exact ⟨_, rfl, fresh, fun _ => refs ▸ nonneg⟩
  | getRefForNode memory proc node =>
    obtain ⟨record, alive⟩ := isSome_iff_exists.mp present
    obtain ⟨next, found, call, linked, -, same⟩ := sound.getRefForNode alive memory proc
    refine ⟨next, ?_, linked, fun _ => ?_⟩
    · simp only [refStep, alive, isSome_some, if_true, call, map_some]
    rcases same with ⟨rfl, -⟩ | ⟨-, -, refs⟩
    · exact nonneg
    · rw [refs]
      exact nonneg.set (show (0 : CInt).toNat < 2 ^ 31 by decide)
  | incRef addr strong targetList =>
    obtain ⟨ref, there⟩ := isSome_iff_exists.mp present
    have fits := nonneg addr ref there
    obtain ⟨next, error, call, linked, -, -, refs⟩ :=
      sound.incRef there (fun _ : strong = true => by bv_omega) targetList
    refine ⟨next, by simp only [refStep, call, map_some], linked, fun room => ?_⟩
    rw [refs]
    split
    · exact nonneg
    · refine nonneg.set (inc_fits fits fun isStrong => ?_)
      subst isStrong
      exact room ref there
  | decRef addr strong =>
    obtain ⟨ref, there⟩ := isSome_iff_exists.mp present
    have fits := nonneg addr ref there
    obtain ⟨next, error, call, linked, -, refs⟩ := sound.decRef there strong
    refine ⟨next, by simp only [refStep, call, map_some], linked, fun _ => ?_⟩
    rw [refs]
    split
    · exact nonneg
    next some =>
      have less : NonNeg (st.refs.set addr (ref.dec strong)) := nonneg.set (dec_fits fits some)
      split
      · exact less.free
      · exact less
  | deleteRef addr =>
    obtain ⟨ref, there⟩ := isSome_iff_exists.mp present
    obtain ⟨next, call, refs, linked, -⟩ := sound.deleteRef there
    exact ⟨next, call, linked, fun _ => refs ▸ nonneg.free⟩
  | incNode addr strong targetList =>
    obtain ⟨node, there⟩ := isSome_iff_exists.mp present
    obtain ⟨next, error, call, refs, linked, -⟩ := sound.incNode there strong false targetList
    exact ⟨next, by simp only [refStep, call, map_some], linked.settle (by simp),
      fun _ => refs ▸ nonneg⟩
  | decNode addr strong =>
    obtain ⟨node, there⟩ := isSome_iff_exists.mp present
    obtain ⟨next, call, refs, linked, -⟩ := sound.decNode there strong false
    exact ⟨next, call, linked.settle (by simp), fun _ => refs ▸ nonneg⟩
  | nodeWork addr =>
    obtain ⟨node, there, work⟩ := present
    obtain ⟨next, cmd, call, linked, refs⟩ := sound.nodeWork there
    refine ⟨next, ?_, linked, fun _ => refs ▸ nonneg⟩
    simp only [refStep, there, any_some, work, if_true, call, map_some]
  | releaseNode addr =>
    obtain ⟨node, there⟩ := isSome_iff_exists.mp present
    obtain ⟨next, call, linked, refs⟩ := sound.releaseNode there
    exact ⟨next, call, linked, fun _ => refs ▸ nonneg⟩
  | setContextMgr memory proc =>
    obtain ⟨linked, refs⟩ := sound.setContextMgr memory proc
    exact ⟨_, rfl, linked, fun _ => refs ▸ nonneg⟩

theorem refStep_present {call : RefCall} (step : refStep st call = some next) : call.present st := by
  cases call with
  | newNode | setContextMgr => trivial
  | getRefForNode memory proc node =>
    simp only [refStep] at step
    split at step
    next alive => exact alive
    · cases step
  | incRef addr | decRef addr | deleteRef addr =>
    simp only [refStep, binderIncRef, binderDecRef, binderDeleteRef] at step
    cases there : st.refs.get addr with
    | none => simp [there] at step
    | some ref => exact isSome_iff_exists.mpr ⟨ref, there⟩
  | incNode addr | decNode addr | releaseNode addr =>
    simp only [refStep, binderIncNode, binderDecNode, releaseNode] at step
    cases there : st.nodes.get addr with
    | none => simp [there] at step
    | some node => exact isSome_iff_exists.mpr ⟨node, there⟩
  | nodeWork addr =>
    simp only [refStep] at step
    split at step
    next work =>
      cases there : st.nodes.get addr with
      | none => simp [there] at work
      | some node => exact ⟨node, there, by simpa [there] using work⟩
    · cases step

def noRefs : RefState := ⟨Heap.empty, Heap.empty, none, 0, []⟩

theorem noRefs_sound : Balanced noRefs :=
  ⟨nofun, nofun, nofun, nofun, nofun, fun _ _ => ⟨rfl, rfl⟩, nofun⟩

theorem exec_sound {calls : List RefCall} (fits : Along refStep NoOverflow noRefs calls)
    (run : exec refStep noRefs calls = some st) :
    Balanced st ∧ NonNeg st.refs := by
  refine exec_invariant_along (fun st => Balanced st ∧ NonNeg st.refs) ?_ ⟨noRefs_sound, nofun⟩ fits run
  intro st call next holds room step
  obtain ⟨next', step', sound, nonneg⟩ := refStep_spec holds.1 holds.2 call (refStep_present step)
  obtain rfl := some.inj (step'.symm.trans step)
  exact ⟨sound, nonneg room⟩

/-- **The reference counts agree**, in every run in which no strong count overflows: internal counts
are numbers of strong references, descriptors are the smallest free ones, the calls return, and a
node is freed only when nothing holds it. -/
theorem binder_ref_accounting {calls : List RefCall} {st : RefState}
    (fits : Along refStep NoOverflow noRefs calls) (run : exec refStep noRefs calls = some st) :
    (∀ addr node, st.nodes.get addr = some node → node.internalStrongRefs =
      BitVec.ofNat 32 (st.refs.count fun ref => ref.node = addr ∧ 0 < ref.strong.toInt)) ∧
    DistinctDescs st.refs ∧
    (∀ memory proc node next addr, binderGetRefForNode st memory proc node = some (next, some addr) →
      st.refs.get addr = none → ∃ ref, next.refs.get addr = some ref ∧ ref.proc = proc ∧
        ref.node = node ∧ IsLeast {desc | (if st.contextMgrNode = some node then 0 else 1) ≤ desc ∧
          desc ∉ refsByDesc st proc} ref.desc) ∧
    (∀ call : RefCall, call.present st → (refStep st call).isSome) ∧
    (∀ freed ∈ st.freed, freed.unused) ∧
    (∀ addr ref, st.refs.get addr = some ref → (st.nodes.get ref.node).isSome) := by
  obtain ⟨sound, nonneg⟩ := exec_sound fits run
  refine ⟨fun addr node there => ?_, sound.distinctDescs, fun memory proc node next addr call new => ?_,
    fun call present => ?_, sound.unused, fun addr ref there => ?_⟩
  · rw [sound.counted addr node there, add_zero]
    refine congrArg _ (count_congr fun other ref found => ?_)
    rw [strongOn_eq addr (nonneg other ref found)]
  · unfold binderGetRefForNode at call
    split at call
    next search =>
      obtain ⟨-, same⟩ := Prod.mk.inj (some.inj call)
      obtain ⟨ref, there, -⟩ := find_some (same ▸ search)
      rw [new] at there
      cases there
    · split at call
      · cases call
      simp only at call
      split at call
      · cases call
      · obtain ⟨rfl, same⟩ := Prod.mk.inj (some.inj call)
        cases same
        exact ⟨_, by rw [get_set, if_pos rfl], rfl, rfl, sound.freeDesc_isLeast proc node⟩
  · obtain ⟨next, step, -⟩ := refStep_spec sound nonneg call present
    rw [step]
    rfl
  · obtain ⟨node, alive⟩ := sound.live addr ref there
    rw [alive]
    rfl

/-- A process gets a reference to a node of another one, takes a strong count of it and gives it back,
which frees both. -/
theorem binder_ref_accounting_acquire_release : ∃ st,
    exec refStep noRefs [.newNode true 1 7 0, .getRefForNode true 2 0,
      .incRef 1 true (some (.thread 5)), .nodeWork 0, .nodeWork 0, .decRef 1 true, .decNode 0 true,
      .decNode 0 false, .nodeWork 0, .nodeWork 0, .nodeWork 0] = some st ∧
      st.freed.length = 1 ∧ ∀ freed ∈ st.freed, freed.unused := by
  refine ((map_eq_some_iff (f := fun st : RefState => st.freed.length)).mp ?_).imp
    fun st ⟨run, length⟩ =>
      ⟨run, length, (binder_ref_accounting (by decide +kernel) run).2.2.2.2.1⟩
  decide +kernel

/-! ### The overflow -/

theorem exec_acquire (count : Nat) (there : st.refs.get addr = some ref) (nonzero : ref.strong ≠ 0)
    (room : ref.strong.toNat + count < 2 ^ 32) :
    ∃ last, exec refStep st (replicate count (.incRef addr true none)) = some last ∧
      last.nodes = st.nodes ∧ ∀ other, last.refs.get other =
        if other = addr then some { ref with strong := ref.strong + BitVec.ofNat 32 count }
        else st.refs.get other := by
  induction count generalizing st ref with
  | zero =>
    refine ⟨st, rfl, rfl, fun other => ?_⟩
    split
    next same =>
      rw [same, there]
      simp
    · rfl
  | succ count ih =>
    have next : refStep st (.incRef addr true none) =
        some (st.setRef addr { ref with strong := ref.strong + 1 }) := by
      simp only [refStep, binderIncRef, there]
      rw [if_neg (show ref.count true ≠ 0 from nonzero)]
      rfl
    obtain ⟨last, run, nodes, refs⟩ := @ih (st.setRef addr { ref with strong := ref.strong + 1 })
      { ref with strong := ref.strong + 1 } (by simp [RefState.setRef, get_set])
      (by show ref.strong + 1 ≠ 0; bv_omega) (by show (ref.strong + 1).toNat + count < 2 ^ 32; bv_omega)
    refine ⟨last, ?_, nodes, fun other => ?_⟩
    · exact exec_cons.mpr ⟨_, next, run⟩
    rw [refs]
    split
    · rw [add_comm count 1, BitVec.ofNat_add, ← BitVec.add_assoc]
      rfl
    next differ => simp only [RefState.setRef, get_set, if_neg differ]

/-- A process takes a strong count of one reference `2 ^ 31` times. -/
def manyAcquires : List RefCall :=
  [.newNode true 1 7 0, .getRefForNode true 2 0, .incRef 1 true (some (.thread 5))] ++
    replicate (2 ^ 31 - 1) (.incRef 1 true none)

/-- **The strong count overflows**: the node has a strong count, and no reference to it has a
positive one. -/
theorem strong_count_overflows : ∃ st node, exec refStep noRefs manyAcquires = some st ∧
    st.nodes.get 0 = some node ∧ node.internalStrongRefs = 1 ∧
    st.refs.count (fun ref => ref.node = 0 ∧ 0 < ref.strong.toInt) = 0 := by
  have starts : (exec refStep noRefs [.newNode true 1 7 0, .getRefForNode true 2 0,
      .incRef 1 true (some (.thread 5))]).map (fun st =>
        (st.refs.get 1, (st.nodes.get 0).map BinderNode.internalStrongRefs,
          st.refs.records.keys)) = some (some ⟨2, 0, 1, 1, 0⟩, some 1, [1]) := by decide +kernel
  obtain ⟨first, start, same⟩ := map_eq_some_iff.mp starts
  obtain ⟨there, nodeThere, keys⟩ := Prod.mk.inj same |>.imp id Prod.mk.inj
  obtain ⟨node, alive, internal⟩ := map_eq_some_iff.mp nodeThere
  obtain ⟨last, acquires, nodes, refs⟩ := @exec_acquire first 1 ⟨2, 0, 1, 1, 0⟩ (2 ^ 31 - 1) there
    (by decide) (by decide)
  refine ⟨last, node, (exec_append _ _).mpr ⟨first, start, acquires⟩, nodes ▸ alive, internal, ?_⟩
  refine count_eq_zero_iff.mpr fun addr ref found => ?_
  rw [refs] at found
  split at found
  · cases found
    decide
  next other =>
    have absent : first.refs.get addr = none := by
      refine AList.lookup_eq_none.mpr fun member => other ?_
      rw [AList.mem_keys, keys] at member
      exact mem_singleton.mp member
    rw [absent] at found
    cases found

end KernelImx.Binder
