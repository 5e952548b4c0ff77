/-
**The scratch array is not cleared.**

The checker bounds the index of a scratch word, but not the order of its uses, and `sk_run_filter`
starts with whatever is on the stack. Two runs that differ in the initial array do the same as long as
every word that is loaded has been stored before.

Main result: `filter_scratch_stale`.
-/

import KernelImx.Filter.Checked

namespace KernelImx.Filter

open Option List Function

/-! ### Loads and stores -/

def Insn.loaded (f : SockFilter) : Insn → Option Nat
  | .ldMem | .ldxMem => some f.k.toNat
  | _ => none

def Insn.stored (f : SockFilter) : Insn → Option Nat
  | .st | .stx => some f.k.toNat
  | _ => none

def loads (prog : List SockFilter) (s : State) : Option Nat :=
  (fetch prog s.pc).bind fun f => (decode f.code).bind (Insn.loaded f)

def stores (prog : List SockFilter) (s : State) : Option Nat :=
  (fetch prog s.pc).bind fun f => (decode f.code).bind (Insn.stored f)

/-- **Every scratch word is stored before it is loaded**, in the states of a run, after the words
`stored`. -/
def StoresFirst (prog : List SockFilter) : List Nat → List State → Prop
  | _, [] => True
  | stored, s :: rest =>
    (∀ k ∈ loads prog s, k ∈ stored) ∧ StoresFirst prog ((stores prog s).toList ++ stored) rest

instance decidableStoresFirst (prog : List SockFilter) :
    ∀ stored states, Decidable (StoresFirst prog stored states)
  | _, [] => isTrue trivial
  | stored, s :: rest =>
    have := decidableStoresFirst prog ((stores prog s).toList ++ stored) rest
    inferInstanceAs (Decidable ((∀ k ∈ loads prog s, k ∈ stored) ∧ _))

/-! ### What sees the scratch array -/

def State.setMem (s : State) (mem : Nat → BitVec 32) : State := { s with mem := mem }

def State.registers (s : State) : Int × BitVec 32 × BitVec 32 := (s.pc, s.a, s.x)

def Next.setMem (mem : Nat → BitVec 32) : Next → Next
  | .goOn s => .goOn (s.setMem mem)
  | .exit left => .exit left

variable {shifts : Shifts} {skb : SkBuff} {f : SockFilter} {insn : Insn} {s next : State}
  {mem : Nat → BitVec 32} {prog : List SockFilter} {stored : List Nat} {k : Nat}

theorem ancillary_setMem (k : Int) :
    ancillary skb k (s.setMem mem) = (ancillary skb k s).setMem mem := by
  unfold ancillary
  split
  case h_1 | h_2 | h_4 | h_5 | h_9 => rfl
  case h_3 | h_6 => split <;> rfl
  case h_7 | h_8 =>
    rw [apply_ite (Next.setMem mem)]
    rfl

theorem load_setMem (k : BitVec 32) (size : Size) :
    load skb k size (s.setMem mem) = (load skb k size s).setMem mem := by
  unfold load
  split
  · rfl
  · exact ancillary_setMem k.toInt

/-- **Only loads and stores of the scratch array see it.** -/
theorem execute_setMem (blind : insn.usesScratch = false) :
    execute shifts skb f (s.setMem mem) insn = (execute shifts skb f s insn).setMem mem := by
  cases insn with
  | alu op src =>
    cases op with
    | div =>
      cases src with
      | k | x =>
        show _ = Next.setMem mem (if _ then _ else _)
        rw [apply_ite (Next.setMem mem)]
        rfl
    | add | sub | mul | and | or | lsh | rsh => cases src <;> rfl
  | jump cond src => cases src <;> rfl
  | ldAbs size => exact load_setMem f.k size
  | ldInd size => exact load_setMem (s.x + f.k) size
  | ldxMsh =>
    rw [execute, execute]
    cases loadPointer skb f.k.toInt 1 <;> rfl
  | ldMem | ldxMem | st | stx => cases blind
  | neg | ja | ldLen | ldxLen | ldImm | ldxImm | tax | txa | retK | retA => rfl

theorem execute_mem (blind : insn.usesScratch = false)
    (goes : execute shifts skb f s insn = .goOn next) : next.mem = s.mem := by
  have same : execute shifts skb f s insn = (execute shifts skb f s insn).setMem s.mem :=
    execute_setMem blind
  rw [goes] at same
  injection same with same
  exact (congrArg State.mem same).trans rfl

/-! ### Two runs in step -/

/-- **The same instruction with the array `mem` instead**: it ends the same way, or goes on with the
same registers, the word `stored` being the same then. -/
def Alike (stored : Option Nat) (s : State) (mem : Nat → BitVec 32) : Next → Next → Prop
  | .goOn next, .goOn next' => ∃ mem', next' = next.setMem mem' ∧
      (∀ k ∈ stored, mem' k = next.mem k) ∧ ∀ k ∉ stored, mem' k = mem k ∧ next.mem k = s.mem k
  | .exit left, .exit left' => left' = left
  | _, _ => False

theorem alike_setMem {next : Next} (keeps : ∀ s', next = .goOn s' → s'.mem = s.mem) :
    Alike none s mem next (next.setMem mem) := by
  cases next with
  | goOn s' =>
    refine ⟨mem, rfl, fun k member => ?_, fun k _ => ⟨rfl, congrFun (keeps s' rfl) k⟩⟩
    cases member
  | exit left => rfl

theorem store_alike (k value : BitVec 32) :
    Alike (some k.toNat) s mem (s.store k value) ((s.setMem mem).store k value) := by
  unfold State.store
  split
  · refine ⟨fun other => if other = k.toNat then value else mem other, rfl, ?_, ?_⟩
    · rintro _ ⟨⟩
      exact (if_pos rfl).trans (if_pos rfl).symm
    · intro other different
      have apart : other ≠ k.toNat := fun same => different (congrArg some same.symm)
      exact ⟨if_neg apart, if_neg apart⟩
  · rfl

theorem scratch_alike {k : BitVec 32} {use : State → BitVec 32 → Next}
    (blind : ∀ value, use (s.setMem mem) value = (use s value).setMem mem)
    (keeps : ∀ value s', use s value = .goOn s' → s'.mem = s.mem)
    (same : mem k.toNat = s.mem k.toNat) :
    Alike none s mem (s.scratch k (use s)) ((s.setMem mem).scratch k (use (s.setMem mem))) := by
  unfold State.scratch
  split
  · show Alike none s mem (use s (s.mem k.toNat)) (use (s.setMem mem) (mem k.toNat))
    rw [same, blind]
    exact alike_setMem (keeps _)
  · rfl

/-- **One instruction in both runs**, when the word it loads is the same. -/
theorem execute_alike (same : ∀ k ∈ insn.loaded f, mem k = s.mem k) :
    Alike (insn.stored f) s mem (execute shifts skb f s insn)
      (execute shifts skb f (s.setMem mem) insn) := by
  by_cases blind : insn.usesScratch = false
  · rw [execute_setMem blind]
    have none_stored : insn.stored f = none := by
      cases insn <;> first | rfl | cases blind
    rw [none_stored]
    exact alike_setMem fun s' goes => execute_mem blind goes
  cases insn with
  | ldMem =>
    refine @scratch_alike s mem f.k (fun s value => State.next { s with a := value })
      (fun _ => rfl) ?_ (same _ rfl)
    rintro value s' ⟨⟩
    rfl
  | ldxMem =>
    refine @scratch_alike s mem f.k (fun s value => State.next { s with x := value })
      (fun _ => rfl) ?_ (same _ rfl)
    rintro value s' ⟨⟩
    rfl
  | st => exact store_alike f.k s.a
  | stx => exact store_alike f.k s.x
  | _ => exact absurd rfl blind

theorem step_eq (fetched : fetch prog s.pc = some f) (decoded : decode f.code = some insn) :
    step shifts skb prog s = execute shifts skb f s insn := by
  rw [step, fetched]
  simp only [decoded]

theorem step_alike (shifts : Shifts) (skb : SkBuff) (same : ∀ k ∈ loads prog s, mem k = s.mem k) :
    Alike (stores prog s) s mem (step shifts skb prog s) (step shifts skb prog (s.setMem mem)) := by
  rw [step, step, show (s.setMem mem).pc = s.pc from rfl]
  cases fetched : fetch prog s.pc with
  | none => rfl
  | some f =>
    cases decoded : decode f.code with
    | none => simp only [decoded]; rfl
    | some insn =>
      have loads_eq : loads prog s = insn.loaded f := by
        rw [loads, fetched, bind_some, decoded, bind_some]
      have stores_eq : stores prog s = insn.stored f := by
        rw [stores, fetched, bind_some, decoded, bind_some]
      rw [loads_eq] at same
      rw [stores_eq]
      simp only [decoded]
      exact execute_alike same

theorem alike_exit {stored : Option Nat} {left : Exit} {other : Next}
    (alike : Alike stored s mem (.exit left) other) : other = .exit left := by
  cases other with
  | goOn next' => exact alike.elim
  | exit left' => exact congrArg Next.exit alike

theorem alike_goOn {stored : Option Nat} {other : Next}
    (alike : Alike stored s mem (.goOn next) other) :
    ∃ mem', other = .goOn (next.setMem mem') ∧ (∀ k ∈ stored, mem' k = next.mem k) ∧
      ∀ k ∉ stored, mem' k = mem k ∧ next.mem k = s.mem k := by
  cases other with
  | goOn next' =>
    obtain ⟨mem', rfl, written, kept⟩ := alike
    exact ⟨mem', rfl, written, kept⟩
  | exit left' => exact alike.elim

theorem run_outside (outside : ¬s.pc < prog.length) (fuel : Nat) :
    run shifts skb prog (fuel + 1) s = ([], some .endOfProgram) := by
  rw [run, if_neg outside]

/-- **Two runs that agree on the words stored so far** show the same and end the same way. -/
theorem run_lockstep (fuel : Nat) (agree : ∀ k ∈ stored, mem k = s.mem k)
    (first : StoresFirst prog stored (run shifts skb prog fuel s).1) :
    (run shifts skb prog fuel (s.setMem mem)).1.map State.registers =
        (run shifts skb prog fuel s).1.map State.registers ∧
      (run shifts skb prog fuel (s.setMem mem)).2 = (run shifts skb prog fuel s).2 := by
  induction fuel generalizing s mem stored with
  | zero =>
    exact ⟨rfl, rfl⟩
  | succ fuel ih =>
    by_cases inside : s.pc < prog.length
    · have inside' : (s.setMem mem).pc < prog.length := inside
      cases result : step shifts skb prog s with
      | exit left =>
        rw [run_exit inside result] at first ⊢
        have alike := step_alike shifts skb fun k loaded => agree k (first.1 k loaded)
        rw [result] at alike
        rw [run_exit inside' (alike_exit alike)]
        exact ⟨rfl, rfl⟩
      | goOn next =>
        rw [run_cons inside result] at first ⊢
        have alike := step_alike shifts skb fun k loaded => agree k (first.1 k loaded)
        rw [result] at alike
        obtain ⟨mem', goes, written, kept⟩ := alike_goOn alike
        rw [run_cons inside' goes]
        have agree' : ∀ k ∈ (stores prog s).toList ++ stored, mem' k = next.mem k := by
          intro k member
          by_cases now : k ∈ stores prog s
          · exact written k now
          have before : k ∈ stored :=
            (mem_append.mp member).resolve_left fun new => now (mem_toList.mp new)
          rw [(kept k now).1, (kept k now).2]
          exact agree k before
        obtain ⟨shown, ended⟩ := ih agree' first.2
        exact ⟨congrArg (s.registers :: ·) shown, ended⟩
    · have outside' : ¬(s.setMem mem).pc < prog.length := inside
      rw [run_outside inside, run_outside outside']
      exact ⟨rfl, rfl⟩

theorem run_head (inside : s.pc < prog.length) (fuel : Nat) :
    (run shifts skb prog (fuel + 1) s).1.head? = some s := by
  cases result : step shifts skb prog s with
  | exit left => rw [run_exit inside result]; rfl
  | goOn next => rw [run_cons inside result]; rfl

theorem load_differs (loaded : k ∈ loads prog s) (differs : mem k ≠ s.mem k)
    (goes : step shifts skb prog s = .goOn next) :
    ∃ next', step shifts skb prog (s.setMem mem) = .goOn next' ∧ next'.pc = next.pc ∧
      next'.registers ≠ next.registers := by
  obtain ⟨f, fetched, loaded⟩ := bind_eq_some_iff.mp loaded
  obtain ⟨insn, decoded, loaded⟩ := bind_eq_some_iff.mp loaded
  have second : step shifts skb prog (s.setMem mem) = execute shifts skb f (s.setMem mem) insn :=
    step_eq fetched decoded
  rw [step_eq fetched decoded] at goes
  rw [second]
  cases insn with
  | ldMem | ldxMem =>
    injection loaded with loaded
    subst loaded
    by_cases word : f.k.toNat < bpfMemwords
    · have here := (if_pos word).symm.trans goes
      injection here with here
      subst here
      refine ⟨_, if_pos word, rfl, fun same => differs ?_⟩
      simpa [State.registers, State.setMem] using same
    · cases (if_neg word).symm.trans goes
  | _ => cases loaded

theorem load_goes (executes : Executes prog s) (loaded : k ∈ loads prog s) :
    ∃ next, step shifts skb prog s = .goOn next := by
  obtain ⟨-, -, f, insn, fetched, decoded, scratch, -⟩ := executes
  rw [loads, fetched, bind_some, decoded, bind_some] at loaded
  rw [step_eq fetched decoded]
  cases insn with
  | ldMem | ldxMem => exact ⟨_, if_pos (scratch rfl)⟩
  | _ => cases loaded

/-- **A load of a word that was not stored shows**: the registers depend on what it holds. -/
theorem run_differs (accepted : skChkFilter prog = .ok ()) (fuel : Nat) (low : 0 ≤ s.pc)
    (high : s.pc < prog.length) (enough : prog.length - s.pc ≤ fuel)
    (late : ¬StoresFirst prog stored (run shifts skb prog fuel s).1) :
    ∃ k ∉ stored, ∀ mem : Nat → BitVec 32, mem k ≠ s.mem k → (∀ j, j ≠ k → mem j = s.mem j) →
      (run shifts skb prog fuel (s.setMem mem)).1.map State.registers ≠
        (run shifts skb prog fuel s).1.map State.registers := by
  induction fuel generalizing s stored with
  | zero =>
    omega
  | succ fuel ih =>
    obtain ⟨executes, fine⟩ := @step_fine shifts skb prog accepted s low high
    by_cases here : ∀ k ∈ loads prog s, k ∈ stored
    · cases result : step shifts skb prog s with
      | exit left =>
        rw [run_exit high result] at late
        exact absurd ⟨here, trivial⟩ late
      | goOn next =>
        rw [result] at fine
        rw [run_cons high result] at late ⊢
        obtain ⟨k, new, shows⟩ := @ih next ((stores prog s).toList ++ stored)
          (by have := fine.1; omega) fine.2 (by have := fine.1; omega)
          fun first => late ⟨here, first⟩
        have not_stored : k ∉ stored := fun member => new (mem_append_right _ member)
        have not_now : k ∉ stores prog s := fun now =>
          new (mem_append_left _ (mem_toList.mpr now))
        refine ⟨k, not_stored, fun mem differs others same => ?_⟩
        have alike := step_alike shifts skb fun j loaded =>
          others j (ne_of_mem_of_not_mem (here j loaded) not_stored)
        rw [result] at alike
        obtain ⟨mem', goes, written, kept⟩ := alike_goOn alike
        rw [run_cons (show (s.setMem mem).pc < prog.length from high) goes] at same
        -- the two arrays still differ in `k` only
        refine shows mem' ?_ (fun j apart => ?_) (cons.inj same).2
        · rw [(kept k not_now).1, (kept k not_now).2]
          exact differs
        · by_cases now : j ∈ stores prog s
          · exact written j now
          · rw [(kept j now).1, (kept j now).2]
            exact others j apart
    · obtain ⟨k, loaded, unstored⟩ : ∃ k ∈ loads prog s, k ∉ stored := by simpa using here
      obtain ⟨next, goes⟩ := @load_goes shifts skb s prog k executes loaded
      rw [goes] at fine
      obtain ⟨more, rfl⟩ : ∃ more, fuel = more + 1 :=
        Nat.exists_eq_add_one.mpr (by have := fine.1; have := fine.2; omega)
      refine ⟨k, unstored, fun mem differs _ same => ?_⟩
      obtain ⟨next', goes', same_pc, apart⟩ := load_differs loaded differs goes
      rw [run_cons high goes, run_cons (show (s.setMem mem).pc < prog.length from high) goes'] at same
      have heads := congrArg head? (cons.inj same).2
      rw [head?_map, head?_map, run_head fine.2, run_head (same_pc ▸ fine.2)] at heads
      exact apart (some.inj heads)

/-- **What an accepted filter does depends on the stale array exactly when it loads a word that it
did not store.** -/
theorem filter_scratch_stale (accepted : skChkFilter prog = .ok ()) (shifts : Shifts) (skb : SkBuff)
    (mem : Nat → BitVec 32) :
    (StoresFirst prog [] (run shifts skb prog prog.length (start mem)).1 ↔
      ∀ mem', (run shifts skb prog prog.length (start mem')).1.map State.registers =
        (run shifts skb prog prog.length (start mem)).1.map State.registers) ∧
    (StoresFirst prog [] (run shifts skb prog prog.length (start mem)).1 →
      ∃ value, ∀ mem', skRunFilter shifts skb prog mem' = some value) := by
  obtain ⟨positive, -, -⟩ := accepted_safe accepted
  have low : (0 : Int) ≤ (start mem).pc := le_refl 0
  have high : (start mem).pc < prog.length := by show (0 : Int) < prog.length; omega
  have enough : prog.length - (start mem).pc ≤ prog.length := by
    omega
  have nothing : ∀ mem' : Nat → BitVec 32, ∀ k ∈ ([] : List Nat), mem' k = (start mem).mem k := nofun
  refine ⟨⟨fun first mem' => (run_lockstep prog.length (nothing mem') first).1, ?_⟩, ?_⟩
  · intro same
    by_contra late
    obtain ⟨k, -, shows⟩ := run_differs accepted prog.length low high enough late
    refine shows (update mem k (mem k + 1)) ?_ ?_ (same _)
    · rw [update_self]
      show mem k + 1 ≠ mem k
      bv_omega
    · intro j apart
      exact update_of_ne apart _ _
  · intro first
    obtain ⟨trace, left, -, runs, -, -⟩ :=
      @run_fine shifts skb prog accepted prog.length (start mem) low high enough
    refine ⟨left.value, fun mem' => ?_⟩
    have ended := (run_lockstep prog.length (nothing mem') first).2
    rw [runs prog.length le_rfl] at ended
    exact congrArg (Option.map Exit.value) ended

/-- The first byte of the packet, by way of the scratch array. -/
def firstByteFilter : List SockFilter :=
  [⟨0x30, 0, 0, 0⟩, ⟨0x02, 0, 0, 3⟩, ⟨0x61, 0, 0, 3⟩, ⟨0x87, 0, 0, 0⟩, ⟨0x16, 0, 0, 0⟩]

theorem filter_scratch_stale_first_byte : skChkFilter firstByteFilter = .ok () ∧
    ∃ value, ∀ mem, skRunFilter zeroShifts zeroPacket firstByteFilter mem = some value := by
  have accepted : skChkFilter firstByteFilter = .ok () := by decide +kernel
  exact ⟨accepted, (filter_scratch_stale accepted zeroShifts zeroPacket fun _ => 0).2
    (by decide +kernel)⟩

/-- The first scratch word, as it was found. -/
def staleFilter : List SockFilter := [⟨0x60, 0, 0, 0⟩, ⟨0x16, 0, 0, 0⟩]

/-- An accepted filter that returns a stale word. -/
theorem stale_word_returned : skChkFilter staleFilter = .ok () ∧
    skRunFilter zeroShifts zeroPacket staleFilter (fun _ => 0) = some 0 ∧
    skRunFilter zeroShifts zeroPacket staleFilter (fun _ => 7) = some 7 := by
  decide +kernel

end KernelImx.Filter
