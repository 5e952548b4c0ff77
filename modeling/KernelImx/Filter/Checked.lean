/-
**A checked filter runs safely.**

Main result: `filter_checked_sound`.
-/

import KernelImx.Filter.Bpf

namespace KernelImx.Filter

open Nat Bool BitVec List

/-! ### What is checked -/

def Insn.usesScratch : Insn → Bool
  | .ldMem | .ldxMem | .st | .stx => true
  | _ => false

def Insn.returns : Insn → Bool
  | .retK | .retA => true
  | _ => false

/-- **What the checker has established** about an instruction. -/
structure Safe (flen pc : Nat) (f : SockFilter) (insn : Insn) : Prop where
  divisor : insn = .alu .div .k → f.k ≠ 0
  scratch : insn.usesScratch = true → f.k.toNat < bpfMemwords
  ja : insn = .ja → pc + f.k.toNat + 1 < flen
  jump : ∀ cond src, insn = .jump cond src → pc + f.jt.toNat + 1 < flen ∧ pc + f.jf.toNat + 1 < flen

variable {flen pc : Nat} {f : SockFilter} {insn : Insn}

theorem safe_of_plain (scratch : insn.usesScratch = false) (divisor : insn ≠ .alu .div .k)
    (ja : insn ≠ .ja) (jump : ∀ cond src, insn ≠ .jump cond src) : Safe flen pc f insn where
  divisor eq := absurd eq divisor
  scratch uses := by
    rw [scratch] at uses
    cases uses
  ja eq := absurd eq ja
  jump cond src eq := absurd eq (jump cond src)

theorem safe_of_scratch (uses : insn.usesScratch = true) (word : f.k.toNat < bpfMemwords) :
    Safe flen pc f insn := by
  refine ⟨?_, fun _ => word, ?_, ?_⟩
  · rintro rfl
    cases uses
  · rintro rfl
    cases uses
  · rintro cond src rfl
    cases uses

theorem safe_of_divisor (nonzero : f.k ≠ 0) : Safe flen pc f (.alu .div .k) :=
  ⟨fun _ => nonzero, nofun, nofun, nofun⟩

theorem safe_of_ja (inside : pc < flen) (near : f.k < BitVec.ofInt 32 ((flen : Int) - pc - 1)) :
    Safe flen pc f .ja := by
  refine ⟨nofun, nofun, fun _ => ?_, nofun⟩
  have room : (flen : Int) - pc - 1 = ((flen - pc - 1 : Nat) : Int) := by omega
  rw [room, ofInt_natCast, lt_def, toNat_ofNat] at near
  omega

theorem safe_of_jump {cond : Cond} {src : Source}
    (near : pc + f.jt.toNat + 1 < flen ∧ pc + f.jf.toNat + 1 < flen) :
    Safe flen pc f (.jump cond src) :=
  ⟨nofun, nofun, nofun, fun _ _ _ => near⟩

/-- **Every instruction the checker accepts is one of the interpreter's**, and safe. -/
theorem skChkInsn_safe (inside : pc < flen) (checked : skChkInsn flen pc f = true) :
    ∃ insn, decode f.code = some insn ∧ Safe flen pc f insn := by
  unfold skChkInsn at checked
  unfold decode
  -- one goal for each case label of the checker
  split at checked
  all_goals rename_i code
  all_goals first
    | cases checked; done
    | (rw [code]
       first
         | exact ⟨_, rfl, safe_of_scratch rfl (of_decide_eq_true checked)⟩
         | exact ⟨_, rfl, safe_of_divisor (of_decide_eq_true checked)⟩
         | exact ⟨_, rfl, safe_of_ja inside (of_decide_eq_true checked)⟩
         | exact ⟨_, rfl, safe_of_jump (of_decide_eq_true checked)⟩
         | exact ⟨_, rfl, safe_of_plain rfl nofun nofun nofun⟩)

theorem returns_of_class (decoded : decode f.code = some insn) (ret : f.code &&& 0x07 = 0x06) :
    insn.returns = true := by
  have low : f.code.toNat &&& 7 = 6 := congrArg BitVec.toNat ret
  unfold decode at decoded
  split at decoded
  all_goals rename_i code
  all_goals first
    | cases decoded; done
    | (rw [code] at low
       cases decoded
       first
         | rfl
         | exact absurd low (by decide))

theorem skChkLoop_get (prog : List SockFilter) {pc i : Nat} {f : SockFilter}
    (checked : skChkLoop flen pc prog = true) (found : prog[i]? = some f) :
    skChkInsn flen (pc + i) f = true := by
  induction prog generalizing pc i f with
  | nil =>
    cases found
  | cons first rest ih =>
    rw [skChkLoop, and_eq_true] at checked
    cases i with
    | zero =>
      cases found
      exact checked.1
    | succ i =>
      rw [show pc + (i + 1) = pc + 1 + i by omega]
      exact ih checked.2 found

/-- **An accepted program**: every instruction is known and safe, and only a return is last. -/
theorem accepted_safe {prog : List SockFilter} (accepted : skChkFilter prog = .ok ()) :
    0 < prog.length ∧ prog.length ≤ bpfMaxinsns ∧ ∀ pc f, prog[pc]? = some f →
      ∃ insn, decode f.code = some insn ∧ Safe prog.length pc f insn ∧
        (insn.returns = true ∨ pc + 1 < prog.length) := by
  unfold skChkFilter at accepted
  split at accepted
  · cases accepted
  split at accepted
  · cases accepted
  rename_i checked
  have checked' : skChkLoop prog.length 0 prog = true := by simpa using checked
  refine ⟨by omega, by omega, fun pc f found => ?_⟩
  have inside : pc < prog.length := (List.getElem?_eq_some_iff.mp found).1
  have here := skChkLoop_get prog checked' found
  rw [zero_add] at here
  obtain ⟨insn, decoded, safe⟩ := skChkInsn_safe inside here
  refine ⟨insn, decoded, safe, ?_⟩
  by_cases last : pc + 1 < prog.length
  · exact .inr last
  left
  have position : pc = prog.length - 1 := by omega
  rw [getLast?_eq_getElem?, ← position, found] at accepted
  simp only at accepted
  split at accepted
  · exact returns_of_class decoded ‹_›
  · cases accepted

/-! ### One instruction -/

/-- The three ways out of a checked filter. -/
def Exit.allowed : Exit → Prop
  | .ret _ | .divByZero | .failedLoad => True
  | .unknownCode | .endOfProgram | .fault _ => False

/-- `pc` moves forward inside the program, or the interpreter is left in one of the three ways. -/
def Fine (flen : Nat) (s : State) : Next → Prop
  | .goOn next => s.pc < next.pc ∧ next.pc < flen
  | .exit exit => exit.allowed

variable {next : State}

section Fine

variable {s : State}

theorem fine_next (same : next.pc = s.pc) (more : s.pc + 1 < flen) : Fine flen s next.next := by
  show s.pc < next.pc + 1 ∧ next.pc + 1 < flen
  rw [same]
  exact ⟨Int.lt_succ s.pc, more⟩

theorem ancillary_fine (skb : SkBuff) (k : Int) (more : s.pc + 1 < flen) :
    Fine flen s (ancillary skb k s) := by
  unfold ancillary
  split
  case h_1 | h_2 | h_4 | h_5 => exact fine_next rfl more
  case h_3 | h_6 =>
    split
    · trivial
    · exact fine_next rfl more
  case h_7 | h_8 =>
    split
    · trivial
    · exact fine_next rfl more
  case h_9 => trivial

theorem load_fine (skb : SkBuff) (k : BitVec 32) (size : Size) (more : s.pc + 1 < flen) :
    Fine flen s (load skb k size s) := by
  unfold load
  split
  · exact fine_next rfl more
  · exact ancillary_fine skb _ more

theorem store_fine {k : BitVec 32} (word : k.toNat < bpfMemwords) (value : BitVec 32)
    (more : s.pc + 1 < flen) : Fine flen s (s.store k value) := by
  unfold State.store
  rw [if_pos word]
  exact fine_next rfl more

/-- A `Safe` instruction moves `pc` forward inside the program, or leaves the interpreter in one of
three ways. -/
theorem execute_fine (shifts : Shifts) (skb : SkBuff) (here : s.pc = pc)
    (safe : Safe flen pc f insn) (short : flen ≤ bpfMaxinsns)
    (more : insn.returns = true ∨ pc + 1 < flen) : Fine flen s (execute shifts skb f s insn) := by
  have more' : insn.returns = false → s.pc + 1 < flen := by
    intro stays
    have room := more.resolve_left (by rw [stays]; exact false_ne_true)
    omega
  cases insn with
  | alu op src =>
    cases op with
    | div =>
      cases src with
      | k =>
        show Fine flen s (if f.k = 0 then _ else _)
        rw [if_neg (safe.divisor rfl)]
        exact fine_next rfl (more' rfl)
      | x =>
        show Fine flen s (if s.x = 0 then _ else _)
        split
        · trivial
        · exact fine_next rfl (more' rfl)
    | add | sub | mul | and | or | lsh | rsh => exact fine_next rfl (more' rfl)
  | ja =>
    have near := safe.ja rfl
    unfold bpfMaxinsns at short
    have target : (BitVec.ofInt 32 s.pc + f.k).toInt = s.pc + f.k.toNat := by
      rw [here, ofInt_natCast, toInt_eq_toNat_cond, toNat_add,
        toNat_ofNat, mod_eq_of_lt (by omega : pc < 2 ^ 32),
        mod_eq_of_lt (by omega), if_pos (by omega)]
      rfl
    show s.pc < (BitVec.ofInt 32 s.pc + f.k).toInt + 1 ∧ (BitVec.ofInt 32 s.pc + f.k).toInt + 1 < flen
    omega
  | jump cond src =>
    obtain ⟨taken, not_taken⟩ := safe.jump cond src rfl
    show s.pc < s.pc + (if _ then _ else _) + 1 ∧ s.pc + (if _ then _ else _) + 1 < (flen : Int)
    split <;> omega
  | ldAbs size => exact load_fine skb f.k size (more' rfl)
  | ldInd size => exact load_fine skb _ size (more' rfl)
  | ldxMsh =>
    rw [execute]
    split
    · exact fine_next rfl (more' rfl)
    · trivial
  | ldMem | ldxMem =>
    show Fine flen s (if _ then _ else _)
    rw [if_pos (safe.scratch rfl)]
    exact fine_next rfl (more' rfl)
  | st | stx => exact store_fine (safe.scratch rfl) _ (more' rfl)
  | retK | retA => trivial
  | neg | ldLen | ldxLen | ldImm | ldxImm | tax | txa => exact fine_next rfl (more' rfl)

end Fine

/-! ### The whole run -/

/-- An instruction of the program that the interpreter knows, with its scratch word in the array and
no zero constant as a divisor. -/
def Executes (prog : List SockFilter) (s : State) : Prop :=
  0 ≤ s.pc ∧ s.pc < prog.length ∧ ∃ f insn, fetch prog s.pc = some f ∧ decode f.code = some insn ∧
    (insn.usesScratch = true → f.k.toNat < bpfMemwords) ∧ (insn = .alu .div .k → f.k ≠ 0)

section Run

variable {shifts : Shifts} {skb : SkBuff} {prog : List SockFilter}

theorem run_cons {s : State} (inside : s.pc < prog.length)
    (goes : step shifts skb prog s = .goOn next) (fuel : Nat) :
    run shifts skb prog (fuel + 1) s =
      (s :: (run shifts skb prog fuel next).1, (run shifts skb prog fuel next).2) := by
  rw [run, if_pos inside, goes]

theorem run_exit {s : State} {exit : Exit} (inside : s.pc < prog.length)
    (leaves : step shifts skb prog s = .exit exit) (fuel : Nat) :
    run shifts skb prog (fuel + 1) s = ([s], some exit) := by
  rw [run, if_pos inside, leaves]

theorem step_fine (accepted : skChkFilter prog = .ok ()) {s : State} (low : 0 ≤ s.pc)
    (high : s.pc < prog.length) :
    Executes prog s ∧ Fine prog.length s (step shifts skb prog s) := by
  obtain ⟨-, short, all⟩ := accepted_safe accepted
  obtain ⟨pc, here⟩ := Int.eq_ofNat_of_zero_le low
  have inside : pc < prog.length := by omega
  have found : prog[pc]? = some prog[pc] := List.getElem?_eq_getElem inside
  obtain ⟨insn, decoded, safe, more⟩ := all pc _ found
  have fetched : fetch prog s.pc = some prog[pc] := by
    rw [fetch, if_neg (by omega), here]
    exact found
  refine ⟨⟨low, high, prog[pc], insn, fetched, decoded, safe.scratch, safe.divisor⟩, ?_⟩
  rw [step, fetched]
  simp only [decoded]
  exact execute_fine shifts skb here safe short more

theorem run_fine (accepted : skChkFilter prog = .ok ()) (left : Nat) {s : State} (low : 0 ≤ s.pc)
    (high : s.pc < prog.length) (bound : prog.length - s.pc ≤ left) :
    ∃ trace exit, trace.length ≤ left ∧
      (∀ fuel ≥ left, run shifts skb prog fuel s = (trace, some exit)) ∧
      (∀ t ∈ trace, Executes prog t) ∧ exit.allowed ∧
      ∃ last, trace.getLast? = some last ∧ step shifts skb prog last = .exit exit := by
  induction left generalizing s with
  | zero =>
    omega
  | succ left ih =>
    obtain ⟨executes, fine⟩ := @step_fine shifts skb prog accepted s low high
    cases result : step shifts skb prog s with
    | exit exit =>
      rw [result] at fine
      refine ⟨[s], exit, succ_le_succ (zero_le left), fun fuel enough => ?_, ?_, fine, s, rfl, result⟩
      · obtain ⟨fuel, rfl⟩ := exists_eq_succ_of_ne_zero (ne_of_gt (zero_lt_of_lt enough))
        exact run_exit high result fuel
      · intro t member
        rw [mem_singleton.mp member]
        exact executes
    | goOn next =>
      rw [result] at fine
      obtain ⟨trace, exit, short, runs, all, allowed, last, final, leaves⟩ :=
        @ih next (by have := fine.1; omega) fine.2 (by have := fine.1; omega)
      refine ⟨s :: trace, exit, succ_le_succ short, fun fuel enough => ?_, ?_, allowed, last, ?_, leaves⟩
      · obtain ⟨fuel, rfl⟩ := exists_eq_succ_of_ne_zero (ne_of_gt (zero_lt_of_lt enough))
        rw [run_cons high result, runs fuel (le_of_succ_le_succ enough)]
      · exact forall_mem_cons.mpr ⟨executes, all⟩
      · rw [getLast?_cons, final]
        rfl

/-- **A filter that `sk_chk_filter` accepts runs safely** on every packet: it ends within as many
instructions as it has, each of them inside the program and known to the interpreter, with its scratch
word in the array and no division by a zero constant; the last one leaves by a return, a division by a
zero `X` or a load that failed. -/
theorem filter_checked_sound (accepted : skChkFilter prog = .ok ()) (shifts : Shifts) (skb : SkBuff)
    (mem : Nat → BitVec 32) :
    ∃ trace exit, trace.length ≤ prog.length ∧
      (∀ fuel ≥ prog.length, run shifts skb prog fuel (start mem) = (trace, some exit)) ∧
      (∀ s ∈ trace, Executes prog s) ∧
      (∃ last, trace.getLast? = some last ∧ step shifts skb prog last = .exit exit) ∧
      ((∃ value, exit = .ret value) ∨ exit = .divByZero ∨ exit = .failedLoad) := by
  obtain ⟨positive, -, -⟩ := accepted_safe accepted
  obtain ⟨trace, exit, short, runs, all, allowed, final⟩ := @run_fine shifts skb prog accepted prog.length
    (start mem) (le_refl 0) (by show (0 : Int) < prog.length; omega)
    (by show (prog.length : Int) - 0 ≤ prog.length; omega)
  refine ⟨trace, exit, short, runs, all, final, ?_⟩
  cases exit with
  | ret value => exact .inl ⟨value, rfl⟩
  | divByZero => exact .inr (.inl rfl)
  | failedLoad => exact .inr (.inr rfl)
  | unknownCode | endOfProgram | fault => exact allowed.elim

end Run

def notIpFilter : List SockFilter :=
  [⟨0x28, 0, 0, 12⟩, ⟨0x15, 0, 1, 0x800⟩, ⟨0x06, 0, 0, 0⟩, ⟨0x06, 0, 0, 64⟩]

/-- A packet of sixty zero bytes, the last twenty of them in a fragment. -/
def zeroPacket : SkBuff :=
  ⟨fun _ => 0, 40, replicate 20 0, 16, 14, 0, 0, 0, none, 0, 0⟩

def zeroShifts : Shifts := ⟨fun _ _ => 0, fun _ _ => 0⟩

theorem filter_checked_sound_not_ip : skChkFilter notIpFilter = .ok () ∧
    ∃ trace exit, run zeroShifts zeroPacket notIpFilter 4 (start fun _ => 0) = (trace, some exit) ∧
      trace.length ≤ 4 ∧ ∀ s ∈ trace, Executes notIpFilter s := by
  have accepted : skChkFilter notIpFilter = .ok () := by decide +kernel
  obtain ⟨trace, exit, short, runs, all, -⟩ :=
    filter_checked_sound accepted zeroShifts zeroPacket fun _ => 0
  exact ⟨accepted, trace, exit, runs 4 le_rfl, short, all⟩

end KernelImx.Filter
