/-
**`kernel/kfifo.c`: one writer and one reader.**

The two sides of a kfifo run without a lock. Each of their steps is one access to what they share: a
read of the other side's index, the copy of one byte, the update of the own index.

Main result: `kfifo_in_order`.
-/

import KernelImx.Lib.Runs

namespace KernelImx.Kfifo

open List BitVec KernelImx.Lib Nat Function

/-! ### The buffer -/

/-- The macro `min`. -/
def minimum (one two : BitVec 32) : BitVec 32 := if one < two then one else two

/-- `kfifo_len`, of the indices as they were read. -/
def kfifoLen (inIndex outIndex : BitVec 32) : BitVec 32 := inIndex - outIndex

def kfifoAvail (size inIndex outIndex : BitVec 32) : BitVec 32 := size - kfifoLen inIndex outIndex

def kfifoOff (size off : BitVec 32) : BitVec 32 := off &&& (size - 1)

/-- The cell of the byte `index` of a copy, which has two parts. -/
def copyCell (size len off : BitVec 32) (index : Nat) : Nat :=
  let l := minimum len (size - off)
  if index < l.toNat then off.toNat + index else index - l.toNat

/-! ### The two sides -/

inductive Writer
  | idle
  /-- `kfifo_avail` has read `fifo->out`. -/
  | sampled (source : Nat → UInt8) (len outIndex : BitVec 32)
  /-- In `__kfifo_in_data`. -/
  | copying (source : Nat → UInt8) (len off : BitVec 32) (copied : Nat)

inductive Reader
  | idle
  /-- In `__kfifo_out_data`. -/
  | copying (len off : BitVec 32) (copied : List UInt8)
  /-- In `kfifo_skip`, before `__kfifo_add_out`. -/
  | skipping (len : BitVec 32)
  /-- In `kfifo_skip`, before `kfifo_reset_out` reads `fifo->in`. -/
  | resetting
  /-- `kfifo_reset_out` has read `fifo->in`. -/
  | storing (inIndex : BitVec 32)

/-- What a call of the reader came to. -/
inductive Outcome
  | returned (bytes : List UInt8)
  | skipped (count : Nat)
  deriving DecidableEq, Repr

/-- The `struct kfifo` and its two sides, with what was accepted and, the latest first, what was
taken. -/
structure State where
  buffer : Nat → UInt8
  size : BitVec 32
  inIndex : BitVec 32
  outIndex : BitVec 32
  writer : Writer
  reader : Reader
  accepted : List UInt8
  outcomes : List Outcome

inductive Label
  | kfifoIn (source : Nat → UInt8) (len : BitVec 32)
  | kfifoOut (len : BitVec 32)
  | kfifoSkip (len : BitVec 32)
  /-- The writer goes on. -/
  | write
  /-- The reader goes on. -/
  | read

/-- The writer goes on. Only it changes `fifo->in`, so that it may read it at once. -/
def writeStep (state : State) : Writer → Option State
  | .idle => none
  | .sampled source len outIndex =>
    let len := minimum (kfifoAvail state.size state.inIndex outIndex) len
    some { state with
      writer := .copying source len (kfifoOff state.size state.inIndex) 0 }
  | .copying source len off copied =>
    if copied < len.toNat then
      some { state with
        buffer := update state.buffer
          (copyCell state.size len off copied) (source copied)
        writer := .copying source len off (copied + 1) }
    else
      some { state with
        inIndex := state.inIndex + len
        writer := .idle
        accepted := state.accepted ++ (range len.toNat).map source }

def readStep (state : State) : Reader → Option State
  | .idle => none
  | .copying len off copied =>
    if copied.length < len.toNat then
      let byte := state.buffer (copyCell state.size len off copied.length)
      some { state with reader := .copying len off (copied ++ [byte]) }
    else
      some { state with
        outIndex := state.outIndex + len
        reader := .idle
        outcomes := .returned copied :: state.outcomes }
  | .skipping len =>
    some { state with
      outIndex := state.outIndex + len
      reader := .idle
      outcomes := .skipped len.toNat :: state.outcomes }
  | .resetting => some { state with reader := .storing state.inIndex }
  | .storing inIndex =>
    some { state with
      outIndex := inIndex
      reader := .idle
      outcomes := .skipped (inIndex - state.outIndex).toNat :: state.outcomes }

/-- One access of one side. A side that is in a call does not start another one. -/
def step (state : State) : Label → Option State
  | .kfifoIn source len =>
    match state.writer with
    | .idle => some { state with writer := .sampled source len state.outIndex }
    | _ => none
  | .kfifoOut len =>
    match state.reader with
    | .idle =>
      let len := minimum (kfifoLen state.inIndex state.outIndex) len
      some { state with
        reader := .copying len (kfifoOff state.size state.outIndex) [] }
    | _ => none
  | .kfifoSkip len =>
    match state.reader with
    | .idle =>
      if len < kfifoLen state.inIndex state.outIndex then
        some { state with reader := .skipping len }
      else
        some { state with reader := .resetting }
    | _ => none
  | .write => writeStep state state.writer
  | .read => readStep state state.reader

/-! ### What the reader may get -/

def Outcome.count : Outcome → Nat
  | .returned bytes => bytes.length
  | .skipped count => count

def consumed (outcomes : List Outcome) : Nat := (outcomes.map Outcome.count).sum

/-- **The reader gets a stream in order**: what a call returns follows what was consumed before it. -/
def Delivered (stream : List UInt8) : List Outcome → Prop
  | [] => True
  | .returned bytes :: earlier => bytes <+: stream.drop (consumed earlier) ∧ Delivered stream earlier
  | .skipped _ :: earlier => Delivered stream earlier

@[simp] theorem consumed_cons (outcome : Outcome) (outcomes : List Outcome) :
    consumed (outcome :: outcomes) = outcome.count + consumed outcomes := rfl

theorem prefix_drop_append {bytes stream : List UInt8} (more : List UInt8) {from_ : Nat}
    (front : bytes <+: stream.drop from_) : bytes <+: (stream ++ more).drop from_ := by
  rw [drop_append]
  exact front.trans (prefix_append _ _)

theorem Delivered.append {stream : List UInt8} (more : List UInt8) {outcomes : List Outcome}
    (delivered : Delivered stream outcomes) : Delivered (stream ++ more) outcomes := by
  induction outcomes with
  | nil => trivial
  | cons outcome earlier ih =>
    cases outcome with
    | returned bytes => exact ⟨prefix_drop_append more delivered.1, ih delivered.2⟩
    | skipped count => exact ih delivered

/-! ### Indices of 32 bits -/

section Indices

variable {size : BitVec 32} {bits : Nat}

theorem sub_ofNat {low high : Nat} (ordered : low ≤ high) (near : high - low < 2 ^ 32) :
    (BitVec.ofNat 32 high - BitVec.ofNat 32 low).toNat = high - low := by
  rw [toNat_sub, toNat_ofNat, toNat_ofNat]
  omega

theorem ofNat_add_toNat (start : Nat) (len : BitVec 32) :
    BitVec.ofNat 32 start + len = BitVec.ofNat 32 (start + len.toNat) := by
  rw [ofNat_add, ofNat_toNat, setWidth_eq]

theorem minimum_toNat (one two : BitVec 32) : (minimum one two).toNat = min one.toNat two.toNat := by
  rw [minimum]
  split
  next less =>
    rw [lt_def] at less
    omega
  next notLess =>
    rw [lt_def] at notLess
    omega

theorem kfifoOff_toNat (power : size.toNat = 2 ^ bits) (place : Nat) :
    (kfifoOff size (BitVec.ofNat 32 place)).toNat = place % size.toNat := by
  have width : bits ≤ 32 := by
    have := size.isLt
    rw [power] at this
    exact le_of_lt ((Nat.pow_lt_pow_iff_right (by omega)).mp this)
  have positive : 0 < 2 ^ bits := Nat.two_pow_pos bits
  have less : (size - 1).toNat = 2 ^ bits - 1 := by
    rw [toNat_sub, power]
    have one : (1 : BitVec 32).toNat = 1 := rfl
    omega
  rw [kfifoOff, toNat_and, toNat_ofNat, less, and_two_pow_sub_one_eq_mod, power]
  exact mod_mod_of_dvd _ (pow_dvd_pow 2 width)

theorem copyCell_eq {len off : BitVec 32} {place index : Nat} (isOff : off.toNat = place % size.toNat)
    (fits : len.toNat ≤ size.toNat) (inside : index < len.toNat) :
    copyCell size len off index = (place + index) % size.toNat := by
  have offIn : off.toNat < size.toNat := by
    rw [isOff]
    exact mod_lt _ (by omega)
  have room : (size - off).toNat = size.toNat - off.toNat := by
    rw [toNat_sub]
    omega
  rw [copyCell, minimum_toNat, room, ← mod_add_mod, ← isOff]
  split
  · rw [mod_eq_of_lt (by omega)]
  · rw [mod_eq_sub_mod (by omega), mod_eq_of_lt (by omega)]
    omega

theorem cells_differ {window low high : Nat} (ordered : low < high) (near : high < low + window) :
    low % window ≠ high % window := by
  intro same
  have multiple := sub_mod_eq_zero_of_mod_eq same.symm
  rw [mod_eq_of_lt (by omega)] at multiple
  omega

end Indices

/-! ### The invariant -/

section Invariant

/-- What the writer has sampled is still good: `fifo->out` only went on since. -/
def WriterFlow (base : Nat) (state : State) : Writer → Prop
  | .idle => True
  | .sampled _ _ outIndex => ∃ seen, seen ≤ consumed state.outcomes ∧
      state.accepted.length ≤ seen + state.size.toNat ∧
      outIndex = BitVec.ofNat 32 (base + seen) ∧ seen ≤ state.accepted.length
  | .copying source len off copied =>
    state.accepted.length + len.toNat ≤ consumed state.outcomes + state.size.toNat ∧
    off.toNat = (base + state.accepted.length) % state.size.toNat ∧
    len.toNat ≤ state.size.toNat ∧
    ∀ index < copied,
      state.buffer ((base + state.accepted.length + index) % state.size.toNat) =
        source index

/-- What the reader has sampled is still good: `fifo->in` only went on since. -/
def ReaderFlow (base : Nat) (state : State) : Reader → Prop
  | .idle => True
  | .copying len off copied =>
    consumed state.outcomes + len.toNat ≤ state.accepted.length ∧
    off.toNat = (base + consumed state.outcomes) % state.size.toNat ∧
    copied.length ≤ len.toNat ∧ copied <+: state.accepted.drop (consumed state.outcomes)
  | .skipping len => consumed state.outcomes + len.toNat ≤ state.accepted.length
  | .resetting => True
  | .storing inIndex => ∃ seen, consumed state.outcomes ≤ seen ∧ seen ≤ state.accepted.length ∧
      inIndex = BitVec.ofNat 32 (base + seen)

/-- **The invariant.** The stream starts at the place `base`. -/
structure Flow (base : Nat) (state : State) : Prop where
  power : ∃ bits, state.size.toNat = 2 ^ bits
  head : state.inIndex = BitVec.ofNat 32 (base + state.accepted.length)
  tail : state.outIndex = BitVec.ofNat 32 (base + consumed state.outcomes)
  behind : consumed state.outcomes ≤ state.accepted.length
  room : state.accepted.length ≤ consumed state.outcomes + state.size.toNat
  stored : ∀ place, consumed state.outcomes ≤ place → place < state.accepted.length →
    state.accepted[place]? = some (state.buffer ((base + place) % state.size.toNat))
  delivered : Delivered state.accepted state.outcomes
  writer : WriterFlow base state state.writer
  reader : ReaderFlow base state state.reader

variable {base : Nat} {state next : State}

theorem Flow.len (flow : Flow base state) :
    (kfifoLen state.inIndex state.outIndex).toNat =
      state.accepted.length - consumed state.outcomes := by
  have room := flow.room
  have behind := flow.behind
  rw [kfifoLen, flow.head, flow.tail, sub_ofNat (by omega) (by omega)]
  omega

theorem ReaderFlow.append {reader : Reader} (good : ReaderFlow base state reader) (more : List UInt8)
    (same : next.outcomes = state.outcomes) (size : next.size = state.size)
    (grown : next.accepted = state.accepted ++ more) : ReaderFlow base next reader := by
  have longer : state.accepted.length ≤ next.accepted.length := by
    rw [grown, length_append]
    exact le_add_right _ _
  cases reader with
  | idle => trivial
  | copying len off copied =>
    obtain ⟨fits, isOff, short, front⟩ := good
    rw [ReaderFlow, same, size, grown]
    exact ⟨le_trans fits (grown ▸ longer), isOff, short, prefix_drop_append more front⟩
  | skipping len =>
    rw [ReaderFlow, same]
    exact le_trans good longer
  | resetting => trivial
  | storing inIndex =>
    obtain ⟨seen, low, high, rfl⟩ := good
    exact ⟨seen, same ▸ low, le_trans high longer, rfl⟩

theorem WriterFlow.consume {writer : Writer} (good : WriterFlow base state writer)
    (more : consumed state.outcomes ≤ consumed next.outcomes) (size : next.size = state.size)
    (buffer : next.buffer = state.buffer) (accepted : next.accepted = state.accepted) :
    WriterFlow base next writer := by
  cases writer with
  | idle => trivial
  | sampled source len outIndex =>
    obtain ⟨seen, past, near, isOut, low⟩ := good
    rw [WriterFlow, size, accepted]
    exact ⟨seen, le_trans past more, near, isOut, low⟩
  | copying source len off copied =>
    obtain ⟨fits, rest⟩ := good
    rw [WriterFlow, size, buffer, accepted]
    exact ⟨le_trans fits (Nat.add_le_add_right more _), rest⟩

theorem writeStep_flow (flow : Flow base state) (taken : writeStep state state.writer = some next) :
    Flow base next := by
  obtain ⟨⟨bits, power⟩, head, tail, behind, room, stored, delivered, good, reader⟩ := flow
  cases phase : state.writer with
  | idle =>
    rw [phase] at taken
    cases taken
  | sampled source len outIndex =>
    rw [phase] at taken good
    cases taken
    obtain ⟨seen, past, near, rfl, low⟩ := good
    have avail : (kfifoAvail state.size state.inIndex (BitVec.ofNat 32 (base + seen))).toNat =
        state.size.toNat - (state.accepted.length - seen) := by
      have used := @sub_ofNat (base + seen) (base + state.accepted.length) (by omega) (by omega)
      rw [kfifoAvail, kfifoLen, head, toNat_sub, used]
      omega
    have least := minimum_toNat (kfifoAvail state.size state.inIndex (BitVec.ofNat 32 (base + seen))) len
    refine ⟨⟨bits, power⟩, head, tail, behind, room, stored, delivered, ⟨?_, ?_, ?_, ?_⟩, reader⟩
    · dsimp only
      omega
    · rw [head]
      exact kfifoOff_toNat power _
    · dsimp only
      omega
    · exact fun index inside => absurd inside (not_lt_zero index)
  | copying source len off copied =>
    rw [phase] at taken good
    obtain ⟨fits, isOff, short, done⟩ := good
    rw [writeStep] at taken
    split at taken
    next more =>
      cases taken
      -- the byte goes to a cell after all that is stored and all that was copied
      rw [copyCell_eq isOff short more]
      have other (place : Nat) (low : base + consumed state.outcomes ≤ place)
          (high : place < base + state.accepted.length + copied) :
          update state.buffer
            ((base + state.accepted.length + copied) % state.size.toNat) (source copied)
            (place % state.size.toNat) = state.buffer (place % state.size.toNat) :=
        update_of_ne (cells_differ high (by omega)) _ _
      refine ⟨⟨bits, power⟩, head, tail, behind, room, fun place low high => ?_, delivered,
        ⟨fits, isOff, short, fun index inside => ?_⟩, ?_⟩
      · dsimp only at low high ⊢
        rw [other _ (by omega) (by omega)]
        exact stored place low high
      · rcases Nat.lt_succ_iff_lt_or_eq.mp inside with before | rfl
        · exact (other (base + state.accepted.length + index) (by omega) (by omega)).trans
            (done index before)
        · exact update_self _ _ _
      · exact reader
    next all =>
      cases taken
      have total : (state.accepted ++ (range len.toNat).map source).length =
          state.accepted.length + len.toNat := by
        rw [length_append, length_map, length_range]
      refine ⟨⟨bits, power⟩, ?_, tail, ?_, ?_, fun place low high => ?_, delivered.append _, trivial,
        reader.append _ rfl rfl rfl⟩
      · rw [total, head, ofNat_add_toNat, add_assoc]
      · exact le_trans behind (total ▸ le_add_right _ _)
      · rw [total]
        exact fits
      rw [total] at high
      by_cases before : place < state.accepted.length
      · rw [getElem?_append_left before]
        exact stored place low before
      obtain ⟨index, rfl⟩ := Nat.exists_eq_add_of_le (Nat.le_of_not_lt before)
      rw [getElem?_append_right (le_add_right _ _), Nat.add_sub_cancel_left,
        getElem?_map, getElem?_range (by omega), ← add_assoc,
        done index (by omega)]
      rfl

/-- **`out` goes on**, over bytes that were stored. -/
theorem Flow.consume (flow : Flow base state) (outcome : Outcome) {outIndex : BitVec 32}
    (fits : consumed state.outcomes + outcome.count ≤ state.accepted.length)
    (isOut : outIndex = BitVec.ofNat 32 (base + (consumed state.outcomes + outcome.count)))
    (delivered : Delivered state.accepted (outcome :: state.outcomes)) :
    Flow base { state with
      outIndex := outIndex, reader := .idle, outcomes := outcome :: state.outcomes } where
  power := flow.power
  head := flow.head
  tail := by
    rw [isOut, consumed_cons, add_comm outcome.count]
  behind := by
    rw [consumed_cons, add_comm]
    exact fits
  room := by
    rw [consumed_cons, add_assoc]
    exact le_trans flow.room (le_add_left _ _)
  stored place low high := by
    rw [consumed_cons] at low
    exact flow.stored place (by omega) high
  delivered := delivered
  writer := flow.writer.consume (by rw [consumed_cons]; exact le_add_left _ _) rfl rfl rfl
  reader := trivial

theorem prefix_concat {copied stream : List UInt8} {byte : UInt8} (front : copied <+: stream)
    (here : stream[copied.length]? = some byte) : copied ++ [byte] <+: stream := by
  obtain ⟨rest, rfl⟩ := front
  rw [getElem?_append_right le_rfl, Nat.sub_self] at here
  cases rest with
  | nil => cases here
  | cons first rest =>
    cases here
    exact ⟨rest, by simp⟩

theorem readStep_flow (flow : Flow base state) (taken : readStep state state.reader = some next) :
    Flow base next := by
  have good := flow.reader
  have room := flow.room
  cases phase : state.reader with
  | idle =>
    rw [phase] at taken
    cases taken
  | copying len off copied =>
    rw [phase] at taken good
    obtain ⟨fits, isOff, short, front⟩ := good
    rw [readStep] at taken
    split at taken
    next more =>
      cases taken
      have here : (state.accepted.drop (consumed state.outcomes))[copied.length]? =
          some (state.buffer (copyCell state.size len off copied.length)) := by
        rw [copyCell_eq isOff (by omega) more, getElem?_drop, add_assoc]
        exact flow.stored _ (le_add_right _ _) (by omega)
      have longer : (copied ++ [state.buffer (copyCell state.size len off copied.length)]).length ≤
          len.toNat := by
        rw [length_append, length_singleton]
        exact more
      exact { flow with reader := ⟨fits, isOff, longer, prefix_concat front here⟩ }
    next all =>
      cases taken
      have whole : len.toNat = copied.length := by omega
      refine flow.consume (.returned copied) ?_ ?_ ⟨front, flow.delivered⟩
      · rw [Outcome.count, ← whole]
        exact fits
      · rw [flow.tail, ofNat_add_toNat, whole, Outcome.count, add_assoc]
  | skipping len =>
    rw [phase] at taken good
    cases taken
    refine flow.consume (.skipped len.toNat) good ?_ flow.delivered
    rw [flow.tail, ofNat_add_toNat, Outcome.count, add_assoc]
  | resetting =>
    rw [phase] at taken
    cases taken
    exact { flow with reader := ⟨_, flow.behind, le_rfl, flow.head⟩ }
  | storing inIndex =>
    rw [phase] at taken good
    cases taken
    obtain ⟨seen, low, high, rfl⟩ := good
    have count : (BitVec.ofNat 32 (base + seen) - state.outIndex).toNat =
        seen - consumed state.outcomes := by
      rw [flow.tail, sub_ofNat (by omega) (by omega)]
      omega
    refine flow.consume (.skipped _) ?_ ?_ flow.delivered
    · rw [Outcome.count, count]
      omega
    · rw [Outcome.count, count, Nat.add_sub_cancel' low]

/-- Every step of either side keeps the flow. -/
theorem step_flow (label : Label) (flow : Flow base state) (taken : step state label = some next) :
    Flow base next := by
  have behind := flow.behind
  cases label with
  | kfifoIn source len =>
    rw [step] at taken
    split at taken <;> cases taken
    exact { flow with writer := ⟨_, le_rfl, flow.room, flow.tail, behind⟩ }
  | kfifoOut len =>
    rw [step] at taken
    split at taken <;> cases taken
    obtain ⟨bits, power⟩ := flow.power
    have least := minimum_toNat (kfifoLen state.inIndex state.outIndex) len
    rw [flow.len] at least
    refine { flow with reader := ⟨?_, ?_, zero_le _, nil_prefix⟩ }
    · dsimp only
      omega
    · rw [flow.tail]
      exact kfifoOff_toNat power _
  | kfifoSkip len =>
    rw [step] at taken
    split at taken
    · split at taken <;> cases taken
      next less =>
        rw [lt_def, flow.len] at less
        refine { flow with reader := ?_ }
        show consumed state.outcomes + len.toNat ≤ state.accepted.length
        omega
      · exact { flow with reader := trivial }
    · cases taken
  | write => exact writeStep_flow flow taken
  | read => exact readStep_flow flow taken

/-! ### Every interleaving -/

/-- A fifo that no call is using. What it holds counts as accepted. -/
structure Rests (state : State) : Prop where
  power : ∃ bits, state.size.toNat = 2 ^ bits
  room : (state.inIndex - state.outIndex).toNat ≤ state.size.toNat
  writer : state.writer = .idle
  reader : state.reader = .idle
  outcomes : state.outcomes = []
  holds : state.accepted = (range (state.inIndex - state.outIndex).toNat).map fun index =>
    state.buffer ((state.outIndex.toNat + index) % state.size.toNat)

theorem Rests.flow (rests : Rests state) : Flow state.outIndex.toNat state := by
  obtain ⟨power, room, writer, reader, outcomes, holds⟩ := rests
  have length : state.accepted.length = (state.inIndex - state.outIndex).toNat := by
    rw [holds, length_map, length_range]
  have none : consumed state.outcomes = 0 := by rw [outcomes]; rfl
  refine ⟨power, ?_, ?_, ?_, ?_, fun place low high => ?_, ?_, ?_, ?_⟩
  · rw [length, ← ofNat_add_toNat, ofNat_toNat, setWidth_eq]
    exact ((BitVec.add_comm _ _).trans (BitVec.sub_add_cancel _ _)).symm
  · rw [none, add_zero, ofNat_toNat, setWidth_eq]
  · rw [none]
    exact zero_le _
  · rw [none, length, zero_add]
    exact room
  · rw [holds, getElem?_map, getElem?_range (length ▸ high)]
    rfl
  · rw [outcomes]
    trivial
  · rw [writer]
    trivial
  · rw [reader]
    trivial

end Invariant

/-- **One writer and one reader need no lock.** After every interleaving of `kfifo_in` with
`kfifo_out` and `kfifo_skip`, the reader got a front part of what the writer had accepted, but for
what was skipped. -/
theorem kfifo_in_order (initial state : State) (labels : List Label) (rests : Rests initial)
    (run : exec step initial labels = some state) :
    Delivered state.accepted state.outcomes ∧ consumed state.outcomes ≤ state.accepted.length ∧
      (state.inIndex - state.outIndex).toNat ≤ state.size.toNat := by
  have flow := exec_invariant (Flow initial.outIndex.toNat)
    (fun _ label _ flow taken => step_flow label flow taken) rests.flow run
  refine ⟨flow.delivered, flow.behind, ?_⟩
  have room := flow.room
  have len := flow.len
  rw [kfifoLen] at len
  omega

/-- Four cells, empty, with indices about to wrap. -/
def wrapping : State := ⟨fun _ => 0, 4, 0xfffffffe, 0xfffffffe, .idle, .idle, [], []⟩

/-- The writer puts three bytes. The reader skips in the middle of this and after it, and gets the
rest. -/
def wrappingRun : List Label :=
  [.kfifoIn (fun index => UInt8.ofNat index + 7) 3, .write, .kfifoSkip 1, .write, .write, .read, .read,
    .write, .write, .kfifoSkip 1, .read, .kfifoOut 9, .read, .read, .read]

theorem kfifo_in_order_wrapping : ∃ state, exec step wrapping wrappingRun = some state ∧
    state.outcomes = [.returned [8, 9], .skipped 1, .skipped 0] ∧ state.accepted = [7, 8, 9] ∧
    Delivered state.accepted state.outcomes := by
  have rests : Rests wrapping := ⟨⟨2, rfl⟩, by decide, rfl, rfl, rfl, rfl⟩
  exact ⟨_, rfl, by decide, by decide, (kfifo_in_order wrapping _ wrappingRun rests rfl).1⟩

end KernelImx.Kfifo
