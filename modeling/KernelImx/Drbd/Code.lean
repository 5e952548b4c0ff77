/-
**The run length code is a complete prefix code.**
-/

import KernelImx.Drbd.Vli

namespace KernelImx.Drbd

open List BitVec

/-! ### Words and masks -/

/-- The word begins with the `bits` lowest bits of `code`. -/
def StartsWith (word code : BitVec 64) (bits : Nat) : Prop :=
  ∀ k < bits, word.getLsbD k = code.getLsbD k

instance (word code : BitVec 64) (bits : Nat) : Decidable (StartsWith word code bits) :=
  inferInstanceAs (Decidable (∀ k < bits, _))

theorem StartsWith.mono {word code : BitVec 64} {few many : Nat}
    (starts : StartsWith word code many) (le : few ≤ many) : StartsWith word code few :=
  fun k below => starts k (Nat.lt_of_lt_of_le below le)

@[simp] theorem getLsbD_lowBits {val : BitVec 64} {bits : Nat} (le : bits ≤ 64) (k : Nat) :
    (lowBits val bits).getLsbD k = (decide (k < bits) && val.getLsbD k) := by
  have mask : decide (64 - bits + k < 64) = decide (k < bits) := by
    rw [decide_eq_decide]
    omega
  rw [lowBits, getLsbD_and, getLsbD_ushiftRight, getLsbD_allOnes, mask,
    Bool.and_comm]

theorem getLsbD_prefixMask {width : Nat} (lt : width < 64) (k : Nat) :
    ((1#64 <<< width) - 1).getLsbD k = decide (k < width) := by
  have power : 2 ^ width < 2 ^ 64 := Nat.pow_lt_pow_right (by decide) lt
  have positive := Nat.two_pow_pos width
  have value : ((1#64 <<< width) - 1).toNat = 2 ^ width - 1 := by
    have shifted : (1#64 <<< width).toNat = 2 ^ width := by
      rw [toNat_shiftLeft, Nat.shiftLeft_eq, toNat_ofNat]
      omega
    rw [toNat_sub, shifted, show (1 : BitVec 64).toNat = 1 from rfl]
    omega
  rw [← testBit_toNat, value, Nat.testBit_two_pow_sub_one]

theorem and_prefixMask_iff {word value : BitVec 64} {width : Nat} (lt : width < 64)
    (fits : lowBits value width = value) :
    word &&& ((1#64 <<< width) - 1) = value ↔ StartsWith word value width := by
  have bits : ∀ k, (word &&& ((1#64 <<< width) - 1)).getLsbD k
      = (decide (k < width) && word.getLsbD k) := by
    intro k
    rw [getLsbD_and, getLsbD_prefixMask lt, Bool.and_comm]
  have high : ∀ k, ¬ k < width → value.getLsbD k = false := by
    intro k outside
    rw [← fits, getLsbD_lowBits (le_of_lt lt), decide_eq_false outside, Bool.false_and]
  constructor
  · rintro rfl k below
    rw [bits, decide_eq_true below, Bool.true_and]
  intro starts
  refine eq_of_getLsbD_eq fun k _ => ?_
  rw [bits]
  by_cases below : k < width
  · rw [decide_eq_true below, Bool.true_and, starts k below]
  · rw [decide_eq_false below, Bool.false_and, high k below]

/-! ### One level -/

/-- A level of a table that can be used: its code words fit 64 bits. -/
structure Level.Fits (level : Level) : Prop where
  width_le : level.width ≤ level.total
  total_le : level.total ≤ 64
  width_lt : level.width < 64
  value_eq : lowBits level.value level.width = level.value

/-- The code word of the `index`-th run length of a level. -/
def Level.word (level : Level) (index : BitVec 64) : BitVec 64 :=
  (index <<< level.width) ||| level.value

theorem Level.Fits.size_toNat {level : Level} (fits : level.Fits) (pos : 0 < level.width) :
    level.size.toNat = 2 ^ (level.total - level.width) := by
  have le := fits.total_le
  have power : 2 ^ (level.total - level.width) < 2 ^ 64 :=
    Nat.pow_lt_pow_right (by decide) (by omega)
  rw [Level.size, toNat_shiftLeft, Nat.shiftLeft_eq, toNat_ofNat]
  omega

theorem Level.Fits.value_high {level : Level} (fits : level.Fits) {k : Nat}
    (high : level.width ≤ k) : level.value.getLsbD k = false := by
  rw [← fits.value_eq, getLsbD_lowBits (le_of_lt fits.width_lt),
    decide_eq_false (not_lt.mpr high), Bool.false_and]

theorem Level.word_startsWith {level : Level} (index : BitVec 64) :
    StartsWith (level.word index) level.value level.width := by
  intro k below
  rw [Level.word, getLsbD_or, getLsbD_shiftLeft, decide_eq_true below]
  simp

theorem Level.Fits.data_of_startsWith {level : Level} (fits : level.Fits) {index word : BitVec 64}
    (small : index.toNat < 2 ^ (level.total - level.width))
    (starts : StartsWith word (level.word index) level.total) :
    lowBits word level.total >>> level.width = index := by
  have wide := fits.total_le
  refine eq_of_getLsbD_eq fun k inside => ?_
  rw [getLsbD_ushiftRight, getLsbD_lowBits wide]
  by_cases below : level.width + k < level.total
  · rw [decide_eq_true below, Bool.true_and, starts _ below, Level.word, getLsbD_or,
      fits.value_high (Nat.le_add_right _ _), Bool.or_false, getLsbD_shiftLeft]
    have room : level.width + k < 64 := by omega
    simp [room]
  · rw [decide_eq_false below, Bool.false_and, ← testBit_toNat]
    refine (Nat.testBit_lt_two_pow (Nat.lt_of_lt_of_le small ?_)).symm
    exact Nat.pow_le_pow_right (by decide) (by omega)

/-! ### Tables -/

/-- A table that gives a prefix code: no later prefix begins with an earlier one. -/
def Separate (levels : List Level) : Prop :=
  levels.Pairwise fun early late =>
    early.width ≤ late.width ∧ ¬ StartsWith late.value early.value early.width

def capacity (levels : List Level) : Nat :=
  (levels.map fun level => 2 ^ (level.total - level.width)).sum

/-- A usable table: its levels fit, are separate, and hold fewer run lengths than a word. -/
structure Usable (levels : List Level) (top : Nat) : Prop where
  fits : ∀ level ∈ levels, level.Fits ∧ 0 < level.width
  separate : Separate levels
  room : top + capacity levels < 2 ^ 64

theorem Usable.tail {level : Level} {levels : List Level} {top : Nat}
    (usable : Usable (level :: levels) top) :
    Usable levels (top + 2 ^ (level.total - level.width)) where
  fits := (forall_mem_cons.mp usable.fits).2
  separate := (pairwise_cons.mp usable.separate).2
  room := by
    have room := usable.room
    simp only [capacity, map_cons, sum_cons] at room ⊢
    omega

/-- **Encoding succeeds on the range of the table**, with the prefix of the level of the run length.
-/
theorem encodeLevels_spec {value : BitVec 64} {levels : List Level} {top : BitVec 64}
    (usable : Usable levels top.toNat) (above : top.toNat < value.toNat) :
    (value.toNat ≤ top.toNat + capacity levels →
        ∃ code bits, encodeLevels levels top (top + 1) value = .ok (code, bits)) ∧
      ∀ code bits, encodeLevels levels top (top + 1) value = .ok (code, bits) →
        ∃ early level late, levels = early ++ level :: late ∧
          top.toNat + capacity early < value.toNat ∧ bits = level.total ∧
          StartsWith code level.value level.width ∧ ∀ word, StartsWith word code bits →
            decodeLevels levels (top + 1) word = some (value, bits) := by
  induction levels generalizing top with
  | nil =>
    refine ⟨fun below => ?_, fun _ _ encoded => by cases encoded⟩
    simp only [capacity, map_nil, sum_nil] at below
    omega
  | cons level levels ih =>
    obtain ⟨fits, pos⟩ := usable.fits level mem_cons_self
    have size := fits.size_toNat pos
    have room := usable.room
    simp only [capacity, map_cons, sum_cons] at room
    have next : (top + level.size).toNat = top.toNat + 2 ^ (level.total - level.width) := by
      rw [toNat_add, size]
      omega
    have first : (top + 1).toNat = top.toNat + 1 := by
      rw [toNat_add, show (1 : BitVec 64).toNat = 1 from rfl]
      omega
    by_cases here : value ≤ top + level.size
    · -- the run length is one of this level
      have bound : value.toNat ≤ top.toNat + 2 ^ (level.total - level.width) := by
        rw [← next]
        exact here
      have index : (value - (top + 1)).toNat = value.toNat - (top.toNat + 1) := by
        rw [toNat_sub, first]
        omega
      have equation : encodeLevels (level :: levels) top (top + 1) value
          = .ok (level.word (value - (top + 1)), level.total) := if_pos here
      refine ⟨fun _ => ⟨_, _, equation⟩, fun code bits encoded => ?_⟩
      rw [equation] at encoded
      cases encoded
      refine ⟨[], level, levels, rfl, above, rfl, level.word_startsWith _, fun word starts => ?_⟩
      have matched := (and_prefixMask_iff fits.width_lt fits.value_eq).mpr
        (fun k below => (starts.mono fits.width_le k below).trans
          (level.word_startsWith _ k below))
      have data := fits.data_of_startsWith (by omega) starts
      rw [decodeLevels, if_pos matched]
      rw [lowBits] at data
      rw [data, sub_add_cancel]
    -- it is one of a later level
    have above' : (top + level.size).toNat < value.toNat := not_le.mp here
    have equation : encodeLevels (level :: levels) top (top + 1) value
        = encodeLevels levels (top + level.size) (top + level.size + 1) value := if_neg here
    have usable' : Usable levels (top + level.size).toNat := by
      rw [next]
      exact usable.tail
    obtain ⟨succeeds, spec⟩ := ih usable' above'
    rw [equation]
    refine ⟨fun below => succeeds ?_, fun code bits encoded => ?_⟩
    · simp only [capacity, map_cons, sum_cons] at below
      rw [next, capacity]
      omega
    obtain ⟨early, later, late, rfl, low, rfl, starts, decodes⟩ := spec code bits encoded
    have mem : later ∈ early ++ later :: late := mem_append_right _ mem_cons_self
    refine ⟨level :: early, later, late, rfl, ?_, rfl, starts, fun word wordStarts => ?_⟩
    · rw [next, capacity] at low
      rw [capacity, map_cons, sum_cons]
      omega
    obtain ⟨le, apart⟩ := (pairwise_cons.mp usable.separate).1 later mem
    have laterFits := (usable.fits later (mem_cons_of_mem _ mem)).1
    have passed : ¬ (word &&& ((1#64 <<< level.width) - 1) = level.value) := by
      rw [and_prefixMask_iff fits.width_lt fits.value_eq]
      intro matched
      refine apart fun k below => ?_
      have inside := Nat.lt_of_lt_of_le below le
      rw [← starts k inside, ← wordStarts k (Nat.lt_of_lt_of_le inside laterFits.width_le),
        matched k below]
    have shift : top + 1 + level.size = top + level.size + 1 := by
      rw [BitVec.add_assoc, BitVec.add_comm 1, ← BitVec.add_assoc]
    rw [decodeLevels, if_neg passed, shift]
    exact decodes word wordStarts

/-! ### The table of the source -/

/-- The largest run length, `0x100000400202130`. -/
def vliMax : Nat := 0x100000400202130

theorem usable_vliLevels : Usable vliLevels (0 : BitVec 64).toNat where
  fits := by
    intro level mem
    have all : ∀ level ∈ vliLevels, (level.width ≤ level.total ∧ level.total ≤ 64 ∧
        level.width < 64 ∧ lowBits level.value level.width = level.value) ∧ 0 < level.width := by
      decide
    obtain ⟨⟨narrow, wide, short, value⟩, pos⟩ := all level mem
    exact ⟨⟨narrow, wide, short, value⟩, pos⟩
  separate := by
    unfold Separate
    decide
  room := by
    decide

theorem vliLevels_total : ∀ level ∈ vliLevels, 2 ≤ level.total ∧ level.total ≤ 64 := by
  decide

theorem vliEncodeWord_ok {value : BitVec 64} (pos : 0 < value.toNat)
    (le : value.toNat ≤ vliMax) : ∃ code bits, vliEncodeWord value = .ok (code, bits) := by
  have nonzero : value ≠ 0 := by
    rintro rfl
    exact absurd pos (by decide)
  rw [vliEncodeWord, if_neg nonzero]
  refine (encodeLevels_spec usable_vliLevels pos).1 ?_
  exact Nat.le_trans le (Nat.le_add_left _ _)

/-- **A word that begins with a code word decodes to its run length and its length.** -/
theorem vliEncodeWord_spec {value code : BitVec 64} {bits : Nat}
    (encoded : vliEncodeWord value = .ok (code, bits)) :
    (2 ≤ bits ∧ bits ≤ 64) ∧
      ∀ word, StartsWith word code bits → vliDecodeBits word = some (value, bits) := by
  by_cases zero : value = 0
  · rw [vliEncodeWord, if_pos zero] at encoded
    cases encoded
  rw [vliEncodeWord, if_neg zero] at encoded
  have pos : (0 : BitVec 64).toNat < value.toNat := by
    refine pos_of_ne_zero fun same => zero ?_
    exact eq_of_toNat_eq same
  obtain ⟨early, level, late, parts, -, rfl, -, decodes⟩ :=
    (encodeLevels_spec usable_vliLevels pos).2 code bits encoded
  exact ⟨vliLevels_total level (parts ▸ mem_append_right _ mem_cons_self), decodes⟩

/-- Only the last level has code words of 64 bits. -/
theorem vliEncodeWord_short {value code : BitVec 64} {bits : Nat}
    (le : value.toNat ≤ 0x400202130) (encoded : vliEncodeWord value = .ok (code, bits)) :
    bits < 64 := by
  by_cases zero : value = 0
  · rw [vliEncodeWord, if_pos zero] at encoded
    cases encoded
  rw [vliEncodeWord, if_neg zero] at encoded
  have pos : (0 : BitVec 64).toNat < value.toNat :=
    pos_of_ne_zero fun same => zero (eq_of_toNat_eq same)
  obtain ⟨early, level, late, parts, above, rfl, -, -⟩ :=
    (encodeLevels_spec usable_vliLevels pos).2 code bits encoded
  have short : ∀ n < 10, capacity (vliLevels.take n) < 0x400202130 →
      ∀ level ∈ vliLevels[n]?, level.total < 64 := by decide
  have length := congrArg length parts
  rw [length_append, length_cons, show vliLevels.length = 10 from rfl] at length
  refine short early.length (by omega) ?_ level ?_
  · rw [parts, take_left]
    omega
  · rw [parts, getElem?_append_right le_rfl, Nat.sub_self]
    rfl

theorem decodeLevels_of_match {word : BitVec 64} : ∀ {levels : List Level} (adj : BitVec 64),
    (∃ level ∈ levels, word &&& ((1#64 <<< level.width) - 1) = level.value) →
    ∃ value bits, decodeLevels levels adj word = some (value, bits) := by
  intro levels
  induction levels with
  | nil =>
    rintro adj ⟨level, mem, -⟩
    cases mem
  | cons level levels ih =>
    rintro adj ⟨found, mem, matched⟩
    rw [decodeLevels]
    split
    · exact ⟨_, _, rfl⟩
    case isFalse other =>
      rcases mem_cons.mp mem with rfl | later
      · exact absurd matched other
      · exact ih _ ⟨found, later, matched⟩

/-- **Every word decodes**: the prefixes of up to eight bits leave no gap. -/
theorem vliDecodeBits_total (word : BitVec 64) :
    ∃ value bits, vliDecodeBits word = some (value, bits) := by
  refine decodeLevels_of_match 1 ?_
  -- the masks reach the low byte only, so the 256 low bytes cover every word
  have low : ∀ byte : BitVec 8, ∃ level ∈ vliLevels,
      byte.setWidth 64 &&& ((1#64 <<< level.width) - 1) = level.value := by
    decide +kernel
  obtain ⟨level, mem, matched⟩ := low (word.setWidth 8)
  have short : ∀ level ∈ vliLevels, level.width ≤ 8 := by decide
  refine ⟨level, mem, Eq.trans ?_ matched⟩
  refine eq_of_getLsbD_eq fun k _ => ?_
  have le := short level mem
  rw [getLsbD_and, getLsbD_and, getLsbD_prefixMask (by omega)]
  by_cases below : k < level.width
  · simp [show k < 8 by omega, show k < 64 by omega]
  · simp [below]

end KernelImx.Drbd
