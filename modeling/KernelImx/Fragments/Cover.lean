/-
**The fragments of a queue are apart, and reassembly waits until they cover the datagram.**

Main result: `fragments_sound`.
-/

import Mathlib.Algebra.BigOperators.Group.List.Basic
import Mathlib.Data.List.Induction
import KernelImx.Fragments.Queue

namespace KernelImx.Fragments

open List Nat

/-- Some packet had the byte at this position of the datagram. -/
def Carries (history : List Skb) (pos : Nat) (byte : BitVec 8) : Prop :=
  ∃ skb ∈ history, skb.offset ≤ pos ∧ skb.payload[pos - skb.offset]? = some byte

/-- The bytes of a fragment come from packets that had them there. -/
def Fragment.Genuine (history : List Skb) (f : Fragment) : Prop :=
  ∀ j byte, f.data[j]? = some byte → Carries history (f.offset + j) byte

def dataLength (fragments : List Fragment) : Nat := (fragments.map fun f => f.data.length).sum

/-- Fragments in order, none of them empty, and without overlap. -/
structure Apart (fragments : List Fragment) : Prop where
  nonempty : ∀ f ∈ fragments, f.data ≠ []
  ordered : fragments.Pairwise fun f g => f.stop ≤ g.offset

/-- **The queue is as it should be.** -/
structure Sound (history : List Skb) (q : Ipq) : Prop where
  apart : Apart q.fragments
  inside : ∀ f ∈ q.fragments, f.stop ≤ q.len
  meat : q.meat = dataLength q.fragments
  genuine : ∀ f ∈ q.fragments, f.Genuine history

/-- Every position of the datagram is in a fragment. -/
def Gapless (q : Ipq) : Prop := ∀ pos < q.len, ∃ f ∈ q.fragments, f.offset ≤ pos ∧ pos < f.stop

/-- The whole datagram is there. -/
structure Full (q : Ipq) : Prop where
  gapless : Gapless q
  meat : q.meat = q.len

/-- The datagram was handed on. -/
structure Handed (q : Ipq) : Prop where
  complete : q.complete = true
  taken : q.fragments = []
  meat : q.meat = q.len

/-! ### Lists of fragments -/

variable {history : List Skb} {f : Fragment} {fragments : List Fragment} {g : Fragment} {lo hi : Nat}
  {more : List Skb}

section Lists

variable {front back : List Fragment}

@[simp] theorem dataLength_nil : dataLength [] = 0 := rfl

@[simp] theorem dataLength_cons : dataLength (f :: back) = f.data.length + dataLength back :=
  sum_cons

theorem dataLength_append : dataLength (front ++ back) = dataLength front + dataLength back := by
  simp [dataLength]

theorem apart_cons : Apart (f :: back) ↔
    f.data ≠ [] ∧ Apart back ∧ ∀ g ∈ back, f.stop ≤ g.offset := by
  constructor
  · rintro ⟨nonempty, ordered⟩
    obtain ⟨first, rest⟩ := forall_mem_cons.mp nonempty
    obtain ⟨behind, ordered⟩ := pairwise_cons.mp ordered
    exact ⟨first, ⟨rest, ordered⟩, behind⟩
  · rintro ⟨first, ⟨rest, ordered⟩, behind⟩
    exact ⟨forall_mem_cons.mpr ⟨first, rest⟩, pairwise_cons.mpr ⟨behind, ordered⟩⟩

theorem stop_lt (nonempty : f.data ≠ []) : f.offset < f.stop :=
  Nat.lt_add_of_pos_right (length_pos_iff.mpr nonempty)

/-- Genuine fragments from `lo` to `hi`, one behind the other and none of them empty. -/
def Lies (history : List Skb) (hi : Nat) : Nat → List Fragment → Prop
  | lo, [] => lo ≤ hi
  | lo, f :: rest => lo ≤ f.offset ∧ f.data ≠ [] ∧ f.Genuine history ∧ Lies history hi f.stop rest

def endOf (lo : Nat) (fragments : List Fragment) : Nat :=
  (fragments.getLast?.map Fragment.stop).getD lo

theorem endOf_cons : endOf lo (f :: back) = endOf f.stop back := by
  simp only [endOf, getLast?_cons]
  cases back.getLast? <;> rfl

theorem endOf_le {bound : Nat} (low : lo ≤ bound) (last : ∀ p ∈ fragments.getLast?, p.stop ≤ bound) :
    endOf lo fragments ≤ bound := by
  unfold endOf
  cases final : fragments.getLast? with
  | none => exact low
  | some p => exact last p final

theorem lies_append : Lies history hi lo (front ++ back) ↔
    Lies history (endOf lo front) lo front ∧ Lies history hi (endOf lo front) back := by
  induction front generalizing lo with
  | nil => simp [Lies, endOf]
  | cons f front ih => simp only [cons_append, Lies, endOf_cons, ih, and_assoc]

theorem lies_iff : Lies history hi lo fragments ↔ lo ≤ hi ∧ Apart fragments ∧
    ∀ f ∈ fragments, lo ≤ f.offset ∧ f.stop ≤ hi ∧ f.Genuine history := by
  induction fragments generalizing lo with
  | nil => exact ⟨fun low => ⟨low, ⟨nofun, .nil⟩, nofun⟩, And.left⟩
  | cons f rest ih =>
    rw [Lies, ih, apart_cons, forall_mem_cons]
    constructor
    · rintro ⟨low, nonempty, genuine, last, apart, each⟩
      have := stop_lt nonempty
      refine ⟨by omega, ⟨nonempty, apart, fun g member => (each g member).1⟩, ⟨low, last, genuine⟩,
        fun g member => ⟨?_, (each g member).2⟩⟩
      have := (each g member).1
      omega
    · rintro ⟨-, ⟨nonempty, apart, behind⟩, ⟨low, last, genuine⟩, each⟩
      exact ⟨low, nonempty, genuine, last, apart, fun g member => ⟨behind g member, (each g member).2⟩⟩

theorem sound_iff {q : Ipq} : Sound history q ↔
    Lies history q.len 0 q.fragments ∧ q.meat = dataLength q.fragments := by
  rw [lies_iff]
  constructor
  · rintro ⟨apart, inside, meat, genuine⟩
    exact ⟨⟨zero_le _, apart, fun f member => ⟨zero_le _, inside f member, genuine f member⟩⟩, meat⟩
  · rintro ⟨⟨-, apart, each⟩, meat⟩
    exact ⟨apart, fun f member => (each f member).2.1, meat, fun f member => (each f member).2.2⟩

/-- **Fragments that are apart fill at most what they lie in, and if they fill it they leave no gap.** -/
theorem gapless_of_dataLength (lies : Lies history hi lo fragments) :
    lo + dataLength fragments ≤ hi ∧ (lo + dataLength fragments = hi →
      ∀ pos, lo ≤ pos → pos < hi → ∃ f ∈ fragments, f.offset ≤ pos ∧ pos < f.stop) := by
  induction fragments generalizing lo with
  | nil =>
    refine ⟨lies, fun filled pos lower upper => ?_⟩
    rw [dataLength_nil] at filled
    omega
  | cons f rest ih =>
    obtain ⟨first, -, -, behind⟩ := lies
    obtain ⟨room, filled⟩ := ih behind
    have stop : f.stop = f.offset + f.data.length := rfl
    rw [dataLength_cons]
    refine ⟨by omega, fun all pos lower upper => ?_⟩
    by_cases here : pos < f.stop
    · exact ⟨f, mem_cons_self, by omega, here⟩
    · obtain ⟨g, member, covers⟩ := filled (by omega) pos (by omega) upper
      exact ⟨g, mem_cons_of_mem _ member, covers⟩

theorem Fragment.Genuine.mono (genuine : f.Genuine history) (sub : ∀ skb ∈ history, skb ∈ more) :
    f.Genuine more := by
  intro j byte found
  obtain ⟨skb, member, carries⟩ := genuine j byte found
  exact ⟨skb, sub skb member, carries⟩

end Lists

/-! ### The two cuts -/

theorem Fragment.Genuine.drop (genuine : f.Genuine history) (i : Nat) :
    Fragment.Genuine history { f with offset := f.offset + i, data := f.data.drop i } := by
  intro j byte found
  rw [getElem?_drop] at found
  have := genuine (i + j) byte found
  rwa [← add_assoc] at this

theorem lies_mono {low : Nat} (less : low ≤ lo) (lies : Lies history hi lo fragments) :
    Lies history hi low fragments := by
  cases fragments with
  | nil => exact less.trans lies
  | cons f rest => exact ⟨less.trans lies.1, lies.2⟩

/-- **What a fragment that ends at `stop` leaves** of the fragments behind it. -/
theorem overrun_spec {stop : Nat} (pullNext : Bool) {old : List Fragment} {meat : Int}
    (lies : Lies history hi lo old) (fits : stop ≤ hi) :
    ∃ new left done, overrun stop pullNext old meat = (new, left, done) ∧
      left = meat - dataLength old + dataLength new ∧ Lies history hi lo new ∧
      (done = true → Lies history hi stop new) := by
  induction old generalizing meat lo with
  | nil => exact ⟨_, _, _, rfl, by simp, lies, fun _ => fits⟩
  | cons next rest ih =>
    obtain ⟨low, nonempty, genuine, behind⟩ := id lies
    unfold overrun
    by_cases overlaps : next.offset < stop
    · rw [if_pos overlaps]
      by_cases reaches : stop - next.offset < next.data.length
      · rw [if_pos reaches]
        cases pullNext with
        | false => exact ⟨_, _, _, rfl, by simp, lies, nofun⟩
        | true =>
          -- the fragment is cut at `stop`, where the new one ends
          have cut : Lies history hi stop ({ next with
              offset := next.offset + (stop - next.offset)
              data := next.data.drop (stop - next.offset) } :: rest) := by
            refine ⟨by dsimp only; omega, ?_, genuine.drop _, ?_⟩
            · rw [← length_pos_iff, length_drop]
              omega
            · convert behind using 1
              simp only [Fragment.stop, length_drop]
              omega
          refine ⟨_, _, _, rfl, ?_, lies_mono (by omega) cut, fun _ => cut⟩
          simp only [dataLength_cons, length_drop]
          omega
      · rw [if_neg reaches]
        obtain ⟨new, left, done, outcome, bytes, kept, after⟩ :=
          @ih _ (meat - next.data.length) behind
        have := stop_lt nonempty
        refine ⟨new, left, done, outcome, ?_, lies_mono (by omega) kept, after⟩
        rw [dataLength_cons]
        omega
    · rw [if_neg overlaps]
      exact ⟨_, _, _, rfl, by simp, lies, fun _ => ⟨by omega, nonempty, genuine, behind⟩⟩

variable {stop : Nat}

theorem trimFront_spec {prev : Option Fragment} {pullFront : Bool}
    (trimmed : trimFront prev f stop pullFront = .ok g) (ends : f.stop = stop)
    (nonempty : f.data ≠ []) (genuine : f.Genuine history) :
    g.stop = stop ∧ g.data ≠ [] ∧ g.Genuine history ∧ ∀ p ∈ prev, p.stop ≤ g.offset := by
  unfold trimFront at trimmed
  cases prev with
  | none =>
    cases trimmed
    exact ⟨ends, nonempty, genuine, nofun⟩
  | some prev =>
    dsimp only at trimmed
    split at trimmed
    · split at trimmed
      · cases trimmed
      split at trimmed
      · cases trimmed
        have length : (f.data.drop (prev.stop - f.offset)).length =
            f.data.length - (prev.stop - f.offset) := length_drop
        unfold Fragment.stop at ends
        refine ⟨?_, ?_, genuine.drop _, ?_⟩
        · show f.offset + (prev.stop - f.offset) + (f.data.drop (prev.stop - f.offset)).length = stop
          omega
        · rw [← length_pos_iff, length]
          omega
        · rintro p ⟨⟩
          dsimp only
          omega
      · cases trimmed
    · cases trimmed
      refine ⟨ends, nonempty, genuine, ?_⟩
      rintro p ⟨⟩
      omega

/-! ### One arrival -/

variable {skb : Skb} {ch : Choices}

section Arrival

variable {q : Ipq}

theorem linkFragment_sound {before after : List Fragment} (pullNext : Bool)
    (sound : Sound history q) (parts : q.fragments = before ++ after) (ends : f.stop = stop)
    (nonempty : f.data ≠ []) (genuine : f.Genuine history) (fits : stop ≤ q.len)
    (front : endOf 0 before ≤ f.offset) :
    Sound history (linkFragment q before f stop after pullNext).1 ∧
      ∀ prev, (linkFragment q before f stop after pullNext).2 = .reassembles prev →
        Full (linkFragment q before f stop after pullNext).1 := by
  obtain ⟨lies, meat⟩ := sound_iff.mp sound
  rw [parts] at lies meat
  obtain ⟨early, late⟩ := lies_append.mp lies
  obtain ⟨rest, meat', done, outcome, bytes, kept, behind⟩ :=
    @overrun_spec _ _ _ _ pullNext _ q.meat late fits
  rw [dataLength_append] at meat
  unfold linkFragment
  rw [outcome]
  cases done with
  | false =>
    refine ⟨sound_iff.mpr ⟨lies_append.mpr ⟨early, kept⟩, ?_⟩, nofun⟩
    rw [dataLength_append]
    push_cast
    omega
  | true =>
    have liesNew : Lies history q.len 0 (before ++ f :: rest) :=
      lies_append.mpr ⟨early, front, nonempty, genuine, ends ▸ behind rfl⟩
    have meatNew : meat' + f.data.length = dataLength (before ++ f :: rest) := by
      rw [dataLength_append, dataLength_cons]
      omega
    dsimp only
    split
    next all =>
      refine ⟨sound_iff.mpr ⟨liesNew, meatNew⟩, fun _ _ => ⟨fun pos below => ?_, all.2.2.2⟩⟩
      exact (gapless_of_dataLength liesNew).2 (by omega) pos (zero_le _) below
    · exact ⟨sound_iff.mpr ⟨liesNew, meatNew⟩, nofun⟩

theorem placeFragment_sound {q' : Ipq} (placed : placeFragment q skb = some (q', stop))
    (sound : Sound history q) :
    Sound history q' ∧ stop ≤ q'.len ∧ skb.offset ≤ stop ∧
      stop ≤ skb.offset + skb.payload.length := by
  have chunks : skb.offset % 8 = 0 := by
    rw [Skb.offset, shiftLeft_eq]
    omega
  have payload : skb.payload.length = skb.bytes.length - skb.ihl := length_drop
  have header := skb.header
  have longer : ∀ len, q.len ≤ len → ∀ f ∈ q.fragments, f.stop ≤ len := fun len more f member =>
    le_trans (sound.inside f member) more
  unfold placeFragment at placed
  dsimp only at placed
  split at placed
  · split at placed
    · split at placed
      · cases placed
      · cases placed
        exact ⟨{ sound with inside := longer _ (by dsimp only; omega) },
          le_rfl, by omega, by omega⟩
    · cases placed
      exact ⟨sound, by omega, by omega, by omega⟩
  · split at placed
    · cases placed
    next same =>
      cases placed
      exact ⟨{ sound with inside := longer _ (by dsimp only; omega) },
        le_rfl, by omega, by omega⟩

theorem insertFragment_sound (ch : Choices) (sound : Sound history q) (seen : skb ∈ history)
    (fits : stop ≤ q.len) (lower : skb.offset ≤ stop)
    (upper : stop ≤ skb.offset + skb.payload.length) :
    Sound history (insertFragment q skb stop ch).1 ∧
      ∀ prev, (insertFragment q skb stop ch).2 = .reassembles prev →
        Full (insertFragment q skb stop ch).1 := by
  unfold insertFragment
  split
  · exact ⟨sound, nofun⟩
  next some =>
    split
    · split
      · exact ⟨sound, nofun⟩
      have length : (skb.payload.take (stop - skb.offset)).length = stop - skb.offset := by
        rw [length_take]
        omega
      have genuine : Fragment.Genuine history
          ⟨skb.offset, skb.payload.take (stop - skb.offset), skb.ihl⟩ := by
        intro j byte found
        refine ⟨skb, seen, le_add_right _ _, ?_⟩
        rw [Nat.add_sub_cancel_left]
        rw [getElem?_take] at found
        split at found
        · exact found
        · cases found
      dsimp only
      split
      · exact ⟨sound, nofun⟩
      next f trimmed =>
        have parts := (takeWhile_append_dropWhile
          (p := fun next : Fragment => decide (next.offset < skb.offset))
          (l := q.fragments)).symm
        obtain ⟨ends, nonempty, genuine', front⟩ := trimFront_spec trimmed
          (by unfold Fragment.stop; dsimp only; omega)
          (by rw [← length_pos_iff, length]; omega) genuine
        exact linkFragment_sound ch.pullNext sound parts ends nonempty genuine' fits
          (endOf_le (zero_le _) front)
    · exact ⟨sound, nofun⟩

theorem sound_fresh : Sound history fresh := ⟨⟨nofun, .nil⟩, nofun, rfl, nofun⟩

/-- **`ip_frag_queue` keeps the queue sound, and calls `ip_frag_reasm` only without a gap.** -/
theorem ipFragQueue_sound (ch : Choices) (sound : Sound history q) (seen : skb ∈ history) :
    Sound history (ipFragQueue q skb ch).1 ∧
      ∀ prev, (ipFragQueue q skb ch).2 = .reassembles prev → Full (ipFragQueue q skb ch).1 := by
  unfold ipFragQueue
  split
  · exact ⟨sound, nofun⟩
  dsimp only
  split
  · exact ⟨{ sound with }, nofun⟩
  next q' chosen =>
    have sound' : Sound history q' := by
      split at chosen
      · unfold ipFragReinit at chosen
        split at chosen
        · cases chosen
          exact sound_fresh
        · cases chosen
      · cases chosen
        exact sound
    split
    · exact ⟨sound', nofun⟩
    next q'' stop placed =>
      obtain ⟨sound'', fits, lower, upper⟩ := placeFragment_sound placed sound'
      exact insertFragment_sound ch sound'' seen fits lower upper

theorem Sound.mono (sound : Sound history q) (sub : ∀ skb ∈ history, skb ∈ more) : Sound more q :=
  { sound with genuine := fun f member => (sound.genuine f member).mono sub }

/-- The data of fragments without a gap, one behind the other. -/
theorem flatMap_genuine (lies : Lies history hi lo fragments) (full : lo + dataLength fragments = hi) :
    ∀ j byte, (fragments.flatMap Fragment.data)[j]? = some byte → Carries history (lo + j) byte := by
  induction fragments generalizing lo with
  | nil =>
    intro j byte found
    cases found
  | cons f rest ih =>
    intro j byte found
    obtain ⟨first, -, genuine, behind⟩ := lies
    obtain ⟨room, -⟩ := gapless_of_dataLength behind
    have stop : f.stop = f.offset + f.data.length := rfl
    rw [dataLength_cons] at full
    have start : f.offset = lo := by omega
    rw [flatMap_cons, getElem?_append] at found
    split at found
    · rw [← start]
      exact genuine j byte found
    · have := ih behind (by omega) (j - f.data.length) byte found
      rwa [show f.stop + (j - f.data.length) = lo + j by omega] at this

/-- The bytes are a whole datagram, each of them from a packet that had it there. -/
structure Datagram (history : List Skb) (len : Nat) (bytes : List (BitVec 8)) : Prop where
  length : bytes.length = len
  genuine : ∀ pos byte, bytes[pos]? = some byte → Carries history pos byte

theorem datagram_of_full (sound : Sound history q) (full : Full q) :
    Datagram history q.len (q.fragments.flatMap Fragment.data) := by
  have all : dataLength q.fragments = q.len := by
    have := full.meat
    have := sound.meat
    omega
  refine ⟨?_, fun pos byte found => ?_⟩
  · rw [length_flatMap]
    exact all
  · have := flatMap_genuine (sound_iff.mp sound).1 (by omega) pos byte found
    rwa [zero_add] at this

/-- **`ip_frag_reasm` hands the datagram on or leaves the fragments.** -/
theorem ipFragReasm_sound (sound : Sound history q) (full : Full q) (prev : Bool) (ch : Choices) :
    match ipFragReasm q prev ch with
    | (after, .ok bytes) => Handed after ∧ Datagram history q.len bytes
    | (after, .error _) => Sound history after := by
  have kept : Sound history { q with complete := true } := { sound with }
  unfold ipFragReasm
  dsimp only
  split_ifs
  · exact kept
  · exact kept
  · exact kept
  · exact ⟨⟨rfl, rfl, full.meat⟩, datagram_of_full sound full⟩

/-- The datagram that an arrival hands on, if it does. -/
def handsOn (q : Ipq) (arrival : Skb × Choices) : Option (List (BitVec 8)) :=
  match ipFragQueue q arrival.1 arrival.2 with
  | (q, .reassembles prev) => (ipFragReasm q prev arrival.2).2.toOption
  | _ => none

theorem ipFragQueue_handed (handed : Handed q) (skb : Skb) (ch : Choices) :
    ipFragQueue q skb ch = (q, .refused .enoent) := by
  unfold ipFragQueue
  rw [if_pos handed.complete]

theorem arrive_handed (handed : Handed q) (arrival : Skb × Choices) : arrive q arrival = q := by
  unfold arrive
  rw [ipFragQueue_handed handed]

/-- **One arrival**: the queue stays sound unless the datagram is handed on. -/
theorem arrive_sound (seen : skb ∈ history) (sound : Sound history q) :
    (handsOn q (skb, ch) ≠ none → Handed (arrive q (skb, ch))) ∧
      (handsOn q (skb, ch) = none → Sound history (arrive q (skb, ch))) := by
  obtain ⟨sound', full⟩ := ipFragQueue_sound ch sound seen
  unfold handsOn arrive
  rcases outcome : ipFragQueue q skb ch with ⟨q', err | _ | prev⟩
  all_goals rw [outcome] at sound' full
  · exact ⟨absurd rfl, fun _ => sound'⟩
  · exact ⟨absurd rfl, fun _ => sound'⟩
  · have reasm := ipFragReasm_sound sound' (full prev rfl) prev ch
    dsimp only at reasm ⊢
    generalize ipFragReasm q' prev ch = result at reasm ⊢
    rcases result with ⟨after, err | bytes⟩
    · exact ⟨absurd rfl, fun _ => reasm⟩
    · exact ⟨fun _ => reasm.1, nofun⟩

end Arrival

/-! ### All arrivals -/

def queueAfter (arrivals : List (Skb × Choices)) : Ipq := arrivals.foldl arrive fresh

/-- One of the arrivals has handed the datagram on. -/
def Reassembled (arrivals : List (Skb × Choices)) : Prop :=
  ∃ front arrival back, arrivals = front ++ arrival :: back ∧
    handsOn (queueAfter front) arrival ≠ none

theorem queueAfter_concat (front : List (Skb × Choices)) (arrival : Skb × Choices) :
    queueAfter (front ++ [arrival]) = arrive (queueAfter front) arrival := by
  rw [queueAfter, foldl_append]
  rfl

theorem reassembled_concat {front : List (Skb × Choices)} {arrival : Skb × Choices} :
    Reassembled (front ++ [arrival]) ↔
      Reassembled front ∨ handsOn (queueAfter front) arrival ≠ none := by
  constructor
  · rintro ⟨before, which, back, parts, handed⟩
    rcases eq_nil_or_concat' back with rfl | ⟨back, last, rfl⟩
    · obtain ⟨rfl, same⟩ := append_inj' parts rfl
      cases same
      exact .inr handed
    · rw [← cons_append, ← append_assoc] at parts
      obtain ⟨rfl, -⟩ := append_inj' parts rfl
      exact .inl ⟨before, which, back, rfl, handed⟩
  · rintro (⟨before, which, back, rfl, handed⟩ | handed)
    · exact ⟨before, which, back ++ [arrival], by simp, handed⟩
    · exact ⟨front, arrival, [], rfl, handed⟩

/-- What holds of a queue after any arrivals. -/
theorem queueAfter_spec (arrivals : List (Skb × Choices)) :
    (Reassembled arrivals → Handed (queueAfter arrivals)) ∧
      (¬ Reassembled arrivals → Sound (arrivals.map Prod.fst) (queueAfter arrivals)) := by
  induction arrivals using reverseRecOn with
  | nil =>
    refine ⟨?_, fun _ => sound_fresh⟩
    rintro ⟨front, arrival, back, parts, -⟩
    simp at parts
  | append_singleton front arrival ih =>
    obtain ⟨handed, sound⟩ := ih
    rw [reassembled_concat, queueAfter_concat, map_append]
    by_cases before : Reassembled front
    · refine ⟨fun _ => ?_, fun not => absurd (.inl before) not⟩
      rw [arrive_handed (handed before)]
      exact handed before
    have seen : arrival.1 ∈ front.map Prod.fst ++ [arrival].map Prod.fst :=
      mem_append_right _ mem_cons_self
    have step := @arrive_sound _ _ arrival.2 _ seen
      ((sound before).mono fun skb member => mem_append_left _ member)
    refine ⟨fun now => step.1 (now.resolve_left before), fun not => step.2 ?_⟩
    by_contra now
    exact not (.inr now)

/-- **Every order of arrivals.** After each packet the fragments are in order, apart, inside the
datagram and genuine. It is handed on only when they cover it, with every byte from a packet that
had it there, and the queue is then killed and empty. -/
theorem fragments_sound (arrivals : List (Skb × Choices)) :
    (¬ Reassembled arrivals → Sound (arrivals.map Prod.fst) (queueAfter arrivals)) ∧
      (Reassembled arrivals → Handed (queueAfter arrivals)) ∧
      ∀ skb ch q prev, ipFragQueue (queueAfter arrivals) skb ch = (q, .reassembles prev) →
        Sound (skb :: arrivals.map Prod.fst) q ∧ Gapless q ∧
          ∀ bytes, (ipFragReasm q prev ch).2 = .ok bytes →
            Handed (ipFragReasm q prev ch).1 ∧
              Datagram (skb :: arrivals.map Prod.fst) q.len bytes := by
  obtain ⟨handed, sound⟩ := queueAfter_spec arrivals
  refine ⟨sound, handed, fun skb ch q prev outcome => ?_⟩
  by_cases before : Reassembled arrivals
  · rw [ipFragQueue_handed (handed before)] at outcome
    cases outcome
  have more : Sound (skb :: arrivals.map Prod.fst) (queueAfter arrivals) :=
    (sound before).mono fun other member => mem_cons_of_mem _ member
  obtain ⟨sound', full⟩ := ipFragQueue_sound ch more mem_cons_self
  rw [outcome] at sound' full
  have full := full prev rfl
  refine ⟨sound', full.gapless, fun bytes result => ?_⟩
  have reasm := ipFragReasm_sound sound' full prev ch
  rcases call : ipFragReasm q prev ch with ⟨after, answer⟩
  rw [call] at reasm result
  cases result
  exact reasm

/-- A packet that is not fragmented: eight bytes behind a header of twenty. -/
def wholePacket : Skb := ⟨0, 20, replicate 28 0, false, by decide, by decide⟩

def noFailure : Choices := ⟨false, true, true, none, true, true, true, true, true⟩

/-- A queue that is handed on forgets its fragments, but not their bytes. -/
theorem reassembled_meat : (queueAfter [(wholePacket, noFailure)]).fragments = [] ∧
    (queueAfter [(wholePacket, noFailure)]).meat = 8 ∧
    dataLength (queueAfter [(wholePacket, noFailure)]).fragments = 0 := by
  decide +kernel

end KernelImx.Fragments
