import NtfsPlus.Libntfs.ClusterAlloc

/-!
# The longest run of zero bits

`max_empty_bit_range` keeps the run that is open at a bit and the best run that has ended.
Both are counted in an `int`, so `maxEmptyBitRangeInt` is the model with the counters cut off;
below 2^28 bytes it gives what `maxEmptyBitRange` gives, which is the first of the longest
runs.
-/

namespace NtfsPlus.Libntfs

section Gaps

variable (buf : Bytes)

/-- All bits of a range are zero. -/
def ZeroRange (a n : Nat) : Prop :=
  ∀ k, a ≤ k → k < a + n → bitAt buf k = false

/-- The best run among those that end at or before `p`. -/
structure BestGap (p max : Nat) (start : Option Nat) : Prop where
  none_iff : start = none ↔ max = 0
  zero : ∀ a ∈ start, a + max ≤ p ∧ ZeroRange buf a max
  longest : ∀ b n, 0 < n → b + n ≤ p → ZeroRange buf b n →
    n ≤ max ∧ (n = max → ∀ a ∈ start, a ≤ b)

/-- The state of the scan in front of bit `p`. -/
structure GapsBefore (p : Nat) (s : GapScan) : Prop where
  run_le : s.run ≤ p
  opened : ZeroRange buf (p - s.run) s.run
  ended : s.run < p → bitAt buf (p - s.run - 1) = true
  best : BestGap buf (p - s.run) s.maxRange s.startPos

variable {buf} {p i : Nat} {s : GapScan}

theorem GapScan.stop_run
    (s : GapScan)
    (p : Nat) :
    (s.stop p).run = 0 := by
  unfold GapScan.stop
  split_ifs <;> rfl

/-- Closing a gap keeps the longest one. -/
theorem GapsBefore.stop
    (h : GapsBefore buf p s) :
    BestGap buf p (s.stop p).maxRange (s.stop p).startPos := by
  have hrun := h.run_le
  -- a range of zeros lies in front of the open run or inside it
  have hsplit : ∀ b n, 0 < n → ZeroRange buf b n → b + n ≤ p - s.run ∨ p - s.run ≤ b := by
    intro b n hpos hzero
    by_contra hcross
    have hbit := h.ended (by omega)
    rw [hzero (p - s.run - 1) (by omega) (by omega)] at hbit
    cases hbit
  unfold GapScan.stop
  split_ifs with hmore
  · refine ⟨by simp; omega, by simpa [Nat.sub_add_cancel hrun] using h.opened, ?_⟩
    intro b n hpos hn hzero
    rcases hsplit b n hpos hzero with hold | hopen
    · have := (h.best.longest b n hpos hold hzero).1
      exact ⟨by dsimp only; omega, fun heq => by dsimp only at heq; omega⟩
    · exact ⟨by dsimp only; omega, by simpa using fun _ => hopen⟩
  · refine ⟨h.best.none_iff, fun a ha => ⟨?_, (h.best.zero a ha).2⟩, ?_⟩
    · exact (h.best.zero a ha).1.trans (Nat.sub_le _ _)
    · intro b n hpos hn hzero
      rcases hsplit b n hpos hzero with hold | hopen
      · exact h.best.longest b n hpos hold hzero
      · refine ⟨by dsimp only; omega, fun heq a ha => ?_⟩
        exact (Nat.le_of_add_right_le (h.best.zero a ha).1).trans hopen

/-- A set bit closes the gap. -/
theorem GapsBefore.one
    (h : GapsBefore buf p s)
    (hbit : bitAt buf p = true) :
    GapsBefore buf (p + 1) (s.stop p) := by
  have hbest := h.stop
  have hrun := s.stop_run p
  refine ⟨by omega, fun k hlo hhi => by omega, fun _ => by simpa [hrun] using hbit, ?_⟩
  rw [hrun]
  refine ⟨hbest.none_iff, fun a ha => ⟨by have := (hbest.zero a ha).1; omega, (hbest.zero a ha).2⟩,
    fun b n hpos hn hzero => hbest.longest b n hpos ?_ hzero⟩
  by_contra hlast
  rw [hzero p (by omega) (by omega)] at hbit
  cases hbit

/-- A clear bit makes it longer. -/
theorem GapsBefore.zero
    (h : GapsBefore buf p s)
    (hbit : bitAt buf p = false) :
    GapsBefore buf (p + 1) { s with run := s.run + 1 } := by
  have hstart : p + 1 - (s.run + 1) = p - s.run := by omega
  have hrun := h.run_le
  refine ⟨by dsimp only; omega, ?_, ?_, ?_⟩
  · rw [hstart]
    intro k hlo hhi
    by_cases hk : k < p
    · exact h.opened k hlo (by omega)
    · rwa [show k = p by dsimp only at hhi; omega]
  · rw [hstart]
    exact fun hlt => h.ended (by dsimp only at hlt; omega)
  · rw [hstart]
    exact h.best

/-- The bits of a byte, one after the other. -/
theorem GapsBefore.bits
    (h : GapsBefore buf (8 * i) s)
    (j : Nat)
    (hj : j ≤ 8) :
    GapsBefore buf (8 * i + j) (gapBits (buf i) i j s) := by
  induction j with
  | zero => exact h
  | succ j ih =>
    have hbit : bitAt buf (8 * i + j) = (buf i).toNat.testBit j := by
      rw [bitAt, show (8 * i + j) / 8 = i by omega, show (8 * i + j) % 8 = j by omega]
    rw [gapBits]
    split_ifs with hset
    · exact (ih (by omega)).one (hbit.trans hset)
    · exact (ih (by omega)).zero (hbit.trans (Bool.eq_false_iff.mpr hset))

theorem GapScan.stop_stop
    (s : GapScan)
    (p q : Nat) :
    (s.stop p).stop q = s.stop p := by
  rw [GapScan.stop, s.stop_run p, if_neg (Nat.not_lt_zero _), ← s.stop_run p]

theorem gapByte_eq
    (b : UInt8)
    (i : Nat)
    (s : GapScan) :
    gapByte b i s = gapBits b i 8 s := by
  unfold gapByte
  split_ifs with hzero hones
  · subst hzero
    simp [gapBits]
  · subst hones
    simp [gapBits, Nat.testBit, GapScan.stop_stop]
  · rfl

/-- The scan knows the longest gap before it. -/
theorem gapsBefore_gapBytes
    (buf : Bytes)
    (n : Nat) :
    GapsBefore buf (8 * n) (gapBytes buf n) := by
  induction n with
  | zero => exact ⟨le_rfl, fun k hlo hhi => absurd hhi (Nat.not_lt.mpr hlo),
      fun h => absurd h (Nat.lt_irrefl 0), by simp [gapBytes], by simp [gapBytes],
      fun b n hpos hn => by simp at hn; omega⟩
  | succ n ih =>
    rw [gapBytes, gapByte_eq]
    exact ih.bits 8 le_rfl

theorem maxEmptyBitRange_eq
    (buf : Bytes)
    (size : Nat) :
    maxEmptyBitRange buf size = ((gapBytes buf size).stop (8 * size)).startPos := by
  unfold maxEmptyBitRange GapScan.stop
  dsimp only
  split_ifs <;> rfl

end Gaps

section Counters

/-- The value of an `int`. -/
def int32 (n : Int) : Int :=
  (n + 2147483648) % 4294967296 - 2147483648

/-- The variables of `max_empty_bit_range` as they are. -/
structure IntScan where
  run : Int
  maxRange : Int
  startPos : Int

/-- A set bit at position `pos` ends a run. -/
def IntScan.stop (s : IntScan) (pos : Int) : IntScan :=
  if s.run > s.maxRange then ⟨0, s.run, pos - s.run⟩ else ⟨0, s.maxRange, s.startPos⟩

/-- The loop over the first `j` bits of byte `i`. -/
def intBits (b : UInt8) (i : Nat) : Nat → IntScan → IntScan
  | 0, s => s
  | j + 1, s =>
    let s := intBits b i j s
    if b.toNat.testBit j then s.stop (8 * i + j) else { s with run := int32 (s.run + 1) }

/-- The first `i` bytes. -/
def intBytes (buf : Bytes) : Nat → IntScan
  | 0 => ⟨0, 0, -1⟩
  | i + 1 =>
    let s := intBytes buf i
    if buf i = 0 then { s with run := int32 (s.run + 8) }
    else if buf i = 255 then s.stop (8 * i)
    else intBits (buf i) i 8 s

/-- `max_empty_bit_range`. -/
def maxEmptyBitRangeInt (buf : Bytes) (size : Nat) : Int :=
  let s := intBytes buf size
  if s.run > s.maxRange then 8 * size - s.run else s.startPos

/-- The counters of the scan in front of bit `p` are not cut off. -/
structure SameScan (p : Nat) (s : GapScan) (t : IntScan) : Prop where
  run_le : s.run ≤ p
  run_eq : t.run = s.run
  max_eq : t.maxRange = s.maxRange
  start_eq : t.startPos = s.startPos.elim (-1) Nat.cast

variable {s : GapScan} {t : IntScan} {p i : Nat}

theorem SameScan.stop
    (h : SameScan p s t) :
    SameScan p (s.stop p) (t.stop p) := by
  obtain ⟨hle, hrun, hmax, hstart⟩ := h
  unfold GapScan.stop IntScan.stop
  rw [hrun, hmax]
  split
  · rw [if_pos (by omega)]
    exact ⟨Nat.zero_le p, rfl, rfl, (Int.ofNat_sub hle).symm⟩
  · rw [if_neg (by omega)]
    exact ⟨Nat.zero_le p, rfl, rfl, hstart⟩

theorem SameScan.mono
    {q : Nat}
    (h : SameScan p s t)
    (hle : p ≤ q) :
    SameScan q s t :=
  ⟨h.1.trans hle, h.2, h.3, h.4⟩

theorem SameScan.more
    (h : SameScan p s t)
    (n : Nat)
    (hp : p + n < 2147483648) :
    SameScan (p + n) { s with run := s.run + n } { t with run := int32 (t.run + n) } := by
  have hle := h.run_le
  refine ⟨by dsimp only; omega, ?_, h.max_eq, h.start_eq⟩
  rw [h.run_eq, int32]
  push_cast
  omega

/-- The int counters agree over a byte. -/
theorem SameScan.bits
    (h : SameScan (8 * i) s t)
    (b : UInt8)
    (hi : i < 268435455)
    (j : Nat)
    (hj : j ≤ 8) :
    SameScan (8 * i + j) (gapBits b i j s) (intBits b i j t) := by
  induction j with
  | zero => exact h
  | succ j ih =>
    have hprev := ih (by omega)
    rw [gapBits, intBits]
    split_ifs with hset
    · exact_mod_cast hprev.stop.mono (Nat.le_succ _)
    · exact hprev.more 1 (by omega)

/-- The int counters agree on buffers of less than 2^28 bytes. -/
theorem sameScan_bytes
    (buf : Bytes)
    (n : Nat)
    (hn : n < 268435456) :
    SameScan (8 * n) (gapBytes buf n) (intBytes buf n) := by
  induction n with
  | zero => exact ⟨le_rfl, rfl, rfl, rfl⟩
  | succ n ih =>
    have hprev := ih (by omega)
    rw [gapBytes, intBytes, gapByte]
    split_ifs with hzero hones
    · exact hprev.more 8 (by omega)
    · exact_mod_cast hprev.stop.mono (by omega)
    · exact hprev.bits (buf n) (by omega) 8 le_rfl

theorem maxEmptyBitRangeInt_eq
    (buf : Bytes)
    {size : Nat}
    (h : size < 268435456) :
    maxEmptyBitRangeInt buf size = (maxEmptyBitRange buf size).elim (-1) Nat.cast := by
  rw [maxEmptyBitRange_eq, ← (sameScan_bytes buf size h).stop.start_eq]
  unfold maxEmptyBitRangeInt IntScan.stop
  push_cast
  split_ifs <;> rfl

/-- Below 2^28 bytes the answer is -1 exactly when no bit is zero, and else where the first of the
longest runs of zero bits starts. -/
theorem maxEmptyBitRange_longest
    (buf : Bytes)
    (size : Nat)
    (h : size < 268435456) :
    (maxEmptyBitRangeInt buf size = -1 ↔ ∀ k < 8 * size, bitAt buf k = true) ∧
      ∀ a : Nat, maxEmptyBitRangeInt buf size = a →
        ∃ n, 0 < n ∧ a + n ≤ 8 * size ∧ ZeroRange buf a n ∧
          ∀ b m, b + m ≤ 8 * size → ZeroRange buf b m → m ≤ n ∧ (m = n → a ≤ b) := by
  have hbest := (gapsBefore_gapBytes buf size).stop
  rw [maxEmptyBitRangeInt_eq buf h, maxEmptyBitRange_eq]
  generalize ((gapBytes buf size).stop (8 * size)).maxRange = max at hbest
  cases hstart : ((gapBytes buf size).stop (8 * size)).startPos with
  | none =>
    rw [hstart] at hbest
    obtain rfl := hbest.none_iff.mp rfl
    refine ⟨iff_of_true rfl fun k hk => ?_, fun a ha => by simp at ha⟩
    by_contra hbit
    have := (hbest.longest k 1 one_pos hk fun j hlo hhi => by
      rw [show j = k by omega]
      exact Bool.eq_false_iff.mpr hbit).1
    omega
  | some a =>
    rw [hstart] at hbest
    have hpos : 0 < max := Nat.pos_of_ne_zero fun h0 => by cases hbest.none_iff.mpr h0
    obtain ⟨hend, hzero⟩ := hbest.zero a rfl
    refine ⟨iff_of_false (by simp) fun hall => ?_, fun a' ha => ?_⟩
    · have := hall a (by omega)
      rw [hzero a le_rfl (by omega)] at this
      cases this
    · obtain rfl : a = a' := Int.ofNat.inj ha
      refine ⟨max, hpos, hend, hzero, fun b m hm hrange => ?_⟩
      rcases Nat.eq_zero_or_pos m with rfl | hm0
      · exact ⟨Nat.zero_le _, fun h0 => absurd h0 hpos.ne⟩
      · exact (hbest.longest b m hm0 hm hrange).imp_right fun h heq => h heq a rfl

theorem maxEmptyBitRange_longest_byte :
    (1 : Nat) < 268435456 ∧ maxEmptyBitRangeInt (fun _ => 0x8e) 1 = 4 ∧
      ∃ n, 0 < n ∧ 4 + n ≤ 8 * 1 ∧ ZeroRange (fun _ => 0x8e) 4 n ∧ ∀ b m, b + m ≤ 8 * 1 →
        ZeroRange (fun _ => 0x8e) b m → m ≤ n ∧ (m = n → 4 ≤ b) :=
  ⟨by decide, by decide, (maxEmptyBitRange_longest (fun _ => 0x8e) 1 (by decide)).2 4 (by decide)⟩

theorem intBytes_zero
    (n : Nat) :
    intBytes (fun _ => 0) n = ⟨int32 (8 * n), 0, -1⟩ := by
  induction n with
  | zero => rfl
  | succ n ih =>
    rw [intBytes, ih, if_pos rfl]
    simp only [int32, IntScan.mk.injEq, and_true]
    omega

/-- In 2^28 bytes of zeros no zero bit is found. -/
theorem maxEmptyBitRange_cut_off :
    maxEmptyBitRangeInt (fun _ => 0) 268435456 = -1 ∧ bitAt (fun _ => 0) 0 = false := by
  rw [maxEmptyBitRangeInt, intBytes_zero]
  decide

end Counters

end NtfsPlus.Libntfs
