import NtfsPlus.Lib.ByteMemory

/-!
# Fields of bits

Bit `i` of a byte memory is bit `i % 8` of byte `i / 8`.  The operations are
those of `libntfs/bitmap.c`; `bitAt` is what they are proved about.  The last
section counts the bits of a field: changing one bit moves the count by one.
-/

namespace NtfsPlus

section Bits

/-- Bit `i` of a field of bits. -/
def bitAt (m : Bytes) (i : Nat) : Bool :=
  (m (i / 8)).toNat.testBit (i % 8)

/-- `ntfs_bit_get`, on a field that is there. -/
def bitGet (bitmap : Bytes) (bit : Nat) : UInt8 :=
  (bitmap (bit >>> 3) >>> UInt8.ofNat (bit % 8)) &&& 1

/-- `ntfs_bit_set`, on a field that is there. -/
def bitSet (bitmap : Bytes) (bit : Nat) (newValue : UInt8) : Bytes :=
  if newValue > 1 then
    bitmap
  else if newValue = 0 then
    setByte bitmap (bit >>> 3) (bitmap (bit >>> 3) &&& ~~~(1 <<< UInt8.ofNat (bit % 8)))
  else
    setByte bitmap (bit >>> 3) (bitmap (bit >>> 3) ||| (1 <<< UInt8.ofNat (bit % 8)))

/-- `ntfs_bit_get_and_set`, on a field that is there. -/
def bitGetAndSet (bitmap : Bytes) (bit : Nat) (newValue : UInt8) : Bytes × Int :=
  if newValue > 1 then
    (bitmap, -1)
  else
    let shift := UInt8.ofNat (bit % 8)
    let oldBit := (bitmap (bit >>> 3) >>> shift) &&& 1
    if newValue ≠ oldBit then
      (setByte bitmap (bit >>> 3) (bitmap (bit >>> 3) ^^^ (1 <<< shift)), oldBit.toNat)
    else
      (bitmap, oldBit.toNat)

variable {k j : Nat}

variable (b : UInt8) (m : Bytes) (i : Nat)

/-- Shifting a byte to the right and masking gives the bit. -/
theorem shiftRight_and_one
    (hk : k < 8) :
    (b >>> UInt8.ofNat k) &&& 1 = (b.toNat.testBit k).toUInt8 := by
  apply UInt8.toNat_inj.mp
  have hk' : (UInt8.ofNat k).toNat = k := UInt8.toNat_ofNat_of_lt' (Nat.lt_trans hk (by decide))
  rw [UInt8.toNat_and, UInt8.toNat_shiftRight, hk', Nat.mod_eq_of_lt hk]
  rw [show (1 : UInt8).toNat = 1 from rfl, Nat.and_one_is_mod, Nat.testBit, Nat.one_and_eq_mod_two]
  rcases Nat.mod_two_eq_zero_or_one (b.toNat >>> k) with h | h <;> rw [h] <;> rfl

/-- `bitGet` tells the bit. -/
theorem bitGet_eq : bitGet m i = (bitAt m i).toUInt8 := by
  rw [bitGet, bitAt, shiftRight_and_one _ (Nat.mod_lt _ (by decide)), Nat.shiftRight_eq_div_pow]

theorem toNat_one_shiftLeft
    (hk : k < 8) :
    (1 <<< UInt8.ofNat k : UInt8).toNat = 2 ^ k := by
  have hk' : (UInt8.ofNat k).toNat = k := UInt8.toNat_ofNat_of_lt' (Nat.lt_trans hk (by decide))
  have hpow : 2 ^ k < 2 ^ 8 := Nat.pow_lt_pow_right (by decide) hk
  rw [UInt8.toNat_shiftLeft, hk', Nat.mod_eq_of_lt hk,
    show (1 : UInt8).toNat = 1 from rfl, Nat.one_shiftLeft]
  exact Nat.mod_eq_of_lt hpow

/-- Exclusive or with one bit turns that bit over. -/
theorem testBit_flip
    (hk : k < 8)
    (j : Nat) :
    (b ^^^ (1 <<< UInt8.ofNat k)).toNat.testBit j =
      if j = k then !b.toNat.testBit k else b.toNat.testBit j := by
  rw [UInt8.toNat_xor, Nat.testBit_xor, toNat_one_shiftLeft hk]
  by_cases h : j = k
  · simp [h]
  · simp [h, Ne.symm h]

/-- Or with one bit sets that bit. -/
theorem testBit_or_one
    (hk : k < 8)
    (j : Nat) :
    (b ||| (1 <<< UInt8.ofNat k)).toNat.testBit j =
      if j = k then true else b.toNat.testBit j := by
  rw [UInt8.toNat_or, Nat.testBit_or, toNat_one_shiftLeft hk]
  by_cases h : j = k
  · simp [h]
  · simp [h, Ne.symm h]

theorem testBit_compl
    (hj : j < 8) :
    (~~~b).toNat.testBit j = !b.toNat.testBit j := by
  rw [← UInt8.toNat_toBitVec, ← UInt8.toNat_toBitVec, BitVec.testBit_toNat,
    BitVec.testBit_toNat, UInt8.toBitVec_not]
  simp [hj]

/-- And with the complement of one bit clears that bit. -/
theorem testBit_and_not
    (hk : k < 8)
    (hj : j < 8) :
    (b &&& ~~~(1 <<< UInt8.ofNat k)).toNat.testBit j =
      if j = k then false else b.toNat.testBit j := by
  rw [UInt8.toNat_and, Nat.testBit_and, testBit_compl _ hj, toNat_one_shiftLeft hk]
  by_cases h : j = k
  · simp [h]
  · simp [h, Ne.symm h]

/-- A byte that differs from the old one in one bit changes that bit of the field. -/
theorem bitAt_setByte
    (v : Bool)
    {b : UInt8}
    (h : ∀ j < 8, b.toNat.testBit j =
      if j = i % 8 then v else (m (i / 8)).toNat.testBit j)
    (j : Nat) :
    bitAt (setByte m (i / 8) b) j = if j = i then v else bitAt m j := by
  have hmod : j % 8 < 8 := Nat.mod_lt _ (by decide)
  unfold bitAt
  by_cases hbyte : j / 8 = i / 8
  · rw [hbyte, setByte_same, h _ hmod]
    by_cases hj : j = i
    · rw [if_pos (by rw [hj]), if_pos hj]
    · rw [if_neg (by omega), if_neg hj]
  · rw [setByte_of_ne _ _ hbyte, if_neg (by rintro rfl; exact hbyte rfl)]

/-- The answer is the bit as it was before. -/
theorem bitGetAndSet_old
    (b : Bool) :
    (bitGetAndSet m i b.toUInt8).2 = (bitAt m i).toInt := by
  have hb : ¬ b.toUInt8 > 1 := by cases b <;> decide
  unfold bitGetAndSet
  dsimp only
  rw [shiftRight_and_one _ (Nat.mod_lt _ (by decide)), Nat.shiftRight_eq_div_pow]
  rw [bitAt]
  cases (m (i / 2 ^ 3)).toNat.testBit (i % 8) <;> cases b <;> rfl

/-- Only the bit that is set changes. -/
theorem bitAt_bitGetAndSet
    (j : Nat)
    (b : Bool) :
    bitAt (bitGetAndSet m i b.toUInt8).1 j = if j = i then b else bitAt m j := by
  have hb : ¬ b.toUInt8 > 1 := by cases b <;> decide
  have hmod : i % 8 < 8 := Nat.mod_lt _ (by decide)
  unfold bitGetAndSet
  dsimp only
  rw [if_neg hb, shiftRight_and_one _ hmod, Nat.shiftRight_eq_div_pow]
  by_cases hsame : b = bitAt m i
  · have hold : ¬ b.toUInt8 ≠ ((m (i / 2 ^ 3)).toNat.testBit (i % 8)).toUInt8 := by
      simp [hsame, bitAt]
    rw [if_neg hold]
    by_cases hj : j = i
    · simp [hj, hsame]
    · simp [hj]
  · have hold : b.toUInt8 ≠ ((m (i / 2 ^ 3)).toNat.testBit (i % 8)).toUInt8 := by
      change b ≠ (m (i / 2 ^ 3)).toNat.testBit (i % 8) at hsame
      revert hsame
      cases (m (i / 2 ^ 3)).toNat.testBit (i % 8) <;> cases b <;> decide
    have hflip : (!bitAt m i) = b := by
      revert hsame
      cases bitAt m i <;> cases b <;> decide
    rw [if_pos hold]
    apply bitAt_setByte
    intro k _
    rw [testBit_flip _ hmod, ← hflip]
    rfl

/-- Only the bit that is set changes. -/
theorem bitAt_bitSet
    (j : Nat)
    (b : Bool) :
    bitAt (bitSet m i b.toUInt8) j = if j = i then b else bitAt m j := by
  have hmod : i % 8 < 8 := Nat.mod_lt _ (by decide)
  unfold bitSet
  rw [Nat.shiftRight_eq_div_pow]
  cases b with
  | false =>
    exact bitAt_setByte m i false (fun k hk => testBit_and_not _ hmod hk) j
  | true =>
    exact bitAt_setByte m i true (fun k _ => testBit_or_one _ hmod k) j

end Bits

section Counting

/-- How many of the indices below `n` satisfy `p`. -/
def countBelow (n : Nat) (p : Nat → Bool) : Nat :=
  (List.range n).countP p

theorem countBelow_succ
    (n : Nat)
    (p : Nat → Bool) :
    countBelow (n + 1) p = countBelow n p + (p n).toNat := by
  simp only [countBelow, List.range_succ, List.countP_append, List.countP_singleton]
  cases p n <;> rfl

theorem countBelow_le
    (n : Nat)
    (p : Nat → Bool) :
    countBelow n p ≤ n := by
  simpa [countBelow] using List.countP_le_length (p := p) (l := List.range n)

variable {n : Nat} {p q : Nat → Bool}

theorem countBelow_congr
    (h : ∀ i < n, p i = q i) :
    countBelow n p = countBelow n q := by
  apply List.countP_congr
  intro i hi
  rw [h i (List.mem_range.mp hi)]

/-- Changing the value at one index changes the count by that value. -/
theorem countBelow_update
    {i : Nat}
    (hi : i < n)
    (h : ∀ j < n, j ≠ i → q j = p j) :
    countBelow n q + (p i).toNat = countBelow n p + (q i).toNat := by
  induction n with
  | zero => omega
  | succ n ih =>
    rw [countBelow_succ, countBelow_succ]
    by_cases hin : i = n
    · subst hin
      rw [countBelow_congr (fun j hj => h j (by omega) (by omega))]
      omega
    · have := ih (by omega) (fun j hj hne => h j (by omega) hne)
      rw [h n (by omega) (Ne.symm hin)]
      omega

/-- All are counted exactly when all hold. -/
theorem countBelow_eq_iff : countBelow n p = n ↔ ∀ i < n, p i = true := by
  rw [countBelow]
  have := List.countP_eq_length (p := p) (l := List.range n)
  rw [List.length_range] at this
  rw [this]
  simp only [List.mem_range]

end Counting

end NtfsPlus
