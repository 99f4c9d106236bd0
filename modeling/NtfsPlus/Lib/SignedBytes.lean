import Mathlib.Tactic

/-!
# Fixed-width integers and variable-width signed bytes

General arithmetic used by the on-disk formats of the development.

* `s64` is the two's complement reduction of an integer to 64 bits, the
  value an `s64` variable holds after a wrapped operation.
* `value` reads a nonempty little-endian byte string as a signed number:
  every byte but the last is unsigned, the last one carries the sign.
* `significant` is the shortest byte string (up to a given width) whose
  `value` is the number.

The main fact is `value_significant`: writing the significant bytes of a
number and reading them back is the identity on the whole signed range of
the width.
-/

namespace NtfsPlus.SignedBytes

section FixedWidth

/-- Two's complement reduction to 64 bits. -/
def s64 (x : Int) : Int :=
  Int.bmod x (2 ^ 64)

/-- The signed 64-bit range. -/
def InS64 (x : Int) : Prop :=
  -2 ^ 63 ≤ x ∧ x < 2 ^ 63

instance (x : Int) : Decidable (InS64 x) :=
  inferInstanceAs (Decidable (_ ∧ _))

/-- Numbers of 64 bits are not changed. -/
theorem s64_of_inS64
    {x : Int}
    (h : InS64 x) :
    s64 x = x := by
  obtain ⟨hlo, hhi⟩ := h
  apply Int.bmod_eq_of_le <;> omega

/-- The result is a number of 64 bits. -/
theorem s64_inS64
    (x : Int) :
    InS64 (s64 x) := by
  have hlo := Int.le_bmod (x := x) (m := 2 ^ 64) (by decide)
  have hhi := Int.bmod_lt (x := x) (m := 2 ^ 64) (by decide)
  exact ⟨hlo, hhi⟩

theorem s64_of_ge
    {x : Int}
    (hlo : 2 ^ 63 ≤ x)
    (hhi : x < 2 ^ 64) :
    s64 x = x - 2 ^ 64 := by
  unfold s64
  have hsub : x = x - 2 ^ 64 + (2 ^ 64 : Nat) := by
    omega
  rw [hsub, Int.add_bmod_right, Int.bmod_eq_of_le (by omega) (by omega)]
  omega

end FixedWidth

/-- The low byte of a number, as a store into a `u8` keeps it. -/
def byteOf (n : Int) : UInt8 :=
  UInt8.ofNat (n % 256).toNat

/-- A byte read as a signed 8-bit number. -/
def signedByte (b : UInt8) : Int :=
  if b.toNat < 128 then b.toNat else (b.toNat : Int) - 256

theorem toNat_byteOf
    (n : Int) :
    ((byteOf n).toNat : Int) = n % 256 := by
  have hlt : (n % 256).toNat < 256 := by omega
  unfold byteOf
  rw [UInt8.toNat_ofNat_of_lt' hlt]
  omega

/-- A number of the signed 8-bit range is its own signed low byte. -/
theorem signedByte_byteOf
    {n : Int}
    (hlo : -128 ≤ n)
    (hhi : n ≤ 127) :
    signedByte (byteOf n) = n := by
  have hb := toNat_byteOf n
  unfold signedByte
  split_ifs with h <;> omega

/-- The range of a signed byte. -/
theorem signedByte_bounds
    (b : UInt8) :
    -128 ≤ signedByte b ∧ signedByte b ≤ 127 := by
  have := b.toNat_lt
  unfold signedByte
  split_ifs with h <;> omega

/-- Little-endian value of a byte string whose last byte is signed. -/
def value : List UInt8 → Int
  | [] => 0
  | [b] => signedByte b
  | b :: c :: rest => (b.toNat : Int) + 256 * value (c :: rest)

@[simp] theorem value_singleton
    (b : UInt8) :
    value [b] = signedByte b := by
  rfl

theorem value_cons
    (b : UInt8)
    {rest : List UInt8}
    (h : rest ≠ []) :
    value (b :: rest) = (b.toNat : Int) + 256 * value rest := by
  cases rest with
  | nil => exact absurd rfl h
  | cons c rest => rfl

/-- A string of `k + 1` bytes has a value in the signed range of its width. -/
theorem value_bounds :
    ∀ (k : Nat) (l : List UInt8), l.length = k + 1 →
      -2 ^ (8 * k + 7) ≤ value l ∧ value l < 2 ^ (8 * k + 7)
  | 0, l, h => by
      obtain ⟨b, rfl⟩ := List.length_eq_one_iff.mp h
      have hb := signedByte_bounds b
      constructor
      · simp; omega
      · simp; omega
  | k + 1, b :: rest, h => by
      have hlen : rest.length = k + 1 := by simpa using h
      have hne : rest ≠ [] := by
        rintro rfl
        simp at hlen
      obtain ⟨hlo, hhi⟩ := value_bounds k rest hlen
      have hb := b.toNat_lt
      have hpow : (2 : Int) ^ (8 * (k + 1) + 7) = 256 * 2 ^ (8 * k + 7) := by
        rw [show 8 * (k + 1) + 7 = 8 + (8 * k + 7) by omega, pow_add]
        norm_num
      rw [value_cons b hne]
      constructor <;> omega

/-- Up to eight bytes make a number of 64 bits. -/
theorem value_inS64
    {l : List UInt8}
    (hpos : 0 < l.length)
    (hle : l.length ≤ 8) :
    InS64 (value l) := by
  obtain ⟨k, hk⟩ : ∃ k, l.length = k + 1 := ⟨l.length - 1, by omega⟩
  obtain ⟨hlo, hhi⟩ := value_bounds k l hk
  have hpow : (2 : Int) ^ (8 * k + 7) ≤ 2 ^ 63 :=
    pow_le_pow_right₀ (by norm_num) (by omega)
  exact ⟨by omega, by omega⟩

/-- The significant bytes of a number, at most `k + 1` of them. -/
def significant : Nat → Int → List UInt8
  | 0, n => [byteOf n]
  | k + 1, n =>
    if n > 127 ∨ n < -128 then
      byteOf n :: significant k (n / 256)
    else
      [byteOf n]

theorem significant_ne_nil
    (k : Nat)
    (n : Int) :
    significant k n ≠ [] := by
  cases k with
  | zero => simp [significant]
  | succ k =>
    unfold significant
    split_ifs <;> simp

theorem significant_length_le :
    ∀ (k : Nat) (n : Int), (significant k n).length ≤ k + 1
  | 0, n => by simp [significant]
  | k + 1, n => by
      unfold significant
      split_ifs
      · simpa using significant_length_le k (n / 256)
      · simp

theorem significant_length_pos
    (k : Nat)
    (n : Int) :
    0 < (significant k n).length :=
  List.length_pos_iff.mpr (significant_ne_nil k n)

/-- The significant bytes of a number have its value. -/
theorem value_significant
    (k : Nat)
    (n : Int)
    (hlo : -2 ^ (8 * k + 7) ≤ n)
    (hhi : n < 2 ^ (8 * k + 7)) :
    value (significant k n) = n := by
  induction k generalizing n with
  | zero =>
    have hlo' : -128 ≤ n := by simpa using hlo
    exact signedByte_byteOf hlo' (by omega)
  | succ k ih =>
    have hpow : (2 : Int) ^ (8 * (k + 1) + 7) = 256 * 2 ^ (8 * k + 7) := by
      rw [show 8 * (k + 1) + 7 = 8 + (8 * k + 7) by omega, pow_add]
      norm_num
    unfold significant
    split_ifs with h
    · have hrest := ih (n / 256) (by omega) (by omega)
      rw [value_cons _ (significant_ne_nil k _), toNat_byteOf]
      omega
    · exact signedByte_byteOf (by omega) (by omega)

end NtfsPlus.SignedBytes
