import Mathlib.Tactic

/-!
# Code points in UTF-8 and UTF-16

A text is a list of code points between 1 and 0x10ffff, surrogates included:
an unpaired surrogate is a code point of its own and takes three bytes, as the
other code points of its size do.  The two encodings are the concatenation of
the encodings of the points (`utf8`, `utf16`).

A high surrogate followed by a low one would be read back from UTF-16 as one
code point, so texts keep these two apart (`Text`).  Every sequence of nonzero
units is the encoding of exactly one text (`points16`).
-/

namespace NtfsPlus.CodePoints

section Encodings

def IsHigh (cp : Nat) : Prop :=
  0xd800 ≤ cp ∧ cp < 0xdc00

def IsLow (cp : Nat) : Prop :=
  0xdc00 ≤ cp ∧ cp < 0xe000

instance (cp : Nat) : Decidable (IsHigh cp) :=
  inferInstanceAs (Decidable (_ ∧ _))

instance (cp : Nat) : Decidable (IsLow cp) :=
  inferInstanceAs (Decidable (_ ∧ _))

/-- The bytes of one code point. -/
def utf8Of (cp : Nat) : List UInt8 :=
  if cp < 0x80 then
    [UInt8.ofNat cp]
  else if cp < 0x800 then
    [UInt8.ofNat (0xc0 + cp / 64), UInt8.ofNat (0x80 + cp % 64)]
  else if cp < 0x10000 then
    [UInt8.ofNat (0xe0 + cp / 4096), UInt8.ofNat (0x80 + cp / 64 % 64),
      UInt8.ofNat (0x80 + cp % 64)]
  else
    [UInt8.ofNat (0xf0 + cp / 262144), UInt8.ofNat (0x80 + cp / 4096 % 64),
      UInt8.ofNat (0x80 + cp / 64 % 64), UInt8.ofNat (0x80 + cp % 64)]

/-- The code point of a surrogate pair. -/
def pairPoint (high low : Nat) : Nat :=
  0x10000 + (high - 0xd800) * 1024 + (low - 0xdc00)

/-- The units of one code point. -/
def utf16Of (cp : Nat) : List UInt16 :=
  if cp < 0x10000 then
    [UInt16.ofNat cp]
  else
    [UInt16.ofNat (0xd800 + (cp - 0x10000) / 1024), UInt16.ofNat (0xdc00 + (cp - 0x10000) % 1024)]

def utf8 (cps : List Nat) : List UInt8 :=
  cps.flatMap utf8Of

def utf16 (cps : List Nat) : List UInt16 :=
  cps.flatMap utf16Of

/-- Two code points that UTF-16 keeps apart. -/
def Apart (a b : Nat) : Prop :=
  ¬(IsHigh a ∧ IsLow b)

/-- A text: code points that do not form a pair. -/
structure Text (cps : List Nat) : Prop where
  valid : ∀ cp ∈ cps, 0 < cp ∧ cp < 0x110000
  apart : cps.IsChain Apart

@[simp] theorem utf8_nil : utf8 [] = [] := rfl

variable (cp : Nat) (cps : List Nat)

@[simp] theorem utf8_cons : utf8 (cp :: cps) = utf8Of cp ++ utf8 cps := by
  simp [utf8]

@[simp] theorem utf16_nil : utf16 [] = [] := rfl

@[simp] theorem utf16_cons : utf16 (cp :: cps) = utf16Of cp ++ utf16 cps := by
  simp [utf16]

theorem utf8Of_ne_nil : utf8Of cp ≠ [] := by
  unfold utf8Of
  split_ifs <;> simp

theorem Text.tail
    {cp : Nat} {cps : List Nat}
    (h : Text (cp :: cps)) :
    Text cps :=
  ⟨fun c hc => h.valid c (by simp [hc]), h.apart.tail⟩

end Encodings

section Reading

/-- The code points of a sequence of units. -/
def points16 : List UInt16 → List Nat
  | [] => []
  | [c] => [c.toNat]
  | c :: d :: rest =>
    if IsHigh c.toNat ∧ IsLow d.toNat then
      pairPoint c.toNat d.toNat :: points16 rest
    else
      c.toNat :: points16 (d :: rest)

/-- A surrogate pair stands for a code point of the upper planes. -/
theorem pairPoint_bounds
    {high low : Nat}
    (hh : IsHigh high)
    (hl : IsLow low) :
    0x10000 ≤ pairPoint high low ∧ pairPoint high low < 0x110000 := by
  unfold IsHigh IsLow at *
  unfold pairPoint
  omega

/-- A pair is the encoding of its code point. -/
theorem utf16Of_pairPoint
    {c d : UInt16}
    (hh : IsHigh c.toNat)
    (hl : IsLow d.toNat) :
    utf16Of (pairPoint c.toNat d.toNat) = [c, d] := by
  have hbounds := pairPoint_bounds hh hl
  unfold IsHigh IsLow at *
  have hhigh : 0xd800 + (pairPoint c.toNat d.toNat - 0x10000) / 1024 = c.toNat := by
    unfold pairPoint
    omega
  have hlow : 0xdc00 + (pairPoint c.toNat d.toNat - 0x10000) % 1024 = d.toNat := by
    unfold pairPoint
    omega
  rw [utf16Of, if_neg (by omega), hhigh, hlow]
  simp

theorem utf16Of_unit
    (c : UInt16) :
    utf16Of c.toNat = [c] := by
  have := c.toNat_lt
  rw [utf16Of, if_pos (by omega)]
  simp

/-- Code units are the encoding of the code points they are taken apart into. -/
theorem utf16_points16
    (units : List UInt16) :
    utf16 (points16 units) = units := by
  induction units using points16.induct with
  | case1 => rfl
  | case2 c => simp [points16, utf16Of_unit]
  | case3 c d rest hpair ih =>
    rw [points16, if_pos hpair, utf16_cons, utf16Of_pairPoint hpair.1 hpair.2, ih]
    rfl
  | case4 c d rest hpair ih =>
    rw [points16, if_neg hpair, utf16_cons, utf16Of_unit, ih]
    rfl

/-- The first code point is the first unit, or the pair that starts with it. -/
theorem points16_head
    (d : UInt16)
    (rest : List UInt16) :
    ∃ cp cps, points16 (d :: rest) = cp :: cps ∧ (cp = d.toNat ∨ 0x10000 ≤ cp) := by
  cases rest with
  | nil => exact ⟨_, _, rfl, Or.inl rfl⟩
  | cons e rest =>
    rw [points16]
    split_ifs with hpair
    · exact ⟨_, _, rfl, Or.inr (pairPoint_bounds hpair.1 hpair.2).1⟩
    · exact ⟨_, _, rfl, Or.inl rfl⟩

/-- Code units without a zero make a text. -/
theorem text_points16
    (units : List UInt16)
    (hnz : ∀ c ∈ units, c ≠ 0) :
    Text (points16 units) := by
  have hunit : ∀ c : UInt16, c ≠ 0 → 0 < c.toNat ∧ c.toNat < 0x110000 := by
    intro c hc
    have hlt := c.toNat_lt
    have hpos : c.toNat ≠ 0 := fun h => hc (UInt16.toNat_inj.mp h)
    omega
  induction units using points16.induct with
  | case1 => exact ⟨by simp [points16], by simp [points16]⟩
  | case2 c =>
    refine ⟨?_, by simp [points16]⟩
    intro cp hcp
    rw [points16, List.mem_singleton] at hcp
    exact hcp ▸ hunit c (hnz c (by simp))
  | case3 c d rest hpair ih =>
    have hrest := ih (fun e he => hnz e (by simp [he]))
    have hbounds := pairPoint_bounds hpair.1 hpair.2
    rw [points16, if_pos hpair]
    constructor
    · intro cp hcp
      rcases List.mem_cons.mp hcp with hcp | hcp
      · rw [hcp]
        exact ⟨by omega, hbounds.2⟩
      · exact hrest.valid cp hcp
    · refine List.isChain_cons.mpr ⟨?_, hrest.apart⟩
      rintro b - ⟨hhigh, -⟩
      unfold IsHigh at hhigh
      omega
  | case4 c d rest hpair ih =>
    have hrest := ih (fun e he => hnz e (by simp [he]))
    rw [points16, if_neg hpair]
    constructor
    · intro cp hcp
      rcases List.mem_cons.mp hcp with rfl | hcp
      · exact hunit c (hnz c (by simp))
      · exact hrest.valid cp hcp
    · refine List.isChain_cons.mpr ⟨?_, hrest.apart⟩
      obtain ⟨cp, cps, heq, hcp⟩ := points16_head d rest
      rw [heq]
      rintro b hb ⟨hhigh, hlow⟩
      obtain rfl : cp = b := by simpa using hb
      rcases hcp with rfl | hlarge
      · exact hpair ⟨hhigh, hlow⟩
      · unfold IsLow at hlow
        omega

end Reading

end NtfsPlus.CodePoints
