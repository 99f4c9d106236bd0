import NtfsPlus.Lib.CodePoints
import NtfsPlus.Libntfs.RunlistBasic

/-!
# The built-in converters between UTF-16 and UTF-8

`ntfs_utf16_to_utf8` and `ntfs_utf8_to_utf16` of `libntfs/unistr.c`, as compiled
by default: with `ALLOW_BROKEN_UNICODE`, where an unpaired surrogate is written
as a sequence of three bytes, and without the normalisation of macOS.

Both converters are proved against the code points of the text: the writer
leaves `utf8` of the code points it meets (`utf16ToUtf8Loop_utf16`), the reader
accepts exactly the `utf8` of code points and leaves their `utf16`
(`utf8ToUnicode_utf8Of`, `utf8ToUnicode_inv`).  What remains are the limits on
the length, where both stop with `ENAMETOOLONG`.
-/

namespace NtfsPlus.Libntfs

open CodePoints

section Utf16ToUtf8

/-- `PATH_MAX`. -/
def pathMax : Nat := 4096

/--
What a unit outside of a pair adds to the size, and whether it may start a
surrogate pair.
-/
def unitSize (c : Nat) : Nat × Bool :=
  if c < 0x80 then
    (1, false)
  else if c < 0x800 then
    (2, false)
  else if c < 0xd800 then
    (3, false)
  else if c < 0xdc00 then
    (0, true)
  else
    (3, false)

/-- The loop of `utf16_to_utf8_size`: `count` and `surrog` at its end. -/
def utf16ToUtf8SizeLoop (outsLen : Int) : List UInt16 → Bool → Int → Int × Bool
  | [], surrog, count => (count, surrog)
  | c :: rest, surrog, count =>
    if c = 0 ∨ outsLen < count then
      (count, surrog)
    else if surrog then
      if 0xdc00 ≤ c.toNat ∧ c.toNat < 0xe000 then
        utf16ToUtf8SizeLoop outsLen rest false (count + 4)
      else if outsLen < count + 3 then
        -- `--i; continue` leaves the loop by its condition
        (count + 3, false)
      else
        utf16ToUtf8SizeLoop outsLen rest (unitSize c.toNat).2 (count + 3 + (unitSize c.toNat).1)
    else
      utf16ToUtf8SizeLoop outsLen rest (unitSize c.toNat).2 (count + (unitSize c.toNat).1)

/-- `utf16_to_utf8_size`. -/
def utf16ToUtf8Size (ins : List UInt16) (outsLen : Int) : Except Errno Int :=
  let (count, surrog) := utf16ToUtf8SizeLoop outsLen ins false 0
  -- ending with a single surrogate
  let count := if surrog ∧ count ≤ outsLen then count + 3 else count
  if outsLen < count then
    .error .enametoolong
  else
    .ok count

/-- A unit as a sequence of three bytes. -/
def threeBytes (c : Nat) : List UInt8 :=
  [UInt8.ofNat (0xe0 ||| (c >>> 12)), UInt8.ofNat (0x80 ||| ((c >>> 6) &&& 0x3f)),
    UInt8.ofNat (0x80 ||| (c &&& 0x3f))]

/-- A surrogate pair as a sequence of four bytes. -/
def surrogateBytes (halfpair c : Nat) : List UInt8 :=
  [UInt8.ofNat (0xf0 + (((halfpair + 64) >>> 8) &&& 7)),
    UInt8.ofNat (0x80 + (((halfpair + 64) >>> 2) &&& 63)),
    UInt8.ofNat (0x80 + ((c >>> 6) &&& 15) + ((halfpair &&& 3) <<< 4)),
    UInt8.ofNat (0x80 + (c &&& 63))]

/-- What is written for a unit outside of a pair, and `halfpair` after it. -/
def unitBytes (c : Nat) : List UInt8 × Nat :=
  if c < 0x80 then
    ([UInt8.ofNat c], 0)
  else if c < 0x800 then
    ([UInt8.ofNat (0xc0 ||| ((c >>> 6) &&& 0x3f)), UInt8.ofNat (0x80 ||| (c &&& 0x3f))], 0)
  else if c < 0xd800 then
    (threeBytes c, 0)
  else if c < 0xdc00 then
    ([], c)
  else
    (threeBytes c, 0)

/-- What is written after the loop. -/
def halfpairBytes (halfpair : Nat) : List UInt8 :=
  if halfpair ≠ 0 then threeBytes halfpair else []

/-- The loop of `ntfs_utf16_to_utf8` and what follows it. -/
def utf16ToUtf8Loop : List UInt16 → Nat → List UInt8
  | [], halfpair => halfpairBytes halfpair
  | c :: rest, halfpair =>
    if c = 0 then
      halfpairBytes halfpair
    else if halfpair ≠ 0 then
      if 0xdc00 ≤ c.toNat ∧ c.toNat < 0xe000 then
        surrogateBytes halfpair c.toNat ++ utf16ToUtf8Loop rest 0
      else
        -- `--i; continue` looks at the unit again, without half pair
        threeBytes halfpair ++ ((unitBytes c.toNat).1 ++ utf16ToUtf8Loop rest (unitBytes c.toNat).2)
    else
      (unitBytes c.toNat).1 ++ utf16ToUtf8Loop rest (unitBytes c.toNat).2

/--
`ntfs_utf16_to_utf8`: the bytes before the terminating null.  The caller gives
the length of its output buffer, or none to have one allocated.
-/
def utf16ToUtf8 (ins : List UInt16) (outs : Option Int) : Except Errno (List UInt8) :=
  match utf16ToUtf8Size ins (outs.getD pathMax - 1) with
  | .error err => .error err
  | .ok _ => .ok (utf16ToUtf8Loop ins 0)

end Utf16ToUtf8

section Utf8ToUtf16

/-- `s[i]` of a string; behind its end lies the terminating null. -/
def charAt (s : List UInt8) (i : Nat) : Nat :=
  (s.getD i 0).toNat

/--
The loop of `utf8_to_utf16_size`.  Every pass reads at least one byte, so the
number of bytes bounds the passes.
-/
def utf8ToUtf16SizeLoop : Nat → List UInt8 → Nat → Except Errno Nat
  | 0, _, count => .ok count
  | fuel + 1, s, count =>
    if charAt s 0 = 0 then
      .ok count
    else if pathMax ≤ count + 1 then
      .error .enametoolong
    else if charAt s 0 < 0xc0 then
      utf8ToUtf16SizeLoop fuel (s.drop 1) (count + 1)
    else if 0xf5 ≤ charAt s 0 then
      .error .eilseq
    else if charAt s 1 = 0 ∨ charAt s 2 = 0 then
      .ok (count + 1)
    else if charAt s 0 < 0xe0 then
      utf8ToUtf16SizeLoop fuel (s.drop 2) (count + 1)
    else if charAt s 3 = 0 then
      .ok (count + 1)
    else if charAt s 0 < 0xf0 then
      utf8ToUtf16SizeLoop fuel (s.drop 3) (count + 1)
    else if pathMax ≤ count + 2 then
      .error .enametoolong
    else
      utf8ToUtf16SizeLoop fuel (s.drop 4) (count + 2)

/-- `utf8_to_utf16_size`. -/
def utf8ToUtf16Size (s : List UInt8) : Except Errno Nat :=
  utf8ToUtf16SizeLoop s.length s 0

/-- Whether `s[i]` continues a sequence. -/
def isTail (s : List UInt8) (i : Nat) : Prop :=
  charAt s i &&& 0xc0 = 0x80

instance (s : List UInt8) (i : Nat) : Decidable (isTail s i) :=
  inferInstanceAs (Decidable (_ = _))

/-- The value of a sequence of three bytes. -/
def threeValue (s : List UInt8) : Nat :=
  (charAt s 0 &&& 0x0f) <<< 12 ||| (charAt s 1 &&& 0x3f) <<< 6 ||| (charAt s 2 &&& 0x3f)

/-- The value of a sequence of four bytes. -/
def fourValue (s : List UInt8) : Nat :=
  (charAt s 0 &&& 0x07) <<< 18 ||| (charAt s 1 &&& 0x3f) <<< 12 |||
    (charAt s 2 &&& 0x3f) <<< 6 ||| (charAt s 3 &&& 0x3f)

/-- `utf8_to_unicode`: the value and the number of bytes used. -/
def utf8ToUnicode (s : List UInt8) : Except Errno (Nat × Nat) :=
  if charAt s 0 = 0 then
    .ok (0, 0)
  else if charAt s 0 < 0x80 then
    .ok (charAt s 0, 1)
  else if charAt s 0 < 0xc2 then
    .error .eilseq
  else if charAt s 0 < 0xe0 then
    if isTail s 1 then
      .ok ((charAt s 0 &&& 0x1f) <<< 6 ||| (charAt s 1 &&& 0x3f), 2)
    else
      .error .eilseq
  else if charAt s 0 < 0xf0 then
    if isTail s 1 ∧ isTail s 2 ∧ ((0x800 ≤ threeValue s ∧ threeValue s ≤ 0xd7ff) ∨
          (0xd800 ≤ threeValue s ∧ threeValue s ≤ 0xdfff) ∨
          (0xe000 ≤ threeValue s ∧ threeValue s ≤ 0xffff)) then
      .ok (threeValue s, 3)
    else
      .error .eilseq
  else if charAt s 0 < 0xf5 then
    if isTail s 1 ∧ isTail s 2 ∧ isTail s 3 ∧ (fourValue s ≤ 0x10ffff ∧ 0x10000 ≤ fourValue s) then
      .ok (fourValue s, 4)
    else
      .error .eilseq
  else
    .error .eilseq

/-- The units written for a value. -/
def unicodeUnits (wc : Nat) : List UInt16 :=
  if wc < 0x10000 then
    [UInt16.ofNat wc]
  else
    [UInt16.ofNat (((wc - 0x10000) >>> 10) + 0xd800),
      UInt16.ofNat (((wc - 0x10000) &&& 0x3ff) + 0xdc00)]

/-- The loop of `ntfs_utf8_to_utf16`, with the bytes that bound its passes. -/
def utf8ToUtf16Loop : Nat → List UInt8 → Except Errno (List UInt16)
  | 0, _ => .ok []
  | fuel + 1, t =>
    match utf8ToUnicode t with
    | .error err => .error err
    | .ok (wc, m) =>
      if m = 0 then
        .ok []
      else
        match utf8ToUtf16Loop fuel (t.drop m) with
        | .error err => .error err
        | .ok rest => .ok (unicodeUnits wc ++ rest)

/-- `ntfs_utf8_to_utf16`: the units before the terminating null. -/
def utf8ToUtf16 (ins : List UInt8) : Except Errno (List UInt16) :=
  match utf8ToUtf16Size ins with
  | .error err => .error err
  | .ok _ => utf8ToUtf16Loop ins.length ins

end Utf8ToUtf16

section Bits

theorem mul_or_eq_add
    (i a : Nat)
    {b : Nat}
    (h : b < 2 ^ i) :
    2 ^ i * a ||| b = 2 ^ i * a + b :=
  (Nat.two_pow_add_eq_or_of_lt h a).symm

theorem and_low
    (n a : Nat) :
    a &&& (2 ^ n - 1) = a % 2 ^ n :=
  Nat.and_two_pow_sub_one_eq_mod a n

theorem and_tailMask
    (b : UInt8) :
    b.toNat &&& 0xc0 = 0x80 ↔ 0x80 ≤ b.toNat ∧ b.toNat < 0xc0 := by
  have h : ∀ n : Fin 256, n.val &&& 0xc0 = 0x80 ↔ 0x80 ≤ n.val ∧ n.val < 0xc0 := by decide +kernel
  exact h ⟨b.toNat, b.toNat_lt⟩

theorem threeBytes_eq
    {c : Nat}
    (hlo : 0x800 ≤ c)
    (hhi : c < 0x10000) :
    threeBytes c = utf8Of c := by
  have hlead := mul_or_eq_add 5 7 (show c / 4096 < 2 ^ 5 by omega)
  have hmid := mul_or_eq_add 6 2 (show c / 64 % 64 < 2 ^ 6 by omega)
  have hlast := mul_or_eq_add 6 2 (show c % 64 < 2 ^ 6 by omega)
  have hmask := and_low 6
  norm_num at hlead hmid hlast hmask
  rw [utf8Of, if_neg (by omega), if_neg (by omega), if_pos hhi]
  simp only [threeBytes, Nat.shiftRight_eq_div_pow, hmask]
  norm_num [hlead, hmid, hlast]

theorem twoBytes_eq
    {c : Nat}
    (hlo : 0x80 ≤ c)
    (hhi : c < 0x800) :
    [UInt8.ofNat (0xc0 ||| ((c >>> 6) &&& 0x3f)), UInt8.ofNat (0x80 ||| (c &&& 0x3f))] =
      utf8Of c := by
  have hlead := mul_or_eq_add 6 3 (show c / 64 % 64 < 2 ^ 6 by omega)
  have hlast := mul_or_eq_add 6 2 (show c % 64 < 2 ^ 6 by omega)
  have hmask := and_low 6
  have hsmall : c / 64 % 64 = c / 64 := by omega
  norm_num at hlead hlast hmask
  rw [utf8Of, if_neg (by omega), if_pos hhi, hmask, hmask, Nat.shiftRight_eq_div_pow]
  rw [hlead, hlast, hsmall]

theorem surrogateBytes_eq
    {high low : Nat}
    (hh : IsHigh high)
    (hl : IsLow low) :
    surrogateBytes high low = utf8Of (pairPoint high low) := by
  have hbounds := pairPoint_bounds hh hl
  have h7 := and_low 3
  have h63 := and_low 6
  have h15 := and_low 4
  have h3 := and_low 2
  norm_num at h7 h63 h15 h3
  rw [utf8Of, if_neg (by omega), if_neg (by omega), if_neg (by omega)]
  simp only [surrogateBytes, Nat.shiftRight_eq_div_pow, Nat.shiftLeft_eq, h7, h63, h15, h3]
  unfold IsHigh IsLow at *
  unfold pairPoint
  have e1 : 0xf0 + (high + 64) / 2 ^ 8 % 8 =
      0xf0 + (0x10000 + (high - 0xd800) * 1024 + (low - 0xdc00)) / 262144 := by omega
  have e2 : 0x80 + (high + 64) / 2 ^ 2 % 64 =
      0x80 + (0x10000 + (high - 0xd800) * 1024 + (low - 0xdc00)) / 4096 % 64 := by omega
  have e3 : 0x80 + low / 2 ^ 6 % 16 + high % 4 * 2 ^ 4 =
      0x80 + (0x10000 + (high - 0xd800) * 1024 + (low - 0xdc00)) / 64 % 64 := by omega
  have e4 : 0x80 + low % 64 =
      0x80 + (0x10000 + (high - 0xd800) * 1024 + (low - 0xdc00)) % 64 := by omega
  rw [e1, e2, e3, e4]

theorem unicodeUnits_eq
    (wc : Nat) :
    unicodeUnits wc = utf16Of wc := by
  have hmask := and_low 10
  norm_num at hmask
  unfold unicodeUnits utf16Of
  split_ifs with hsmall
  · rfl
  · rw [hmask, Nat.shiftRight_eq_div_pow, Nat.add_comm _ 0xd800, Nat.add_comm _ 0xdc00]

end Bits

section Writing

variable {c half : Nat}

theorem unitBytes_high
    (h : IsHigh c) :
    unitBytes c = ([], c) := by
  unfold IsHigh at h
  rw [unitBytes, if_neg (by omega), if_neg (by omega), if_neg (by omega), if_pos h.2]

theorem unitBytes_other
    (h : ¬IsHigh c)
    (hlt : c < 0x10000) :
    unitBytes c = (utf8Of c, 0) := by
  unfold IsHigh at h
  unfold unitBytes
  split_ifs with h1 h2 h3 h4
  · rw [utf8Of, if_pos h1]
  · rw [twoBytes_eq (by omega) h2]
  · rw [threeBytes_eq (by omega) hlt]
  · omega
  · rw [threeBytes_eq (by omega) hlt]

theorem halfpairBytes_high
    (h : IsHigh c) :
    halfpairBytes c = utf8Of c := by
  unfold IsHigh at h
  rw [halfpairBytes, if_pos (by omega), threeBytes_eq (by omega) (by omega)]

/-- A unit outside of a pair, with what the rest of the loop makes of it. -/
theorem unitBytes_append
    {cp : Nat} {units : List UInt16} {rest : List UInt8}
    (hlt : cp < 0x10000)
    (hzero : utf16ToUtf8Loop units 0 = rest)
    (hhalf : IsHigh cp → utf16ToUtf8Loop units cp = halfpairBytes cp ++ rest) :
    (unitBytes cp).1 ++ utf16ToUtf8Loop units (unitBytes cp).2 = utf8Of cp ++ rest := by
  by_cases hhigh : IsHigh cp
  · rw [unitBytes_high hhigh, List.nil_append, hhalf hhigh, halfpairBytes_high hhigh]
  · rw [unitBytes_other hhigh hlt, hzero]

theorem utf16ToUtf8Loop_unit
    {c : UInt16} {units : List UInt16}
    (hc : c ≠ 0)
    (hlow : half ≠ 0 → ¬IsLow c.toNat) :
    utf16ToUtf8Loop (c :: units) half = halfpairBytes half ++
        ((unitBytes c.toNat).1 ++ utf16ToUtf8Loop units (unitBytes c.toNat).2) := by
  rw [utf16ToUtf8Loop, if_neg hc]
  by_cases hhalf : half = 0
  · rw [if_neg (by simp [hhalf]), halfpairBytes, if_neg (by simp [hhalf]), List.nil_append]
  · have hnot : ¬(0xdc00 ≤ c.toNat ∧ c.toNat < 0xe000) := hlow hhalf
    rw [if_pos hhalf, if_neg hnot, halfpairBytes, if_pos hhalf]

theorem utf16Of_large
    {cp : Nat}
    (hlo : 0x10000 ≤ cp)
    (hhi : cp < 0x110000) :
    ∃ c d : UInt16, utf16Of cp = [c, d] ∧ IsHigh c.toNat ∧ IsLow d.toNat ∧
      pairPoint c.toNat d.toNat = cp := by
  have hc : (UInt16.ofNat (0xd800 + (cp - 0x10000) / 1024)).toNat =
      0xd800 + (cp - 0x10000) / 1024 := by
    norm_num
    omega
  have hd : (UInt16.ofNat (0xdc00 + (cp - 0x10000) % 1024)).toNat =
      0xdc00 + (cp - 0x10000) % 1024 := by
    norm_num
    omega
  refine ⟨UInt16.ofNat (0xd800 + (cp - 0x10000) / 1024),
    UInt16.ofNat (0xdc00 + (cp - 0x10000) % 1024), ?_, ?_, ?_, ?_⟩
  · rw [utf16Of, if_neg (by omega)]
  · rw [IsHigh]
    omega
  · rw [IsLow]
    omega
  · unfold pairPoint
    omega

/-- The loop writes the bytes of the code points, after a half pair if any. -/
theorem utf16ToUtf8Loop_utf16
    {cps : List Nat}
    (h : Text cps)
    (hhalf : half = 0 ∨ (IsHigh half ∧ (half :: cps).IsChain Apart)) :
    utf16ToUtf8Loop (utf16 cps) half = halfpairBytes half ++ utf8 cps := by
  induction cps generalizing half with
  | nil => simp [utf16ToUtf8Loop]
  | cons cp cps ih =>
    have hzero := ih h.tail (Or.inl rfl)
    obtain ⟨hpos, hlt⟩ := h.valid cp (by simp)
    rw [show halfpairBytes 0 = [] from rfl, List.nil_append] at hzero
    by_cases hlarge : 0x10000 ≤ cp
    · obtain ⟨c, d, hunits, hhigh, hlow, hpair⟩ := utf16Of_large hlarge hlt
      have hc : c ≠ 0 := by
        rintro rfl
        simp [IsHigh] at hhigh
      have hd : d ≠ 0 := by
        rintro rfl
        simp [IsLow] at hlow
      have hnonzero : c.toNat ≠ 0 := by
        unfold IsHigh at hhigh
        omega
      rw [utf16_cons, hunits, List.cons_append, List.cons_append, List.nil_append,
        utf16ToUtf8Loop_unit hc (fun _ hl => by unfold IsHigh IsLow at *; omega),
        unitBytes_high hhigh, List.nil_append]
      have hlow' : 0xdc00 ≤ d.toNat ∧ d.toNat < 0xe000 := hlow
      rw [utf16ToUtf8Loop, if_neg hd, if_pos hnonzero, if_pos hlow',
        surrogateBytes_eq hhigh hlow, hpair, hzero, utf8_cons]
    · have hunit : (UInt16.ofNat cp).toNat = cp := by
        norm_num
        omega
      have hc : UInt16.ofNat cp ≠ 0 := by
        intro hc
        rw [hc] at hunit
        simp at hunit
        omega
      rw [utf16_cons, utf16Of, if_pos (by omega), List.singleton_append,
        utf16ToUtf8Loop_unit hc, hunit, utf8_cons]
      · rw [unitBytes_append (by omega) hzero]
        exact fun hhigh => ih h.tail (Or.inr ⟨hhigh, h.apart⟩)
      · intro hne hl
        rw [hunit] at hl
        rcases hhalf with hhalf | ⟨hhigh, hchain⟩
        · exact hne hhalf
        · exact (List.isChain_cons_cons.mp hchain).1 ⟨hhigh, hl⟩

theorem unitSize_eq
    (c : Nat) :
    (unitSize c).1 = (unitBytes c).1.length ∧ ((unitSize c).2 = true ↔ (unitBytes c).2 ≠ 0) := by
  unfold unitSize unitBytes threeBytes
  split_ifs <;> simp
  omega

/-- The size at the end of the function. -/
def sizeTotal (outsLen : Int) (r : Int × Bool) : Int :=
  if r.2 ∧ r.1 ≤ outsLen then r.1 + 3 else r.1

/-- Where the loop stops, the size is complete or already too large. -/
theorem sizeTotal_stop
    (outsLen count : Int)
    {surrog : Bool} {n : Int}
    (hsame : surrog = true ↔ half ≠ 0)
    (hn : 0 ≤ n)
    (hstop : outsLen < count ∨ n = (halfpairBytes half).length) :
    (count + n ≤ outsLen → sizeTotal outsLen (count, surrog) = count + n) ∧
      (outsLen < count + n → outsLen < sizeTotal outsLen (count, surrog)) := by
  have hlen : ((halfpairBytes half).length : Int) = if surrog then 3 else 0 := by
    unfold halfpairBytes threeBytes
    by_cases hhalf : half = 0
    · have hfalse : surrog = false := by simpa [hhalf] using hsame
      simp [hhalf, hfalse]
    · simp [hhalf, hsame.mpr hhalf]
  rw [hlen] at hstop
  unfold sizeTotal
  cases surrog with
  | false =>
    simp at hstop ⊢
    omega
  | true =>
    simp at hstop ⊢
    split_ifs <;> omega

/-- The size is that of the bytes the loop writes, or it is known to be too large. -/
theorem utf16ToUtf8SizeLoop_spec
    (outsLen : Int)
    (units : List UInt16)
    {surrog : Bool} {half : Nat}
    (count : Int)
    (hsame : surrog = true ↔ half ≠ 0) :
    (count + (utf16ToUtf8Loop units half).length ≤ outsLen →
      sizeTotal outsLen (utf16ToUtf8SizeLoop outsLen units surrog count) =
        count + (utf16ToUtf8Loop units half).length) ∧
    (outsLen < count + (utf16ToUtf8Loop units half).length →
      outsLen < sizeTotal outsLen (utf16ToUtf8SizeLoop outsLen units surrog count)) := by
  induction units generalizing surrog half count with
  | nil => exact sizeTotal_stop outsLen count hsame (by omega) (Or.inr rfl)
  | cons c rest ih =>
    obtain ⟨hsize, hflag⟩ := unitSize_eq c.toNat
    rw [utf16ToUtf8Loop, utf16ToUtf8SizeLoop]
    by_cases hend : c = 0 ∨ outsLen < count
    · rw [if_pos hend]
      refine sizeTotal_stop outsLen count hsame (by omega) ?_
      rcases hend with hend | hend
      · rw [if_pos hend]
        exact Or.inr rfl
      · exact Or.inl hend
    obtain ⟨hc, hfits⟩ := not_or.mp hend
    rw [if_neg hend, if_neg hc, hsize]
    by_cases hhalf : half = 0
    · have hfalse : surrog = false := by simpa [hhalf] using hsame
      rw [hfalse, if_neg (not_not.mpr hhalf)]
      have hrest := ih (count + (unitBytes c.toNat).1.length) hflag
      rw [List.length_append]
      push_cast
      rw [← add_assoc]
      exact hrest
    · rw [hsame.mpr hhalf, if_pos rfl, if_pos hhalf]
      by_cases hlow : 0xdc00 ≤ c.toNat ∧ c.toNat < 0xe000
      · rw [if_pos hlow, if_pos hlow]
        have hrest := @ih false 0 (count + 4) (by simp)
        rw [List.length_append]
        push_cast
        rw [← add_assoc]
        exact hrest
      · rw [if_neg hlow, if_neg hlow, List.length_append, List.length_append,
          show (threeBytes half).length = 3 from rfl]
        push_cast
        rw [← add_assoc, ← add_assoc]
        split_ifs
        · unfold sizeTotal
          omega
        · exact ih (count + 3 + (unitBytes c.toNat).1.length) hflag

/-- The size is that of the bytes the loop writes, if that is not too large. -/
theorem utf16ToUtf8Size_eq
    (units : List UInt16)
    (outsLen : Int) :
    utf16ToUtf8Size units outsLen =
      if ((utf16ToUtf8Loop units 0).length : Int) ≤ outsLen then
        .ok ((utf16ToUtf8Loop units 0).length : Int)
      else
        .error .enametoolong := by
  obtain ⟨hfits, hover⟩ := @utf16ToUtf8SizeLoop_spec outsLen units false 0 0 (by simp)
  rw [zero_add] at hfits hover
  unfold sizeTotal at hfits hover
  unfold utf16ToUtf8Size
  dsimp only
  by_cases hle : ((utf16ToUtf8Loop units 0).length : Int) ≤ outsLen
  · rw [hfits hle, if_neg (by omega), if_pos hle]
  · rw [if_pos (hover (by omega)), if_neg hle]

/-- The converter writes what its loop writes, if that fits into the buffer. -/
theorem utf16ToUtf8_eq
    (units : List UInt16)
    (outs : Option Int) :
    utf16ToUtf8 units outs =
      if ((utf16ToUtf8Loop units 0).length : Int) ≤ outs.getD pathMax - 1 then
        .ok (utf16ToUtf8Loop units 0)
      else
        .error .enametoolong := by
  rw [utf16ToUtf8, utf16ToUtf8Size_eq]
  by_cases hle : ((utf16ToUtf8Loop units 0).length : Int) ≤ outs.getD pathMax - 1
  · rw [if_pos hle, if_pos hle]
  · rw [if_neg hle, if_neg hle]

end Writing

section ReadingBytes

variable {a b c d : UInt8} {s : List UInt8}

@[simp] theorem charAt_zero
    (a : UInt8)
    (s : List UInt8) :
    charAt (a :: s) 0 = a.toNat := by
  simp [charAt]

@[simp] theorem charAt_succ
    (a : UInt8)
    (s : List UInt8)
    (i : Nat) :
    charAt (a :: s) (i + 1) = charAt s i := by
  simp [charAt]

@[simp] theorem charAt_nil
    (i : Nat) :
    charAt [] i = 0 := rfl

theorem isTail_iff
    (s : List UInt8)
    (i : Nat) :
    isTail s i ↔ 0x80 ≤ charAt s i ∧ charAt s i < 0xc0 :=
  and_tailMask _

theorem shiftLeft_or
    (i a : Nat)
    {b : Nat}
    (h : b < 2 ^ i) :
    a <<< i ||| b = a * 2 ^ i + b := by
  rw [Nat.shiftLeft_eq, Nat.mul_comm, mul_or_eq_add i a h]

theorem twoValue_eq :
    (a.toNat &&& 0x1f) <<< 6 ||| (b.toNat &&& 0x3f) = a.toNat % 32 * 64 + b.toNat % 64 := by
  have h5 := and_low 5
  have h6 := and_low 6
  norm_num at h5 h6
  rw [h5, h6, shiftLeft_or 6 _ (by omega)]
  norm_num

theorem threeValue_eq :
    threeValue (a :: b :: c :: s) = a.toNat % 16 * 4096 + b.toNat % 64 * 64 + c.toNat % 64 := by
  have h4 := and_low 4
  have h6 := and_low 6
  norm_num at h4 h6
  simp only [threeValue, charAt_zero, charAt_succ, h4, h6]
  rw [Nat.or_assoc, shiftLeft_or 6 _ (by omega), shiftLeft_or 12 _ (by omega)]
  omega

theorem fourValue_eq :
    fourValue (a :: b :: c :: d :: s) =
      a.toNat % 8 * 262144 + b.toNat % 64 * 4096 + c.toNat % 64 * 64 + d.toNat % 64 := by
  have h3 := and_low 3
  have h6 := and_low 6
  norm_num at h3 h6
  simp only [fourValue, charAt_zero, charAt_succ, h3, h6]
  rw [Nat.or_assoc, Nat.or_assoc, shiftLeft_or 6 _ (by omega), shiftLeft_or 12 _ (by omega),
    shiftLeft_or 18 _ (by omega)]
  omega

theorem exists_of_isTail
    (h : isTail s 0) :
    ∃ b rest, s = b :: rest ∧ 0x80 ≤ b.toNat ∧ b.toNat < 0xc0 := by
  rw [isTail_iff] at h
  cases s with
  | nil => simp at h
  | cons b rest => exact ⟨b, rest, rfl, h⟩

/-- The bytes of a code point, by their number. -/
theorem utf8Of_cases
    {cp : Nat}
    (hlt : cp < 0x110000) :
    (∃ a, utf8Of cp = [a] ∧ cp < 0x80 ∧ a.toNat = cp) ∨
    (∃ a b, utf8Of cp = [a, b] ∧ (0x80 ≤ cp ∧ cp < 0x800) ∧ a.toNat = 0xc0 + cp / 64 ∧
      b.toNat = 0x80 + cp % 64) ∨
    (∃ a b c, utf8Of cp = [a, b, c] ∧ (0x800 ≤ cp ∧ cp < 0x10000) ∧ a.toNat = 0xe0 + cp / 4096 ∧
      b.toNat = 0x80 + cp / 64 % 64 ∧ c.toNat = 0x80 + cp % 64) ∨
    ∃ a b c d, utf8Of cp = [a, b, c, d] ∧ 0x10000 ≤ cp ∧ a.toNat = 0xf0 + cp / 262144 ∧
      b.toNat = 0x80 + cp / 4096 % 64 ∧ c.toNat = 0x80 + cp / 64 % 64 ∧
      d.toNat = 0x80 + cp % 64 := by
  have hbyte : ∀ n < 256, (UInt8.ofNat n).toNat = n := fun n h => UInt8.toNat_ofNat_of_lt' h
  unfold utf8Of
  split_ifs with h1 h2 h3
  · exact Or.inl ⟨_, rfl, h1, hbyte _ (by omega)⟩
  · exact Or.inr (Or.inl ⟨_, _, rfl, by omega, hbyte _ (by omega), hbyte _ (by omega)⟩)
  · exact Or.inr (Or.inr (Or.inl ⟨_, _, _, rfl, by omega, hbyte _ (by omega), hbyte _ (by omega),
      hbyte _ (by omega)⟩))
  · exact Or.inr (Or.inr (Or.inr ⟨_, _, _, _, rfl, by omega, hbyte _ (by omega),
      hbyte _ (by omega), hbyte _ (by omega), hbyte _ (by omega)⟩))

/-- The reader takes the bytes of a code point for that code point. -/
theorem utf8ToUnicode_utf8Of
    {cp : Nat}
    (hpos : 0 < cp)
    (hlt : cp < 0x110000)
    (rest : List UInt8) :
    utf8ToUnicode (utf8Of cp ++ rest) = .ok (cp, (utf8Of cp).length) := by
  rcases utf8Of_cases hlt with ⟨a, heq, hcp, ha⟩ | ⟨a, b, heq, hcp, ha, hb⟩ |
    ⟨a, b, c, heq, hcp, ha, hb, hc⟩ | ⟨a, b, c, d, heq, hcp, ha, hb, hc, hd⟩
  · rw [heq]
    simp only [List.cons_append, utf8ToUnicode, charAt_zero]
    rw [if_neg (by omega), if_pos (by omega), ha]
    rfl
  · have hvalue : a.toNat % 32 * 64 + b.toNat % 64 = cp := by omega
    rw [heq]
    simp only [List.cons_append, utf8ToUnicode, charAt_zero, isTail_iff, charAt_succ, twoValue_eq]
    rw [hvalue, if_neg (by omega), if_neg (by omega), if_neg (by omega),
      if_pos (by omega), if_pos (by omega)]
    rfl
  · have hvalue : a.toNat % 16 * 4096 + b.toNat % 64 * 64 + c.toNat % 64 = cp := by omega
    rw [heq]
    simp only [List.cons_append, utf8ToUnicode, charAt_zero, isTail_iff,
      charAt_succ, threeValue_eq, hvalue]
    rw [if_neg (by omega), if_neg (by omega), if_neg (by omega), if_neg (by omega),
      if_pos (by omega), if_pos (by omega)]
    rfl
  · have hvalue : a.toNat % 8 * 262144 + b.toNat % 64 * 4096 + c.toNat % 64 * 64 +
        d.toNat % 64 = cp := by omega
    rw [heq]
    simp only [List.cons_append, utf8ToUnicode, charAt_zero, isTail_iff,
      charAt_succ, fourValue_eq, hvalue]
    rw [if_neg (by omega), if_neg (by omega), if_neg (by omega), if_neg (by omega),
      if_neg (by omega), if_pos (by omega), if_pos (by omega)]
    rfl

/-- What the reader accepts are the bytes of the code point it returns. -/
theorem utf8ToUnicode_inv
    {wc m : Nat}
    (h : utf8ToUnicode s = .ok (wc, m))
    (hm : m ≠ 0) :
    0 < wc ∧ wc < 0x110000 ∧ m = (utf8Of wc).length ∧ s = utf8Of wc ++ s.drop m := by
  have hbyte : ∀ (x : UInt8) (n : Nat), n = x.toNat → UInt8.ofNat n = x := by
    simp
  cases s with
  | nil =>
    simp only [utf8ToUnicode, charAt_nil, if_true, Except.ok.injEq, Prod.mk.injEq] at h
    omega
  | cons a s =>
    unfold utf8ToUnicode at h
    simp only [charAt_zero] at h
    by_cases h0 : a.toNat = 0
    · rw [if_pos h0, Except.ok.injEq, Prod.mk.injEq] at h
      omega
    rw [if_neg h0] at h
    by_cases h1 : a.toNat < 0x80
    · rw [if_pos h1, Except.ok.injEq] at h
      obtain ⟨rfl, rfl⟩ := h
      refine ⟨by omega, by omega, ?_⟩
      rw [utf8Of, if_pos h1, hbyte a _ rfl]
      exact ⟨rfl, rfl⟩
    rw [if_neg h1] at h
    by_cases h2 : a.toNat < 0xc2
    · rw [if_pos h2] at h
      cases h
    rw [if_neg h2] at h
    by_cases h3 : a.toNat < 0xe0
    · rw [if_pos h3] at h
      by_cases htail : isTail (a :: s) 1
      · obtain ⟨b, s, rfl, hb⟩ := exists_of_isTail (s := s) htail
        simp only [charAt_succ, charAt_zero, twoValue_eq] at h
        rw [if_pos htail, Except.ok.injEq] at h
        obtain ⟨hwc, rfl⟩ := h
        refine ⟨by omega, by omega, ?_⟩
        rw [utf8Of, if_neg (by omega), if_pos (by omega), hbyte a _ (by omega),
          hbyte b _ (by omega)]
        exact ⟨rfl, rfl⟩
      · rw [if_neg htail] at h
        cases h
    rw [if_neg h3] at h
    by_cases h4 : a.toNat < 0xf0
    · rw [if_pos h4] at h
      split at h
      case isFalse => cases h
      case isTrue hvalid =>
        obtain ⟨b, s, rfl, hb⟩ := exists_of_isTail (s := s) hvalid.1
        obtain ⟨c, s, rfl, hc⟩ := exists_of_isTail (s := s) hvalid.2.1
        rw [threeValue_eq] at h hvalid
        obtain ⟨hwc, rfl⟩ := h
        refine ⟨by omega, by omega, ?_⟩
        rw [utf8Of, if_neg (by omega), if_neg (by omega), if_pos (by omega),
          hbyte a _ (by omega), hbyte b _ (by omega), hbyte c _ (by omega)]
        exact ⟨rfl, rfl⟩
    rw [if_neg h4] at h
    split at h
    · split at h
      case isFalse => cases h
      case isTrue hvalid =>
        obtain ⟨b, s, rfl, hb⟩ := exists_of_isTail (s := s) hvalid.1
        obtain ⟨c, s, rfl, hc⟩ := exists_of_isTail (s := s) hvalid.2.1
        obtain ⟨d, s, rfl, hd⟩ := exists_of_isTail (s := s) hvalid.2.2.1
        rw [fourValue_eq] at h hvalid
        rw [Except.ok.injEq, Prod.mk.injEq] at h
        obtain ⟨hwc, rfl⟩ := h
        have hrange := hvalid.2.2.2
        refine ⟨by omega, by omega, ?_⟩
        rw [utf8Of, if_neg (by omega), if_neg (by omega), if_neg (by omega),
          hbyte a _ (by omega), hbyte b _ (by omega), hbyte c _ (by omega),
          hbyte d _ (by omega)]
        exact ⟨rfl, rfl⟩
    · cases h

end ReadingBytes

section Loops

variable {cps : List Nat}

theorem utf8ToUtf16Loop_utf8
    (h : ∀ cp ∈ cps, 0 < cp ∧ cp < 0x110000)
    {fuel : Nat}
    (hfuel : (utf8 cps).length ≤ fuel) :
    utf8ToUtf16Loop fuel (utf8 cps) = .ok (utf16 cps) := by
  induction cps generalizing fuel with
  | nil =>
    cases fuel with
    | zero => rfl
    | succ fuel => simp [utf8ToUtf16Loop, utf8ToUnicode]
  | cons cp cps ih =>
    obtain ⟨hpos, hlt⟩ := h cp (by simp)
    have hlen : 0 < (utf8Of cp).length := List.length_pos_iff.mpr (utf8Of_ne_nil cp)
    rw [utf8_cons, List.length_append] at hfuel
    obtain ⟨fuel, rfl⟩ : ∃ f, fuel = f + 1 := ⟨fuel - 1, by omega⟩
    have hrest := ih (fun c hc => h c (by simp [hc])) (show (utf8 cps).length ≤ fuel by omega)
    rw [utf8_cons, utf8ToUtf16Loop, utf8ToUnicode_utf8Of hpos hlt]
    dsimp only
    rw [if_neg hlen.ne', List.drop_left, hrest]
    rw [unicodeUnits_eq, utf16_cons]

theorem utf8ToUtf16Loop_inv
    {fuel : Nat} {s : List UInt8} {units : List UInt16}
    (h : utf8ToUtf16Loop fuel s = .ok units)
    (hfuel : s.length ≤ fuel)
    (hnz : ∀ b ∈ s, b ≠ 0) :
    ∃ cps, (∀ cp ∈ cps, 0 < cp ∧ cp < 0x110000) ∧ s = utf8 cps ∧ units = utf16 cps := by
  induction fuel generalizing s units with
  | zero =>
    obtain rfl : s = [] := List.length_eq_zero_iff.mp (by omega)
    cases h
    exact ⟨[], by simp, rfl, rfl⟩
  | succ fuel ih =>
    rw [utf8ToUtf16Loop] at h
    cases hread : utf8ToUnicode s with
    | error err =>
      rw [hread] at h
      cases h
    | ok r =>
      obtain ⟨wc, m⟩ := r
      rw [hread] at h
      dsimp only at h
      by_cases hm : m = 0
      · -- only the terminating null is read as nothing
        rw [if_pos hm] at h
        cases h
        cases s with
        | nil => exact ⟨[], by simp, rfl, rfl⟩
        | cons a s =>
          subst hm
          have ha : a.toNat ≠ 0 := fun h0 =>
            hnz a (by simp) (UInt8.toNat_inj.mp h0)
          unfold utf8ToUnicode at hread
          simp only [charAt_zero, if_neg ha] at hread
          split_ifs at hread <;> simp at hread
      · rw [if_neg hm] at h
        obtain ⟨hpos, hlt, hlen, hs⟩ := utf8ToUnicode_inv hread hm
        cases hloop : utf8ToUtf16Loop fuel (s.drop m) with
        | error err =>
          rw [hloop] at h
          cases h
        | ok rest =>
          rw [hloop] at h
          obtain ⟨cps, hvalid, hdrop, hrest⟩ := ih hloop (by rw [List.length_drop]; omega)
            (fun b hb => hnz b (List.mem_of_mem_drop hb))
          refine ⟨wc :: cps, ?_, ?_, ?_⟩
          · intro cp hcp
            rcases List.mem_cons.mp hcp with rfl | hcp
            · exact ⟨hpos, hlt⟩
            · exact hvalid cp hcp
          · rw [utf8_cons, ← hdrop]
            exact hs
          · rw [utf16_cons, ← unicodeUnits_eq, ← hrest]
            exact (Except.ok.inj h).symm

end Loops

section Sizes

variable {cps : List Nat}

theorem utf8ToUtf16SizeLoop_end
    {t : List UInt8}
    (h : charAt t 0 = 0)
    (fuel count : Nat) :
    utf8ToUtf16SizeLoop fuel t count = .ok count := by
  cases fuel with
  | zero => rfl
  | succ fuel => rw [utf8ToUtf16SizeLoop, if_pos h]

/-- One pass of the size loop over the bytes of a code point, whatever follows them. -/
theorem utf8ToUtf16SizeLoop_point
    {cp : Nat} {count fuel : Nat}
    (hpos : 0 < cp)
    (hlt : cp < 0x110000)
    (t : List UInt8) :
    utf8ToUtf16SizeLoop (fuel + 1) (utf8Of cp ++ t) count =
      if pathMax ≤ count + (utf16Of cp).length then
        .error .enametoolong
      else
        utf8ToUtf16SizeLoop fuel t (count + (utf16Of cp).length) := by
  have hone : cp < 0x10000 → (utf16Of cp).length = 1 := by
    intro hsmall
    rw [utf16Of, if_pos hsmall]
    rfl
  -- a string that ends here ends the loop as the next pass would
  have hlast : ∀ n, charAt t 0 = 0 → Except.ok n = utf8ToUtf16SizeLoop fuel t n :=
    fun n hzero => (utf8ToUtf16SizeLoop_end hzero fuel n).symm
  rw [utf8ToUtf16SizeLoop]
  rcases utf8Of_cases hlt with ⟨a, heq, hcp, ha⟩ | ⟨a, b, heq, hcp, ha, hb⟩ |
    ⟨a, b, c, heq, hcp, ha, hb, hc⟩ | ⟨a, b, c, d, heq, hcp, ha, hb, hc, hd⟩
  all_goals
    simp only [heq, List.cons_append, List.nil_append, charAt_zero, charAt_succ,
      List.drop_succ_cons, List.drop_zero]
    rw [if_neg (by omega)]
  · rw [hone (by omega)]
    exact if_congr Iff.rfl rfl (if_pos (by omega))
  · rw [hone (by omega)]
    refine if_congr Iff.rfl rfl ?_
    rw [if_neg (by omega), if_neg (by omega)]
    split
    · exact hlast _ (by omega)
    · exact if_pos (by omega)
  · rw [hone (by omega)]
    refine if_congr Iff.rfl rfl ?_
    rw [if_neg (by omega), if_neg (by omega), if_neg (by omega), if_neg (by omega)]
    split
    · exact hlast _ (by omega)
    · exact if_pos (by omega)
  · have htwo : (utf16Of cp).length = 2 := by
      rw [utf16Of, if_neg (by omega)]
      rfl
    rw [htwo]
    split
    · rw [if_pos (by omega)]
    · rw [if_neg (by omega), if_neg (by omega), if_neg (by omega), if_neg (by omega),
        if_neg (by omega), if_neg (by omega)]

/-- The reader counts the units it is going to write, up to its limit. -/
theorem utf8ToUtf16SizeLoop_utf8
    (h : ∀ cp ∈ cps, 0 < cp ∧ cp < 0x110000)
    {fuel count : Nat}
    (hfuel : (utf8 cps).length ≤ fuel)
    (hcount : count < pathMax) :
    utf8ToUtf16SizeLoop fuel (utf8 cps) count =
      if count + (utf16 cps).length < pathMax then
        .ok (count + (utf16 cps).length)
      else
        .error .enametoolong := by
  induction cps generalizing fuel count with
  | nil =>
    rw [utf8_nil, utf8ToUtf16SizeLoop_end (charAt_nil 0), if_pos (by simpa using hcount)]
    rfl
  | cons cp cps ih =>
    obtain ⟨hpos, hlt⟩ := h cp (by simp)
    have hvalid : ∀ c ∈ cps, 0 < c ∧ c < 0x110000 := fun c hc => h c (by simp [hc])
    have hlen : 0 < (utf8Of cp).length := List.length_pos_iff.mpr (utf8Of_ne_nil cp)
    rw [utf8_cons, List.length_append] at hfuel
    obtain ⟨fuel, rfl⟩ : ∃ f, fuel = f + 1 := ⟨fuel - 1, by omega⟩
    rw [utf8_cons, utf8ToUtf16SizeLoop_point hpos hlt, utf16_cons,
      List.length_append, ← Nat.add_assoc]
    split
    · rw [if_neg (by omega)]
    · exact ih hvalid (by omega) (by omega)

theorem utf8ToUtf16_utf8
    (h : ∀ cp ∈ cps, 0 < cp ∧ cp < 0x110000) :
    utf8ToUtf16 (utf8 cps) =
      if (utf16 cps).length < pathMax then
        .ok (utf16 cps)
      else
        .error .enametoolong := by
  have hsize := utf8ToUtf16SizeLoop_utf8 h le_rfl (show 0 < pathMax by decide)
  rw [Nat.zero_add] at hsize
  unfold utf8ToUtf16 utf8ToUtf16Size
  rw [hsize]
  split_ifs
  · exact utf8ToUtf16Loop_utf8 h le_rfl
  · rfl

end Sizes

section RoundTrip

/-- No surrogate pair is encoded as two sequences of three bytes. -/
def NoSplitPair (bytes : List UInt8) : Prop :=
  ∀ high low, IsHigh high → IsLow low → ¬(utf8Of high ++ utf8Of low) <:+: bytes

theorem NoSplitPair.text
    {cps : List Nat}
    (h : NoSplitPair (utf8 cps))
    (hvalid : ∀ cp ∈ cps, 0 < cp ∧ cp < 0x110000) :
    Text cps := by
  refine ⟨hvalid, ?_⟩
  induction cps with
  | nil => exact List.IsChain.nil
  | cons a cps ih =>
    have htail : NoSplitPair (utf8 cps) := by
      intro high low hh hl hin
      exact h high low hh hl (hin.trans ⟨utf8Of a, [], by simp⟩)
    refine List.isChain_cons.mpr ⟨?_, ih htail (fun c hc => hvalid c (by simp [hc]))⟩
    intro b hb hpair
    cases cps with
    | nil => simp at hb
    | cons c cps =>
      obtain rfl : c = b := by simpa using hb
      exact h a c hpair.1 hpair.2 ⟨[], utf8 cps, by simp⟩

theorem utf16ToUtf8_utf16
    {cps : List Nat}
    (h : Text cps)
    (outs : Option Int) :
    utf16ToUtf8 (utf16 cps) outs =
      if ((utf8 cps).length : Int) < outs.getD pathMax then
        .ok (utf8 cps)
      else
        .error .enametoolong := by
  have hloop : utf16ToUtf8Loop (utf16 cps) 0 = utf8 cps :=
    utf16ToUtf8Loop_utf16 h (Or.inl rfl)
  rw [utf16ToUtf8_eq, hloop]
  split
  · rw [if_pos (by omega)]
  · rw [if_neg (by omega)]

/--
Both round trips.  From UTF-16 the bytes are those of the code points, from
UTF-8 they are the bytes of the input; where one of the two does not fit,
the conversion fails with `ENAMETOOLONG` and nothing else.
-/
theorem utf16_utf8_round_trip :
    (∀ (units : List UInt16) (outs : Option Int), (∀ c ∈ units, c ≠ 0) → utf16ToUtf8 units outs =
        (if ((utf8 (points16 units)).length : Int) < outs.getD pathMax then
          .ok (utf8 (points16 units))
        else
          .error .enametoolong) ∧
      utf8ToUtf16 (utf8 (points16 units)) =
        if units.length < pathMax then .ok units else .error .enametoolong) ∧
    (∀ (bytes : List UInt8) (units : List UInt16) (outs : Option Int),
      (∀ b ∈ bytes, b ≠ 0) → NoSplitPair bytes → utf8ToUtf16 bytes = .ok units →
      utf16ToUtf8 units outs =
        if (bytes.length : Int) < outs.getD pathMax then
          .ok bytes
        else
          .error .enametoolong) := by
  constructor
  · intro units outs hnz
    have htext := text_points16 units hnz
    have hwrite := utf16ToUtf8_utf16 htext outs
    have hread := utf8ToUtf16_utf8 htext.valid
    rw [utf16_points16] at hwrite hread
    exact ⟨hwrite, hread⟩
  · intro bytes units outs hnz hsplit hread
    have hloop : utf8ToUtf16Loop bytes.length bytes = .ok units := by
      unfold utf8ToUtf16 at hread
      cases hsize : utf8ToUtf16Size bytes with
      | error err =>
        rw [hsize] at hread
        cases hread
      | ok n =>
        rw [hsize] at hread
        exact hread
    obtain ⟨cps, hvalid, rfl, rfl⟩ := utf8ToUtf16Loop_inv hloop le_rfl hnz
    exact utf16ToUtf8_utf16 (hsplit.text hvalid) outs

/-- An unpaired high surrogate before a pair, there and back again. -/
theorem utf16_utf8_round_trip_broken :
    utf16ToUtf8 [0xd800, 0xd801, 0xdc02, 0x41] none =
        .ok [0xed, 0xa0, 0x80, 0xf0, 0x90, 0x90, 0x82, 0x41] ∧
      utf8ToUtf16 [0xed, 0xa0, 0x80, 0xf0, 0x90, 0x90, 0x82, 0x41] =
        .ok [0xd800, 0xd801, 0xdc02, 0x41] ∧
      utf16ToUtf8 [0x41] none = .ok [0x41] := by
  have h := utf16_utf8_round_trip.1 [0xd800, 0xd801, 0xdc02, 0x41] none (by simp)
  have hbytes : utf8 (points16 [0xd800, 0xd801, 0xdc02, 0x41]) =
      [0xed, 0xa0, 0x80, 0xf0, 0x90, 0x90, 0x82, 0x41] := by
    decide +kernel
  rw [hbytes] at h
  refine ⟨h.1, h.2, utf16_utf8_round_trip.2 [0x41] [0x41] none (by simp) ?_ rfl⟩
  rintro high low hh - ⟨p, q, hpq⟩
  have hlen := congrArg List.length hpq
  have hhigh : (utf8Of high).length = 3 := by
    unfold IsHigh at hh
    rw [utf8Of, if_neg (by omega), if_neg (by omega), if_pos (by omega)]
    rfl
  simp [hhigh] at hlen
  omega

theorem utf16ToUtf8Loop_ascii
    (n : Nat) :
    utf16ToUtf8Loop (List.replicate n 0x41) 0 = List.replicate n 0x41 := by
  induction n with
  | zero => rfl
  | succ n ih =>
    show _ :: utf16ToUtf8Loop (List.replicate n 0x41) 0 = _
    rw [ih]
    rfl

/-- A sequence of `PATH_MAX` units is refused. -/
theorem utf16ToUtf8_pathMax :
    (∀ c ∈ List.replicate 4096 (0x41 : UInt16), c ≠ 0) ∧
      utf16ToUtf8 (List.replicate 4096 0x41) none = .error .enametoolong := by
  constructor
  · intro c hc
    rw [(List.mem_replicate.mp hc).2]
    decide
  · rw [utf16ToUtf8_eq, utf16ToUtf8Loop_ascii, List.length_replicate]
    decide

end RoundTrip

end NtfsPlus.Libntfs
