import NtfsPlus.Libntfs.Unistr

/-!
# The sizes that the converters compute first

`utf16_to_utf8_size` and `utf8_to_utf16_size` of `libntfs/unistr.c` against what the
converters then write into a buffer of that size.  A conversion from UTF-8 can stop at
an invalid sequence, with the units of everything in front of it written
(`utf8ToUtf16Written`).
-/

namespace NtfsPlus.Libntfs

section Written

/--
The units that the loop of `ntfs_utf8_to_utf16` has written when it stops, at the end of
the string or at an invalid sequence.
-/
def utf8ToUtf16Written : Nat → List UInt8 → List UInt16
  | 0, _ => []
  | fuel + 1, t =>
    match utf8ToUnicode t with
    | .error _ => []
    | .ok (wc, m) => if m = 0 then [] else unicodeUnits wc ++ utf8ToUtf16Written fuel (t.drop m)

theorem utf8ToUtf16Written_of_ok
    {fuel : Nat} {t : List UInt8} {units : List UInt16}
    (h : utf8ToUtf16Loop fuel t = .ok units) :
    utf8ToUtf16Written fuel t = units := by
  induction fuel generalizing t units with
  | zero => exact Except.ok.inj h
  | succ fuel ih =>
    rw [utf8ToUtf16Loop] at h
    rw [utf8ToUtf16Written]
    cases hread : utf8ToUnicode t with
    | error err =>
      rw [hread] at h
      cases h
    | ok r =>
      obtain ⟨wc, m⟩ := r
      rw [hread] at h
      dsimp only at h ⊢
      by_cases hm : m = 0
      · rw [if_pos hm] at h ⊢
        exact Except.ok.inj h
      · rw [if_neg hm] at h ⊢
        cases hloop : utf8ToUtf16Loop fuel (t.drop m) with
        | error err =>
          rw [hloop] at h
          cases h
        | ok rest =>
          rw [hloop] at h
          rw [ih hloop]
          exact Except.ok.inj h

end Written

section Sizes

theorem utf8ToUtf16SizeLoop_mono
    {fuel count n : Nat} {s : List UInt8}
    (h : utf8ToUtf16SizeLoop fuel s count = .ok n) :
    count ≤ n := by
  induction fuel generalizing s count with
  | zero => exact (Except.ok.inj h).le
  | succ fuel ih =>
    rw [utf8ToUtf16SizeLoop] at h
    split_ifs at h
    all_goals first
      | exact le_of_add_le_left (ih h)
      | (have hn := Except.ok.inj h; omega)

/-- Every unit that is written has been counted, also if an invalid sequence follows. -/
theorem utf8ToUtf16Written_length_le
    {fuel count n : Nat} {s : List UInt8}
    (h : utf8ToUtf16SizeLoop fuel s count = .ok n) :
    count + (utf8ToUtf16Written fuel s).length ≤ n := by
  induction fuel generalizing s count with
  | zero => exact utf8ToUtf16SizeLoop_mono h
  | succ fuel ih =>
    have hmono := utf8ToUtf16SizeLoop_mono h
    rw [utf8ToUtf16Written]
    cases hread : utf8ToUnicode s with
    | error err => exact hmono
    | ok r =>
      obtain ⟨wc, m⟩ := r
      dsimp only
      by_cases hm : m = 0
      · rw [if_pos hm]
        exact hmono
      · -- both loops pass over the bytes of the same code point
        obtain ⟨hpos, hlt, hlen, hs⟩ := utf8ToUnicode_inv hread hm
        rw [hs, utf8ToUtf16SizeLoop_point hpos hlt] at h
        split_ifs at h
        have hrest := ih h
        rw [if_neg hm, List.length_append, unicodeUnits_eq]
        omega

/--
The size computed for UTF-8 is the number of bytes that the converter then writes; the
size computed for UTF-16 is enough for the units that are written, which are the result
on valid input and the units in front of the first invalid sequence on other input.
-/
theorem utf_sizes_suffice :
    (∀ (ins : List UInt16) (outs : Option Int) (size : Int),
      utf16ToUtf8Size ins (outs.getD pathMax - 1) = .ok size →
        ∃ bytes, utf16ToUtf8 ins outs = .ok bytes ∧ (bytes.length : Int) = size) ∧
    (∀ (ins : List UInt8) (size : Nat), utf8ToUtf16Size ins = .ok size →
        (utf8ToUtf16Written ins.length ins).length ≤ size ∧
          ∀ units, utf8ToUtf16 ins = .ok units → utf8ToUtf16Written ins.length ins = units) := by
  constructor
  · intro ins outs size h
    refine ⟨utf16ToUtf8Loop ins 0, by rw [utf16ToUtf8, h], ?_⟩
    rw [utf16ToUtf8Size_eq] at h
    split_ifs at h
    exact Except.ok.inj h
  · intro ins size h
    have hle := utf8ToUtf16Written_length_le h
    refine ⟨by omega, fun units hunits => utf8ToUtf16Written_of_ok ?_⟩
    rw [utf8ToUtf16, h] at hunits
    exact hunits

/-- A lone surrogate, and a string that breaks off in a sequence of three bytes. -/
theorem utf_sizes_suffice_broken :
    (∃ bytes, utf16ToUtf8 [0x61, 0xd800] (some 10) = .ok bytes ∧ (bytes.length : Int) = 4) ∧
      (utf8ToUtf16Written 4 [0x61, 0x62, 0xe2, 0x82]).length ≤ 3 :=
  ⟨utf_sizes_suffice.1 [0x61, 0xd800] (some 10) 4 (by decide +kernel),
    (utf_sizes_suffice.2 [0x61, 0x62, 0xe2, 0x82] 3 (by decide +kernel)).1⟩

end Sizes

end NtfsPlus.Libntfs
