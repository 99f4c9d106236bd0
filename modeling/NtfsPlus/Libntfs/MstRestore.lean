import NtfsPlus.Libntfs.Mst

/-!
# Taking the protection off again

`ntfs_mst_post_write_fixup` and `ntfs_mst_post_read_fixup` put the saved words back
to the ends of the sectors.  They find the update sequence array through the header of
the protected record, so they do their work on every record of a layout exactly if the
array of that layout is clear of the header fields that describe it
(`fixups_restore_iff`).
-/

namespace NtfsPlus.Libntfs

section Restoring

theorem byte_eq_of_le16
    {m m' : Bytes} {pos pos' : Nat}
    (h : le16 m pos = le16 m' pos')
    {k : Nat}
    (hk : k < 2) :
    m (pos + k) = m' (pos' + k) := by
  have h0 := (m pos).toNat_lt
  have h0' := (m' pos').toNat_lt
  simp only [le16, leNat] at h
  apply UInt8.toNat_inj.mp
  interval_cases k
  · rw [Nat.add_zero, Nat.add_zero]
    omega
  · omega

/-- The restoring loop moves the words of the array to the ends of the sectors. -/
theorem restoreSectors_spec
    (n usaPos dataPos : Nat)
    (b : Bytes)
    (hroom : usaPos + 2 * n + 2 ≤ dataPos) :
    (∀ j, (∀ i < n, j < dataPos + 512 * i ∨ dataPos + 512 * i + 2 ≤ j) →
      restoreSectors n usaPos dataPos b j = b j) ∧
    (∀ i < n, le16 (restoreSectors n usaPos dataPos b) (dataPos + 512 * i) =
      le16 b (usaPos + 2 + 2 * i)) := by
  induction n generalizing usaPos dataPos b with
  | zero => exact ⟨fun _ _ => rfl, by omega⟩
  | succ n ih =>
    obtain ⟨hbytes, hends⟩ := ih (usaPos + 2) (dataPos + 512)
      (setLe16 b dataPos (le16 b (usaPos + 2))) (by omega)
    constructor
    · intro j hj
      have hfirst := hj 0 (by omega)
      refine (hbytes j ?_).trans (setLe16_of_ne _ _ (by omega))
      intro i hi
      have := hj (i + 1) (by omega)
      omega
    · intro i hi
      cases i with
      | zero =>
        have hsame : le16 (restoreSectors n (usaPos + 2) (dataPos + ntfsBlockSize)
            (setLe16 b dataPos (le16 b (usaPos + 2)))) dataPos =
            le16 (setLe16 b dataPos (le16 b (usaPos + 2))) dataPos :=
          leNat_congr fun k hk => hbytes _ fun i hi => by omega
        rw [le16_setLe16, Nat.mod_eq_of_lt (le16_lt _ _)] at hsame
        exact hsame
      | succ i =>
        have hword := hends i (by omega)
        rw [le16_setLe16_of_ne _ _ (by omega)] at hword
        rw [show dataPos + 512 * (i + 1) = dataPos + 512 + 512 * i by omega,
          show usaPos + 2 + 2 * (i + 1) = usaPos + 2 + 2 + 2 * i by omega]
        exact hword

variable {b p : Bytes} {size : Nat}

/-- Beside the array and the ends of the sectors the protection changes nothing. -/
theorem preWriteFixup_frame
    (h : mstPreWriteFixup b size = .ok p)
    {j : Nat}
    (harray : j < usaOfs b ∨ usaOfs b + 2 * usaCount b ≤ j)
    (hends : ∀ i < size / 512, j < 510 + 512 * i ∨ 510 + 512 * i + 2 ≤ j) :
    p j = b j := by
  obtain ⟨-, -, hcount, hroom⟩ := (protected_of_preWriteFixup h).valid
  simp only [ntfsBlockSize] at hcount hroom
  rw [mstPreWriteFixup] at h
  split_ifs at h
  cases h
  obtain ⟨hbytes, -, -⟩ := protectSectors_spec
    (nextUsn_lt (le16 b (usaOfs b))) (usaCount b - 1) (usaOfs b) 510
    (setLe16 b (usaOfs b) (nextUsn (le16 b (usaOfs b)))) (by omega)
  refine (hbytes j (by omega) ?_).trans (setLe16_of_ne _ _ (by omega))
  intro i hi
  exact hends i (by omega)

/-- Every byte of the record outside the update sequence array is `b`'s. -/
def SameOutsideArray (b r : Bytes) (size : Nat) : Prop :=
  ∀ j < size, (j < usaOfs b ∨ usaOfs b + 2 * usaCount b ≤ j) → r j = b j

/-- Both functions take the protection off `p`, and the one after a read succeeds. -/
structure Restored (b p : Bytes) (size : Nat) : Prop where
  accepted : (mstPostReadFixup p size).1 = none
  afterRead : SameOutsideArray b (mstPostReadFixup p size).2 size
  afterWrite : SameOutsideArray b (mstPostWriteFixup p) size

theorem restoreSectors_protected
    (h : mstPreWriteFixup b size = .ok p) :
    SameOutsideArray b (restoreSectors (size / 512) (usaOfs b) 510 p) size := by
  have hprot := protected_of_preWriteFixup h
  obtain ⟨-, -, hcount, hroom⟩ := hprot.valid
  simp only [ntfsBlockSize] at hcount hroom
  obtain ⟨hbytes, hends⟩ := restoreSectors_spec (size / 512) (usaOfs b) 510 p (by omega)
  intro j _ harray
  by_cases hend : ∃ i < size / 512, 510 + 512 * i ≤ j ∧ j < 510 + 512 * i + 2
  · obtain ⟨i, hi, hlow, hhigh⟩ := hend
    obtain ⟨k, rfl⟩ : ∃ k, j = 510 + 512 * i + k := ⟨j - (510 + 512 * i), by omega⟩
    exact byte_eq_of_le16 ((hends i hi).trans (hprot.array i hi)) (by omega)
  · have hout : ∀ i < size / 512, j < 510 + 512 * i ∨ 510 + 512 * i + 2 ≤ j := by
      intro i hi
      by_contra hin
      exact hend ⟨i, hi, by omega, by omega⟩
    exact (hbytes j hout).trans (preWriteFixup_frame h harray hout)

/-- A protected record with the header it had is restored by both functions. -/
theorem restored_of_header
    (h : mstPreWriteFixup b size = .ok p)
    (hofs : usaOfs p = usaOfs b)
    (hcnt : usaCount p = usaCount b) :
    Restored b p size := by
  have hprot := protected_of_preWriteFixup h
  have hsame := restoreSectors_protected h
  have hvalid := hprot.valid
  obtain ⟨-, heven, hcount, hroom⟩ := hvalid
  simp only [ntfsBlockSize] at hcount hroom
  have hread : mstPostReadFixup p size = (none, restoreSectors (size / 512) (usaOfs b) 510 p) := by
    rw [mstPostReadFixup, hofs, hcnt, if_pos hprot.valid, hprot.usn, hcount,
      Nat.add_sub_cancel_left, show ntfsBlockSize - 2 = 510 from rfl,
      if_pos ((sectorsComplete_iff _ _).mpr hprot.ends)]
  have hwrite : mstPostWriteFixup p = restoreSectors (size / 512) (usaOfs b) 510 p := by
    rw [mstPostWriteFixup, hofs, hcnt, hcount,
      show (1 + size / 512 + 65535) % 65536 = size / 512 by omega,
      show usaOfs b / 2 * 2 = usaOfs b by omega]
    rfl
  refine ⟨?_, ?_, ?_⟩
  · rw [hread]
  · rw [hread]
    exact hsame
  · rw [hwrite]
    exact hsame

end Restoring

section Layouts

/-- The array does not reach the fields `usa_ofs` and `usa_count`. -/
def ArrayClear (size ofs : Nat) : Prop :=
  8 ≤ ofs ∨ ofs + 2 * (1 + size / ntfsBlockSize) ≤ 4

/-- A record whose array begins at `ofs`; where it covers the header fields, the word
that the protection moves onto `usa_ofs` is 1. -/
def overlapRecord (size ofs : Nat) : Bytes :=
  setLe16 (setLe16 (setLe16 (fun _ => 0) (1022 - 256 * ofs) 1) 4 ofs) 6 (1 + size / ntfsBlockSize)

variable {size ofs : Nat}

/-- A header that the protection changed is not accepted any more. -/
theorem not_restored_of_invalid
    {b p : Bytes}
    (h : ¬ isValidRecord size (usaOfs p) (usaCount p)) :
    ¬ Restored b p size := by
  intro hrest
  have haccepted := hrest.accepted
  rw [mstPostReadFixup, if_neg h] at haccepted
  cases haccepted

theorem overlapRecord_header
    (hvalid : isValidRecord size ofs (1 + size / ntfsBlockSize))
    (hofs : ofs < 8) :
    usaOfs (overlapRecord size ofs) = ofs ∧
      usaCount (overlapRecord size ofs) = 1 + size / ntfsBlockSize := by
  obtain ⟨-, heven, -, hroom⟩ := hvalid
  simp only [ntfsBlockSize] at hroom
  constructor
  · rw [usaOfs, overlapRecord, le16_setLe16_of_ne _ _ (by omega), le16_setLe16,
      Nat.mod_eq_of_lt (by omega)]
  · rw [usaCount, overlapRecord, le16_setLe16]
    simp only [ntfsBlockSize]
    omega

theorem overlapRecord_accepted
    (hvalid : isValidRecord size ofs (1 + size / ntfsBlockSize))
    (hofs : ofs < 8) :
    ∃ p, mstPreWriteFixup (overlapRecord size ofs) size = .ok p := by
  obtain ⟨hhead, hcount⟩ := overlapRecord_header hvalid hofs
  have hhigh : le16 (overlapRecord size ofs) 2 = 0 := by
    rw [overlapRecord, le16_setLe16_of_ne _ _ (by omega), le16_setLe16_of_ne _ _ (by omega),
      le16_setLe16_of_ne _ _ (by omega)]
    rfl
  have hmagic : ¬ (le32 (overlapRecord size ofs) 0 = magicBaad ∨
      le32 (overlapRecord size ofs) 0 = magicHole) := by
    have hlow := le16_lt (overlapRecord size ofs) 0
    rw [le32_eq_le16, hhigh, magicBaad, magicHole]
    omega
  rw [mstPreWriteFixup, if_neg hmagic, hhead, hcount, if_pos hvalid]
  exact ⟨_, rfl⟩

theorem overlapRecord_invalid
    {p : Bytes}
    (hvalid : isValidRecord size ofs (1 + size / ntfsBlockSize))
    (hclear : ¬ ArrayClear size ofs)
    (h : mstPreWriteFixup (overlapRecord size ofs) size = .ok p) :
    ¬ isValidRecord size (usaOfs p) (usaCount p) := by
  have hprot := protected_of_preWriteFixup h
  have hofs : ofs < 8 := by
    by_contra hge
    exact hclear (Or.inl (by omega))
  have hover : 4 < ofs + 2 * (1 + size / 512) := by
    by_contra hle
    exact hclear (Or.inr (by simp only [ntfsBlockSize]; omega))
  obtain ⟨hhead, hcount⟩ := overlapRecord_header hvalid hofs
  have heven := hvalid.2.1
  have husn := hprot.usn
  have harray := hprot.array (1 - ofs / 2)
  rw [hhead] at husn harray
  rintro ⟨-, heven', hcount', -⟩
  by_cases hfirst : ofs < 4
  · -- a saved word lies on `usa_ofs`
    have hword : le16 (overlapRecord size ofs) (1022 - 256 * ofs) = 1 := by
      rw [overlapRecord, le16_setLe16_of_ne _ _ (by omega), le16_setLe16_of_ne _ _ (by omega),
        le16_setLe16]
    have hsaved := harray (by omega)
    rw [show ofs + 2 + 2 * (1 - ofs / 2) = 4 by omega,
      show 510 + 512 * (1 - ofs / 2) = 1022 - 256 * ofs by omega] at hsaved
    rw [usaOfs] at heven'
    omega
  · by_cases hsecond : ofs = 4
    · -- the number lies on `usa_ofs`
      subst hsecond
      have hnext : le16 p 4 = nextUsn 4 := by
        rw [husn]
        exact congrArg nextUsn hhead
      rw [usaOfs, hnext] at heven'
      cases heven'
    · -- the number lies on `usa_count`
      obtain rfl : ofs = 6 := by omega
      have hnext : le16 p 6 = nextUsn (1 + size / ntfsBlockSize) := by
        rw [husn]
        exact congrArg nextUsn hcount
      rw [usaCount, hnext] at hcount'
      exact nextUsn_ne _ hcount'

/--
For every size and every offset of the array: the protection can be taken off all
records of that layout exactly if the array does not reach the fields that describe it.
-/
theorem fixups_restore_iff
    {size ofs : Nat}
    (hvalid : isValidRecord size ofs (1 + size / ntfsBlockSize)) :
    (∀ b p, usaOfs b = ofs → mstPreWriteFixup b size = .ok p → Restored b p size) ↔
      ArrayClear size ofs := by
  constructor
  · intro hall
    by_contra hclear
    have hofs : ofs < 8 := by
      by_contra hge
      exact hclear (Or.inl (by omega))
    obtain ⟨p, hp⟩ := overlapRecord_accepted hvalid hofs
    exact not_restored_of_invalid (overlapRecord_invalid hvalid hclear hp)
      (hall _ p (overlapRecord_header hvalid hofs).1 hp)
  · intro hclear b p hofs h
    have hcount := (protected_of_preWriteFixup h).valid.2.2.1
    have hout : ∀ j, 4 ≤ j → j < 8 → p j = b j := by
      intro j hlow hhigh
      apply preWriteFixup_frame h
      · rcases hclear with hclear | hclear
        · omega
        · omega
      · omega
    exact restored_of_header h (leNat_congr fun k hk => hout _ (by omega) (by omega))
      (leNat_congr fun k hk => hout _ (by omega) (by omega))

theorem fixups_restore_iff_mft_record :
    isValidRecord 1024 48 3 ∧
      ((∀ b p, usaOfs b = 48 → mstPreWriteFixup b 1024 = .ok p → Restored b p 1024) ↔
        ArrayClear 1024 48) :=
  ⟨by decide, fixups_restore_iff (by decide)⟩

/-- With the array at 2 the saved word of the first sector takes the place of `usa_ofs`. -/
theorem fixup_array_over_header :
    ∃ b p, mstPreWriteFixup b 1024 = .ok p ∧ usaOfs b = 2 ∧
      (mstPostReadFixup p 1024).1 = some .einval ∧ mstPostWriteFixup p 510 ≠ b 510 :=
  ⟨setLe16 (setLe16 (twoSectorRecord 2 7) 510 1) 1022 3, _, rfl, by decide, by decide,
    by decide +kernel⟩

end Layouts

end NtfsPlus.Libntfs
