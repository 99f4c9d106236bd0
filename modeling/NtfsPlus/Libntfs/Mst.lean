import NtfsPlus.Lib.ByteMemory
import NtfsPlus.Libntfs.RunlistBasic

/-!
# Multi sector transfer protection

A record is protected before it is written (`ntfs_mst_pre_write_fixup`): the
update sequence number is stepped, the last word of every sector goes to the
update sequence array and the number takes its place.  After a read
(`ntfs_mst_post_read_fixup`) a sector that does not end with the number tells
that the record was written in part.

`isValidRecord` does not ask where the array begins.  `torn_rejected_iff` says
what follows: between two consecutive writes every mixture of sectors is
rejected with `EIO`, unless the array begins in the magic of a record of two or
more sectors and so covers the header fields that describe it.
-/

namespace NtfsPlus.Libntfs

section Model

/-- `NTFS_BLOCK_SIZE`. -/
def ntfsBlockSize : Nat := 512

/-- `is_valid_record`. -/
def isValidRecord (size usaOfs usaCount : Nat) : Prop :=
  size % ntfsBlockSize = 0 ∧ usaOfs % 2 = 0 ∧ usaCount = 1 + size / ntfsBlockSize ∧
    usaOfs + usaCount * 2 ≤ ntfsBlockSize - 2

instance (size usaOfs usaCount : Nat) : Decidable (isValidRecord size usaOfs usaCount) :=
  inferInstanceAs (Decidable (_ ∧ _ ∧ _ ∧ _))

/-- `magic_BAAD`. -/
def magicBaad : Nat := 0x44414142

/-- `magic_HOLE`. -/
def magicHole : Nat := 0x454c4f48

/-- `b->usa_ofs`. -/
def usaOfs (b : Bytes) : Nat :=
  le16 b 4

/-- `b->usa_count`. -/
def usaCount (b : Bytes) : Nat :=
  le16 b 6

/-- The step of the update sequence number, which skips 0 and 0xffff. -/
def nextUsn (usn : Nat) : Nat :=
  let next := (usn + 1) % 65536
  if next = 0xffff ∨ next = 0 then 1 else next

/-- The loop of `ntfs_mst_pre_write_fixup` over the remaining sectors. -/
def protectSectors (usn : Nat) : Nat → Nat → Nat → Bytes → Bytes
  | 0, _, _, b => b
  | n + 1, usaPos, dataPos, b =>
    protectSectors usn n (usaPos + 2) (dataPos + ntfsBlockSize)
      (setLe16 (setLe16 b (usaPos + 2) (le16 b dataPos)) dataPos usn)

/-- `ntfs_mst_pre_write_fixup`. -/
def mstPreWriteFixup (b : Bytes) (size : Nat) : Except Errno Bytes :=
  if le32 b 0 = magicBaad ∨ le32 b 0 = magicHole then
    .error .einval
  else if isValidRecord size (usaOfs b) (usaCount b) then
    let usn := nextUsn (le16 b (usaOfs b))
    .ok (protectSectors usn (usaCount b - 1) (usaOfs b) (ntfsBlockSize - 2)
      (setLe16 b (usaOfs b) usn))
  else
    .error .einval

/-- The loop that looks for incomplete transfers. -/
def sectorsComplete (b : Bytes) (usn : Nat) : Nat → Nat → Bool
  | 0, _ => true
  | n + 1, dataPos =>
    if le16 b dataPos ≠ usn then false
    else sectorsComplete b usn n (dataPos + ntfsBlockSize)

/-- The loop that restores the last words of the sectors. -/
def restoreSectors : Nat → Nat → Nat → Bytes → Bytes
  | 0, _, _, b => b
  | n + 1, usaPos, dataPos, b =>
    restoreSectors n (usaPos + 2) (dataPos + ntfsBlockSize)
      (setLe16 b dataPos (le16 b (usaPos + 2)))

/-- `b->magic = magic_BAAD`. -/
def setBaad (b : Bytes) : Bytes :=
  setLe16 (setLe16 b 0 (magicBaad % 65536)) 2 (magicBaad / 65536)

/-- `ntfs_mst_post_read_fixup`: the error, if any, and the record. -/
def mstPostReadFixup (b : Bytes) (size : Nat) : Option Errno × Bytes :=
  if isValidRecord size (usaOfs b) (usaCount b) then
    if sectorsComplete b (le16 b (usaOfs b)) (usaCount b - 1) (ntfsBlockSize - 2) then
      (none, restoreSectors (usaCount b - 1) (usaOfs b) (ntfsBlockSize - 2) b)
    else
      (some .eio, setBaad b)
  else
    (some .einval, setBaad b)

/-- `ntfs_mst_post_write_fixup`; the counter is a `u16` that is decremented first. -/
def mstPostWriteFixup (b : Bytes) : Bytes :=
  restoreSectors ((usaCount b + 65535) % 65536) (usaOfs b / 2 * 2) (ntfsBlockSize - 2) b

end Model

section Protection

theorem nextUsn_ne
    (usn : Nat) :
    nextUsn usn ≠ usn := by
  unfold nextUsn
  dsimp only
  split_ifs with hskip <;> omega

theorem nextUsn_lt
    (usn : Nat) :
    nextUsn usn < 65536 := by
  unfold nextUsn
  dsimp only
  split_ifs <;> omega

/-- What the protecting loop does to the bytes, the sector ends and the array. -/
theorem protectSectors_spec
    {usn : Nat}
    (husn : usn < 65536)
    (n usaPos dataPos : Nat)
    (b : Bytes)
    (hroom : usaPos + 2 * n + 2 ≤ dataPos) :
    (∀ j, (j < usaPos + 2 ∨ usaPos + 2 + 2 * n ≤ j) →
      (∀ i < n, j < dataPos + 512 * i ∨ dataPos + 512 * i + 2 ≤ j) →
      protectSectors usn n usaPos dataPos b j = b j) ∧
    (∀ i < n, le16 (protectSectors usn n usaPos dataPos b) (dataPos + 512 * i) = usn) ∧
    (∀ i < n, le16 (protectSectors usn n usaPos dataPos b) (usaPos + 2 + 2 * i) =
      le16 b (dataPos + 512 * i)) := by
  induction n generalizing usaPos dataPos b with
  | zero => exact ⟨fun _ _ _ => rfl, by omega, by omega⟩
  | succ n ih =>
    have hmove : le16 (setLe16 (setLe16 b (usaPos + 2) (le16 b dataPos)) dataPos usn)
        (usaPos + 2) = le16 b dataPos := by
      rw [le16_setLe16_of_ne _ _ (by omega), le16_setLe16, Nat.mod_eq_of_lt (le16_lt _ _)]
    have hend : le16 (setLe16 (setLe16 b (usaPos + 2) (le16 b dataPos)) dataPos usn)
        dataPos = usn := by
      rw [le16_setLe16, Nat.mod_eq_of_lt husn]
    obtain ⟨hbytes, hends, harray⟩ := ih (usaPos + 2) (dataPos + 512)
      (setLe16 (setLe16 b (usaPos + 2) (le16 b dataPos)) dataPos usn) (by omega)
    rw [protectSectors]
    -- a word that the remaining sectors do not touch
    have hword : ∀ pos, (pos + 2 ≤ usaPos + 4 ∨ usaPos + 4 + 2 * n ≤ pos) →
        pos + 2 ≤ dataPos + 512 →
        le16 (protectSectors usn n (usaPos + 2) (dataPos + ntfsBlockSize)
          (setLe16 (setLe16 b (usaPos + 2) (le16 b dataPos)) dataPos usn)) pos =
        le16 (setLe16 (setLe16 b (usaPos + 2) (le16 b dataPos)) dataPos usn) pos := by
      intro pos hpos hbelow
      apply leNat_congr
      intro k hk
      exact hbytes (pos + k) (by omega) (fun i hi => by omega)
    refine ⟨?_, ?_, ?_⟩
    · intro j hj hsect
      have h0 := hsect 0 (by omega)
      refine (hbytes j (by omega) ?_).trans ?_
      · intro i hi
        have := hsect (i + 1) (by omega)
        omega
      · rw [setLe16_of_ne _ _ (by omega), setLe16_of_ne _ _ (by omega)]
    · intro i hi
      cases i with
      | zero => simpa using (hword dataPos (by omega) (by omega)).trans hend
      | succ i =>
        rw [show dataPos + 512 * (i + 1) = dataPos + 512 + 512 * i by omega]
        exact hends i (by omega)
    · intro i hi
      cases i with
      | zero => simpa using (hword (usaPos + 2) (by omega) (by omega)).trans hmove
      | succ i =>
        have h := harray i (by omega)
        rw [le16_setLe16_of_ne _ _ (by omega), le16_setLe16_of_ne _ _ (by omega)] at h
        rw [show usaPos + 2 + 2 * (i + 1) = usaPos + 2 + 2 + 2 * i by omega,
          show dataPos + 512 * (i + 1) = dataPos + 512 + 512 * i by omega]
        exact h

/-- What `ntfs_mst_pre_write_fixup` makes of a record it accepts. -/
structure Protected (b p : Bytes) (size : Nat) : Prop where
  valid : isValidRecord size (usaOfs b) (usaCount b)
  usn : le16 p (usaOfs b) = nextUsn (le16 b (usaOfs b))
  ends : ∀ i < size / 512, le16 p (510 + 512 * i) = nextUsn (le16 b (usaOfs b))
  array : ∀ i < size / 512, le16 p (usaOfs b + 2 + 2 * i) = le16 b (510 + 512 * i)
  frame : ∀ j < 510, (j < usaOfs b ∨ usaOfs b + 2 * usaCount b ≤ j) → p j = b j

/-- What the fixup before a write leaves. -/
theorem protected_of_preWriteFixup
    {b p : Bytes} {size : Nat}
    (h : mstPreWriteFixup b size = .ok p) :
    Protected b p size := by
  unfold mstPreWriteFixup at h
  split_ifs at h with hmagic hvalid
  cases h
  have hv := hvalid
  obtain ⟨hsize, heven, hcount, hroom⟩ := hvalid
  simp only [ntfsBlockSize] at hsize hcount hroom
  have hn : usaCount b - 1 = size / 512 := by omega
  obtain ⟨hbytes, hends, harray⟩ := protectSectors_spec
    (nextUsn_lt (le16 b (usaOfs b))) (usaCount b - 1) (usaOfs b) 510
    (setLe16 b (usaOfs b) (nextUsn (le16 b (usaOfs b)))) (by omega)
  rw [hn] at hbytes hends harray
  rw [hn]
  refine ⟨hv, ?_, hends, ?_, ?_⟩
  · have hsame : le16 (protectSectors (nextUsn (le16 b (usaOfs b))) (size / 512) (usaOfs b) 510
        (setLe16 b (usaOfs b) (nextUsn (le16 b (usaOfs b))))) (usaOfs b) =
        le16 (setLe16 b (usaOfs b) (nextUsn (le16 b (usaOfs b)))) (usaOfs b) :=
      leNat_congr (fun k hk => hbytes _ (by omega) (fun i hi => by omega))
    exact hsame.trans ((le16_setLe16 _ _ _).trans (Nat.mod_eq_of_lt (nextUsn_lt _)))
  · intro i hi
    exact (harray i hi).trans (le16_setLe16_of_ne _ _ (by omega))
  · intro j hj hout
    exact (hbytes j (by omega) (fun i hi => by omega)).trans (setLe16_of_ne _ _ (by omega))

end Protection

section TornWrites

/-- The record `new` is a later version of `old`, which was written as `p`. -/
structure NextVersion (old p new : Bytes) : Prop where
  usaOfs : usaOfs new = usaOfs old
  usaCount : usaCount new = usaCount old
  usn : le16 new (Libntfs.usaOfs old) = le16 p (Libntfs.usaOfs old)

/-- The image with some sectors of one image and the others of another. -/
def mixSectors (old new : Bytes) (fromNew : Nat → Bool) : Bytes :=
  fun j => if fromNew (j / ntfsBlockSize) then new j else old j

/-- Some sectors of the record are old and some are new. -/
def Torn (size : Nat) (fromNew : Nat → Bool) : Prop :=
  (∃ i < size / ntfsBlockSize, fromNew i = true) ∧ ∃ i < size / ntfsBlockSize, fromNew i = false

/-- The test for torn writes looks at every sector. -/
theorem sectorsComplete_iff
    {b : Bytes} {usn : Nat}
    (n dataPos : Nat) :
    sectorsComplete b usn n dataPos = true ↔ ∀ i < n, le16 b (dataPos + 512 * i) = usn := by
  induction n generalizing dataPos with
  | zero => simp [sectorsComplete]
  | succ n ih =>
    have hnext : ∀ i, dataPos + 512 * (i + 1) = dataPos + ntfsBlockSize + 512 * i := by
      simp only [ntfsBlockSize]
      omega
    simp only [sectorsComplete, Nat.forall_lt_succ_left, hnext, ← ih, Nat.mul_zero, Nat.add_zero]
    by_cases h : le16 b dataPos = usn <;> simp [h]

/-- A word of a sector comes from the image that the sector comes from. -/
theorem le16_mixSectors
    (old new : Bytes)
    (fromNew : Nat → Bool)
    (i : Nat)
    {pos : Nat}
    (h : 512 * i ≤ pos)
    (h' : pos + 2 ≤ 512 * i + 512) :
    le16 (mixSectors old new fromNew) pos =
      if fromNew i then le16 new pos else le16 old pos := by
  have hsector : ∀ k < 2, (pos + k) / 512 = i := fun k hk => by omega
  cases hi : fromNew i with
  | true => exact leNat_congr (fun k hk => by simp [mixSectors, ntfsBlockSize, hsector k hk, hi])
  | false => exact leNat_congr (fun k hk => by simp [mixSectors, ntfsBlockSize, hsector k hk, hi])

variable {old p new p' : Bytes} {size : Nat}

/-- A mixture of two protected versions is not complete, whatever number is expected. -/
theorem mixSectors_incomplete
    (hold : Protected old p size)
    (hnew : Protected new p' size)
    (hnext : NextVersion old p new)
    {fromNew : Nat → Bool}
    (htorn : Torn size fromNew)
    (usn : Nat) :
    sectorsComplete (mixSectors p p' fromNew) usn (size / 512) 510 = false := by
  obtain ⟨⟨i, hi, hinew⟩, j, hj, hjold⟩ := htorn
  by_contra hcomplete
  have hall := (sectorsComplete_iff _ _).mp (Bool.eq_true_of_not_eq_false hcomplete)
  have h1 := hall i hi
  have h2 := hall j hj
  rw [le16_mixSectors p p' fromNew i (by omega) (by omega), hinew, if_pos rfl, hnew.ends i hi] at h1
  rw [le16_mixSectors p p' fromNew j (by omega) (by omega), hjold, if_neg (by decide),
    hold.ends j hj] at h2
  apply nextUsn_ne (nextUsn (le16 old (usaOfs old)))
  rw [hnext.usaOfs, hnext.usn, hold.usn] at h1
  rw [h1, h2]

/-- Whether a torn record is rejected with `EIO` depends on its header only. -/
theorem postReadFixup_torn
    (hold : Protected old p size)
    (hnew : Protected new p' size)
    (hnext : NextVersion old p new)
    {fromNew : Nat → Bool}
    (htorn : Torn size fromNew) :
    (mstPostReadFixup (mixSectors p p' fromNew) size).1 = some .eio ↔
      isValidRecord size (usaOfs (mixSectors p p' fromNew))
        (usaCount (mixSectors p p' fromNew)) := by
  unfold mstPostReadFixup
  by_cases hvalid : isValidRecord size (usaOfs (mixSectors p p' fromNew))
      (usaCount (mixSectors p p' fromNew))
  · have hn : usaCount (mixSectors p p' fromNew) - 1 = size / 512 := by
      have := hvalid.2.2.1
      simp only [ntfsBlockSize] at this
      omega
    rw [hn, show ntfsBlockSize - 2 = 510 from rfl, mixSectors_incomplete hold hnew hnext htorn]
    simp [hvalid]
  · simp [hvalid]

theorem Protected.header
    {b : Bytes}
    (h : Protected b p size)
    (hofs : 8 ≤ usaOfs b) :
    usaOfs p = usaOfs b ∧ usaCount p = usaCount b :=
  ⟨leNat_congr (fun k hk => h.frame _ (by omega) (by omega)),
    leNat_congr (fun k hk => h.frame _ (by omega) (by omega))⟩

/-- A record whose array begins in its own description has no next version. -/
theorem not_nextVersion_of_overlap
    (hold : Protected old p size)
    (hofs : usaOfs old = 4 ∨ usaOfs old = 6) :
    ¬ NextVersion old p new := by
  intro hnext
  have husn := hnext.usn
  rw [hold.usn] at husn
  apply nextUsn_ne (le16 old (usaOfs old))
  rw [← husn]
  rcases hofs with hofs | hofs
  · rw [hofs]
    exact hnext.usaOfs
  · rw [hofs]
    exact hnext.usaCount

/--
A later version of a record whose array begins at 0 or 2: the word that the
protection moves onto `usa_ofs` is 1.
-/
def overlapVersion (old p : Bytes) : Bytes :=
  setLe16
    (setLe16 (setLe16 old (usaOfs old) (le16 p (usaOfs old))) (2 - usaOfs old) 0)
    (1022 - 256 * usaOfs old) 1

theorem overlapVersion_next
    (hofs : usaOfs old = 0 ∨ usaOfs old = 2) :
    NextVersion old p (overlapVersion old p) := by
  have hword : ∀ pos, 4 ≤ pos → pos < 8 → le16 (overlapVersion old p) pos = le16 old pos := by
    intro pos hlow hhigh
    rw [overlapVersion, le16_setLe16_of_ne _ _ (by omega), le16_setLe16_of_ne _ _ (by omega),
      le16_setLe16_of_ne _ _ (by omega)]
  refine ⟨hword 4 (by omega) (by omega), hword 6 (by omega) (by omega), ?_⟩
  rw [overlapVersion, le16_setLe16_of_ne _ _ (by omega), le16_setLe16_of_ne _ _ (by omega),
    le16_setLe16, Nat.mod_eq_of_lt (le16_lt _ _)]

/-- The version that overlaps the update sequence is accepted. -/
theorem overlapVersion_accepted
    (hold : Protected old p size)
    (hofs : usaOfs old = 0 ∨ usaOfs old = 2) :
    ∃ p', mstPreWriteFixup (overlapVersion old p) size = .ok p' := by
  have hnext := overlapVersion_next (p := p) hofs
  have hzero : le16 (overlapVersion old p) (2 - usaOfs old) = 0 := by
    rw [overlapVersion, le16_setLe16_of_ne _ _ (by omega), le16_setLe16]
  have hmagic : ¬ (le32 (overlapVersion old p) 0 = magicBaad ∨
      le32 (overlapVersion old p) 0 = magicHole) := by
    rw [le32_eq_le16, magicBaad, magicHole, Nat.zero_add]
    have hlow := le16_lt (overlapVersion old p) 0
    rcases hofs with hofs | hofs
    · rw [hofs, Nat.sub_zero] at hzero
      omega
    · rw [hofs, Nat.sub_self] at hzero
      omega
  have hvalid : isValidRecord size (usaOfs (overlapVersion old p))
      (usaCount (overlapVersion old p)) := by
    rw [hnext.usaOfs, hnext.usaCount]
    exact hold.valid
  unfold mstPreWriteFixup
  rw [if_neg hmagic, if_pos hvalid]
  exact ⟨_, rfl⟩

theorem overlapVersion_usaOfs
    (hnew : Protected (overlapVersion old p) p' size)
    (hofs : usaOfs old = 0 ∨ usaOfs old = 2)
    (hsize : 1024 ≤ size) :
    usaOfs p' = 1 := by
  have hnext := overlapVersion_next (p := p) hofs
  have harray := hnew.array (1 - usaOfs old / 2) (by omega)
  have hpos : usaOfs old + 2 + 2 * (1 - usaOfs old / 2) = 4 := by omega
  have hdata : 510 + 512 * (1 - usaOfs old / 2) = 1022 - 256 * usaOfs old := by omega
  rw [hnext.usaOfs, hpos, hdata, overlapVersion, le16_setLe16] at harray
  exact harray

/--
Between two consecutive writes of a record every mixture of old and new sectors
is rejected with `EIO`, exactly if the update sequence array does not begin in
the first word or the second, or the record is one sector.
-/
theorem torn_rejected_iff
    {b p : Bytes} {size : Nat}
    (h : mstPreWriteFixup b size = .ok p) :
    (∀ new p', NextVersion b p new → mstPreWriteFixup new size = .ok p' →
      ∀ fromNew, Torn size fromNew →
        (mstPostReadFixup (mixSectors p p' fromNew) size).1 = some .eio) ↔
    4 ≤ usaOfs b ∨ size < 1024 := by
  have hold := protected_of_preWriteFixup h
  have heven := hold.valid.2.1
  constructor
  · intro hall
    by_contra hcon
    have hofs : usaOfs b = 0 ∨ usaOfs b = 2 := by omega
    obtain ⟨p', hp'⟩ := overlapVersion_accepted hold hofs
    have hnew := protected_of_preWriteFixup hp'
    have hnext := overlapVersion_next (p := p) hofs
    have htorn : Torn size (fun i => i == 0) :=
      ⟨⟨0, by simp only [ntfsBlockSize]; omega, rfl⟩, 1, by simp only [ntfsBlockSize]; omega, rfl⟩
    have hvalid := (postReadFixup_torn hold hnew hnext htorn).mp (hall _ p' hnext hp' _ htorn)
    have hodd : usaOfs (mixSectors p p' (fun i => i == 0)) = 1 := by
      rw [usaOfs, le16_mixSectors _ _ _ 0 (by omega) (by omega)]
      exact overlapVersion_usaOfs hnew hofs (by omega)
    rw [hodd] at hvalid
    exact absurd hvalid.2.1 (by decide)
  · intro hcond new p' hnext hp' fromNew htorn
    have hnew := protected_of_preWriteFixup hp'
    apply (postReadFixup_torn hold hnew hnext htorn).mpr
    have htwo : 1024 ≤ size := by
      obtain ⟨⟨i, hi, hinew⟩, j, hj, hjold⟩ := htorn
      simp only [ntfsBlockSize] at hi hj
      by_contra hlt
      have : i = j := by omega
      rw [this, hjold] at hinew
      cases hinew
    have hofs : 8 ≤ usaOfs b := by
      by_contra hlt
      exact not_nextVersion_of_overlap hold (by omega) hnext
    obtain ⟨hp1, hp2⟩ := hold.header hofs
    obtain ⟨hq1, hq2⟩ := hnew.header (by rw [hnext.usaOfs]; exact hofs)
    rw [hnext.usaOfs] at hq1
    rw [hnext.usaCount] at hq2
    have hmix1 : usaOfs (mixSectors p p' fromNew) = usaOfs b := by
      rw [usaOfs, le16_mixSectors _ _ _ 0 (by omega) (by omega)]
      split_ifs
      · exact hq1
      · exact hp1
    have hmix2 : usaCount (mixSectors p p' fromNew) = usaCount b := by
      rw [usaCount, le16_mixSectors _ _ _ 0 (by omega) (by omega)]
      split_ifs
      · exact hq2
      · exact hp2
    rw [hmix1, hmix2]
    exact hold.valid

/-- A record of two sectors: magic 0, the array of three words at `ofs`. -/
def twoSectorRecord (ofs usn : Nat) : Bytes :=
  setLe16 (setLe16 (setLe16 (fun _ => 0) ofs usn) 4 ofs) 6 3

theorem torn_rejected_iff_two_sectors :
    ∃ p, mstPreWriteFixup (twoSectorRecord 48 7) 1024 = .ok p ∧
      ((∀ new p', NextVersion (twoSectorRecord 48 7) p new →
        mstPreWriteFixup new 1024 = .ok p' → ∀ fromNew, Torn 1024 fromNew →
          (mstPostReadFixup (mixSectors p p' fromNew) 1024).1 = some .eio) ↔
      4 ≤ usaOfs (twoSectorRecord 48 7) ∨ 1024 < 1024) :=
  ⟨_, rfl, torn_rejected_iff rfl⟩

/-- With the array at 2, a torn record is rejected as invalid, not as torn. -/
theorem torn_overlapping_array :
    ∃ p p', mstPreWriteFixup (twoSectorRecord 2 7) 1024 = .ok p ∧
      NextVersion (twoSectorRecord 2 7) p (twoSectorRecord 2 8) ∧
      mstPreWriteFixup (twoSectorRecord 2 8) 1024 = .ok p' ∧
      Torn 1024 (fun i => i == 1) ∧
      (mstPostReadFixup (mixSectors p p' (fun i => i == 1)) 1024).1 = some .einval := by
  refine ⟨_, _, rfl, ⟨by decide, by decide, by decide⟩, rfl,
    ⟨⟨1, by decide, rfl⟩, 0, by decide, rfl⟩, by decide⟩

end TornWrites

end NtfsPlus.Libntfs
