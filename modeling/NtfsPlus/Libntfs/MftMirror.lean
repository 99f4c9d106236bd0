import NtfsPlus.Libntfs.Mst

/-!
# Writing MFT records and their mirror

`ntfs_mft_records_write` writes records to `$MFT` and those of the first
`mftmirr_size` also to `$MFTMirr`, from a copy of the buffer that was made
before the first write.  Each write protects its own buffer, so each steps the
update sequence numbers on its own.

The two stay equal because the protection of a record is a function of the
bytes of that record (`mstPreWriteFixup_congr`): the same bytes are protected to
the same bytes, whichever buffer they lie in.  `mftRecordsWriteAll_mirrored` is
the result over any sequence of successful writes.
-/

namespace NtfsPlus.Libntfs

section Model

/--
The volume as `ntfs_mft_records_write` sees it.  `mftAt` and `mirrAt` tell where
on the device a byte of `$MFT` and of `$MFTMirr` lies; no two bytes share a
place.
-/
structure MftVolume where
  mftRecordSizeBits : Nat
  mftmirrSize : Int
  /-- `mft_na->initialized_size`. -/
  mftInitialized : Int
  /-- `mftmirr_na->initialized_size`, if `mftmirr_na` is open. -/
  mirrInitialized : Option Int
  mftAt : Nat → Nat
  mirrAt : Nat → Nat
  mftAt_injective : mftAt.Injective
  mirrAt_injective : mirrAt.Injective
  apart : ∀ i j, mftAt i ≠ mirrAt j

/-- `mft_record_size`. -/
def MftVolume.mftRecordSize (vol : MftVolume) : Nat :=
  2 ^ vol.mftRecordSizeBits

/-- Store the first bytes of a buffer where the positions from `pos` on lie. -/
def storeAt (at' : Nat → Nat) (pos : Nat) (buf : Bytes) : Nat → Bytes → Bytes
  | 0, dev => dev
  | n + 1, dev => setByte (storeAt at' pos buf n dev) (at' (pos + n)) (buf n)

/--
`ntfs_attr_pwrite` inside the initialized size of an attribute.  The answer is
the error of the write, or how many bytes could be written.
-/
def attrPwrite
    (at' : Nat → Nat) (answer : Except Errno Nat)
    (pos count : Nat) (b dev : Bytes) :
    Except Errno Nat × Bytes :=
  match answer with
  | .error err => (.error err, dev)
  | .ok n => (.ok (min n count), storeAt at' pos b (min n count) dev)

/--
The loop of `ntfs_attr_mst_pwrite` that protects the records: how many are
protected, the error if it stopped, and the buffer.
-/
def protectRecords (bkSize : Nat) : Nat → Nat → Bytes → Nat × Option Errno × Bytes
  | 0, i, src => (i, none, src)
  | n + 1, i, src =>
    match mstPreWriteFixup (fun j => src (i * bkSize + j)) bkSize with
    | .error err => (i, some err, src)
    | .ok b =>
      protectRecords bkSize n (i + 1)
        (fun j => if i * bkSize ≤ j then b (j - i * bkSize) else src j)

/-- The loop of `ntfs_attr_mst_pwrite` that takes the protection off again. -/
def unprotectRecords (bkSize : Nat) : Nat → Nat → Bytes → Bytes
  | 0, _, src => src
  | n + 1, i, src =>
    let b := mstPostWriteFixup (fun j => src (i * bkSize + j))
    unprotectRecords bkSize n (i + 1)
      (fun j => if i * bkSize ≤ j then b (j - i * bkSize) else src j)

/-- What `ntfs_attr_mst_pwrite` leaves. -/
structure MstWritten where
  /-- The number of complete blocks written. -/
  blocks : Except Errno Nat
  dev : Bytes
  src : Bytes

/-- The part of `ntfs_attr_mst_pwrite` behind the first loop. -/
def writeProtected
    (at' : Nat → Nat) (answer : Except Errno Nat)
    (pos bkCnt bkSize : Nat) (src dev : Bytes) :
    MstWritten :=
  let (written, dev) := attrPwrite at' answer pos (bkCnt * bkSize) src dev
  ⟨written.map (· / bkSize), dev, unprotectRecords bkSize bkCnt 0 src⟩

/-- `ntfs_attr_mst_pwrite`. -/
def attrMstPwrite
    (at' : Nat → Nat) (answer : Except Errno Nat)
    (pos bkCnt bkSize : Nat) (src dev : Bytes) :
    MstWritten :=
  if bkSize % ntfsBlockSize ≠ 0 then
    ⟨.error .einval, dev, src⟩
  else if bkCnt = 0 then
    ⟨.ok 0, dev, src⟩
  else
    let (bkCnt, err, src) := protectRecords bkSize bkCnt 0 src
    match err with
    | some err =>
      -- abort the write at this position
      if bkCnt = 0 then
        ⟨.error err, dev, src⟩
      else
        writeProtected at' answer pos bkCnt bkSize src dev
    | none => writeProtected at' answer pos bkCnt bkSize src dev

/-- `res` after a write that should have written `count` records. -/
def writeResult (bw : Except Errno Nat) (count : Nat) : Option Errno :=
  match bw with
  | .error err => some err
  | .ok n => if n = count then none else some .eio

/-- One call of `ntfs_mft_records_write`, with what the device answers. -/
structure MftWrite where
  mref : Nat
  count : Int
  b : Bytes
  /-- What lies behind the copied records in the temporary buffer. -/
  heap : Bytes
  answer : Except Errno Nat
  mirrAnswer : Except Errno Nat

/-- `memcpy(bmirr, b, size)` into fresh memory. -/
def copyOf (b heap : Bytes) (size : Nat) : Bytes :=
  fun j => if j < size then b j else heap j

/-- What `ntfs_mft_records_write` leaves: the error if any, device and buffer. -/
structure MftWritten where
  res : Option Errno
  dev : Bytes
  b : Bytes

/-- The part of `ntfs_mft_records_write` that syncs the mirror after the write. -/
def mirrorSync
    (vol : MftVolume) (w : MftWrite) (pos cnt : Nat) (bmirr : Bytes)
    (r : MstWritten) :
    MftWritten :=
  let res := writeResult r.blocks w.count.toNat
  match r.blocks with
  | .error _ => ⟨res, r.dev, r.src⟩
  | .ok bw =>
    if bw = 0 then
      ⟨res, r.dev, r.src⟩
    else
      let cnt := min bw cnt
      let mirr := attrMstPwrite vol.mirrAt w.mirrAnswer pos cnt vol.mftRecordSize bmirr r.dev
      ⟨(writeResult mirr.blocks cnt).or res, mirr.dev, r.src⟩

/-- `ntfs_mft_records_write`. -/
def mftRecordsWrite (vol : MftVolume) (w : MftWrite) (dev : Bytes) : MftWritten :=
  let m : Nat := w.mref % 2 ^ 48
  let pos := m * vol.mftRecordSize
  let written := attrMstPwrite vol.mftAt w.answer pos w.count.toNat vol.mftRecordSize w.b dev
  let cnt := min (vol.mftmirrSize - m) w.count
  if vol.mftmirrSize ≤ 0 ∨ w.count < 0 then
    ⟨some .einval, dev, w.b⟩
  else if vol.mftInitialized / 2 ^ vol.mftRecordSizeBits < m + w.count then
    ⟨some .espipe, dev, w.b⟩
  else if m < vol.mftmirrSize then
    match vol.mirrInitialized with
    | none => ⟨some .einval, dev, w.b⟩
    | some mirrInitialized =>
      if mirrInitialized / 2 ^ vol.mftRecordSizeBits < m + cnt then
        ⟨some .espipe, dev, w.b⟩
      else
        mirrorSync vol w pos cnt.toNat (copyOf w.b w.heap (cnt.toNat * vol.mftRecordSize)) written
  else
    ⟨writeResult written.blocks w.count.toNat, written.dev, written.src⟩

/-- A sequence of writes that all succeed. -/
def mftRecordsWriteAll (vol : MftVolume) : List MftWrite → Bytes → Option Bytes
  | [], dev => some dev
  | w :: ws, dev =>
    let written := mftRecordsWrite vol w dev
    if written.res.isSome then
      none
    else
      mftRecordsWriteAll vol ws written.dev

/-- `$MFTMirr` holds the same bytes as the first records of `$MFT`. -/
def Mirrored (vol : MftVolume) (dev : Bytes) : Prop :=
  ∀ i : Nat, (i : Int) < vol.mftmirrSize * vol.mftRecordSize →
    dev (vol.mftAt i) = dev (vol.mirrAt i)

end Model

section Protection

variable {b b' p : Bytes} {size : Nat}

theorem setLe16_congr
    (pos v : Nat)
    {j : Nat}
    (h : b j = b' j) :
    setLe16 b pos v j = setLe16 b' pos v j := by
  unfold setLe16 setByte
  split_ifs <;> first | rfl | exact h

theorem protectSectors_congr
    (usn n usaPos dataPos : Nat)
    (hroom : dataPos + 512 * n ≤ size + 510)
    (h : ∀ j < size, b j = b' j) :
    ∀ j < size, protectSectors usn n usaPos dataPos b j =
      protectSectors usn n usaPos dataPos b' j := by
  induction n generalizing usaPos dataPos b b' with
  | zero => exact h
  | succ n ih =>
    have hword : le16 b dataPos = le16 b' dataPos := by
      apply leNat_congr
      intro i hi
      exact h _ (by omega)
    apply ih
    · unfold ntfsBlockSize
      omega
    · intro j hj
      rw [hword]
      exact setLe16_congr _ _ (setLe16_congr _ _ (h j hj))

theorem protectSectors_frame
    (usn n usaPos dataPos : Nat)
    (b : Bytes)
    (husa : usaPos + 2 * n + 2 ≤ size)
    (hroom : dataPos + 512 * n ≤ size + 510)
    {j : Nat}
    (hj : size ≤ j) :
    protectSectors usn n usaPos dataPos b j = b j := by
  induction n generalizing usaPos dataPos b with
  | zero => rfl
  | succ n ih =>
    rw [protectSectors, ih]
    · rw [setLe16_of_ne _ _ (by omega), setLe16_of_ne _ _ (by omega)]
    · omega
    · unfold ntfsBlockSize
      omega

theorem isValidRecord_room
    {ofs cnt : Nat}
    (hsize : 0 < size)
    (h : isValidRecord size ofs cnt) :
    ntfsBlockSize - 2 + 512 * (cnt - 1) ≤ size + 510 ∧ ofs + 2 * (cnt - 1) + 2 ≤ size ∧
      ofs + 2 ≤ size := by
  obtain ⟨hmod, -, hcnt, hend⟩ := h
  unfold ntfsBlockSize at *
  omega

/-- The fixup depends on the bytes of the record only. -/
theorem mstPreWriteFixup_congr
    (hmod : size % ntfsBlockSize = 0)
    (hsize : 0 < size)
    (h : ∀ j < size, b j = b' j)
    (hok : mstPreWriteFixup b size = .ok p) :
    ∃ p', mstPreWriteFixup b' size = .ok p' ∧ ∀ j < size, p j = p' j := by
  have hlarge : 512 ≤ size := by
    unfold ntfsBlockSize at hmod
    omega
  have hmagic : le32 b 0 = le32 b' 0 := leNat_congr fun i hi => h _ (by omega)
  have hofs : usaOfs b = usaOfs b' := leNat_congr fun i hi => h _ (by omega)
  have hcnt : usaCount b = usaCount b' := leNat_congr fun i hi => h _ (by omega)
  unfold mstPreWriteFixup at hok ⊢
  rw [hmagic] at hok
  by_cases hbad : le32 b' 0 = magicBaad ∨ le32 b' 0 = magicHole
  · rw [if_pos hbad] at hok
    cases hok
  rw [if_neg hbad] at hok ⊢
  by_cases hvalid : isValidRecord size (usaOfs b') (usaCount b')
  · obtain ⟨hdata, -, husn⟩ := isValidRecord_room hsize hvalid
    have hword : le16 b (usaOfs b') = le16 b' (usaOfs b') :=
      leNat_congr fun i hi => h _ (by omega)
    rw [hofs, hcnt, if_pos hvalid, hword] at hok
    rw [if_pos hvalid]
    refine ⟨_, rfl, ?_⟩
    rw [← Except.ok.inj hok]
    apply protectSectors_congr
    · exact hdata
    · exact fun j hj => setLe16_congr _ _ (h j hj)
  · rw [hofs, hcnt, if_neg hvalid] at hok
    cases hok

/-- And changes no others. -/
theorem mstPreWriteFixup_frame
    (hsize : 0 < size)
    (hok : mstPreWriteFixup b size = .ok p)
    {j : Nat}
    (hj : size ≤ j) :
    p j = b j := by
  unfold mstPreWriteFixup at hok
  split_ifs at hok with hbad hvalid
  obtain ⟨hdata, husa, husn⟩ := isValidRecord_room hsize hvalid
  rw [← Except.ok.inj hok, protectSectors_frame _ _ _ _ _ husa hdata hj,
    setLe16_of_ne _ _ (by omega)]

end Protection

section Records

variable {size : Nat}

/-- The record `r` of a buffer, as its functions see it. -/
def recordOf (src : Bytes) (size r : Nat) : Bytes :=
  fun j => src (r * size + j)

/-- `dst` holds the records from `i` to `k` of `src`, protected. -/
def ProtectedFrom (size i k : Nat) (src dst : Bytes) : Prop :=
  ∀ r, i ≤ r → r < k → ∃ p, mstPreWriteFixup (recordOf src size r) size = .ok p ∧
    ∀ j < size, dst (r * size + j) = p j

/-- The records that are protected before one is refused. -/
theorem protectRecords_spec
    (hmod : size % ntfsBlockSize = 0)
    (hsize : 0 < size)
    (n i : Nat)
    (src : Bytes) :
    i ≤ (protectRecords size n i src).1 ∧ (protectRecords size n i src).1 ≤ i + n ∧
      ProtectedFrom size i (protectRecords size n i src).1 src (protectRecords size n i src).2.2 ∧
      ∀ j < i * size, (protectRecords size n i src).2.2 j = src j := by
  induction n generalizing i src with
  | zero =>
    refine ⟨le_rfl, le_rfl, ?_, fun _ _ => rfl⟩
    intro r hlo hhi
    have : r < i := hhi
    omega
  | succ n ih =>
    rw [protectRecords]
    cases hfix : mstPreWriteFixup (fun j => src (i * size + j)) size with
    | error err =>
      refine ⟨le_rfl, by simp, ?_, fun _ _ => rfl⟩
      intro r hlo hhi
      have : r < i := hhi
      omega
    | ok p =>
      dsimp only
      set src' : Bytes := fun j => if i * size ≤ j then p (j - i * size) else src j
        with hsrc'
      obtain ⟨hlo, hhi, hprot, hbefore⟩ := ih (i + 1) src'
      have hnext : (i + 1) * size = i * size + size := by ring
      refine ⟨by omega, by omega, ?_, ?_⟩
      · intro r hr hr'
        by_cases hri : r = i
        · -- the record of this pass is behind the loop from now on
          subst hri
          refine ⟨p, hfix, fun j hj => ?_⟩
          rw [hbefore _ (by omega), hsrc']
          simp
        · obtain ⟨p', hp', hbytes⟩ := hprot r (by omega) hr'
          have hfar : (i + 1) * size ≤ r * size := Nat.mul_le_mul_right size (by omega)
          have hsame : ∀ j < size, recordOf src' size r j = recordOf src size r j := by
            intro j _
            have hj : i * size + (r * size + j - i * size) = r * size + j := by omega
            simp only [recordOf, hsrc']
            rw [if_pos (by omega), mstPreWriteFixup_frame hsize hfix (by omega), hj]
          obtain ⟨q, hq, hpq⟩ := mstPreWriteFixup_congr hmod hsize hsame hp'
          exact ⟨q, hq, fun j hj => (hbytes j hj).trans (hpq j hj)⟩
      · intro j hj
        rw [hbefore j (by omega), hsrc']
        simp only
        rw [if_neg (by omega)]

theorem ProtectedFrom.congr
    {i k : Nat} {src src' dst dst' : Bytes}
    (hmod : size % ntfsBlockSize = 0)
    (hsize : 0 < size)
    (h : ProtectedFrom size i k src dst)
    (h' : ProtectedFrom size i k src' dst')
    {r j : Nat}
    (hr : i ≤ r)
    (hr' : r < k)
    (hj : j < size)
    (hsame : ∀ j < size, src (r * size + j) = src' (r * size + j)) :
    dst (r * size + j) = dst' (r * size + j) := by
  obtain ⟨p, hp, hbytes⟩ := h r hr hr'
  obtain ⟨p', hp', hbytes'⟩ := h' r hr hr'
  obtain ⟨q, hq, hpq⟩ := mstPreWriteFixup_congr hmod hsize hsame hp
  obtain rfl : q = p' := Except.ok.inj (hq.symm.trans hp')
  rw [hbytes j hj, hbytes' j hj, hpq j hj]

end Records

section Storing

variable {at' : Nat → Nat} {pos : Nat} {buf dev : Bytes}

variable {n cnt size : Nat} {answer : Except Errno Nat} {src : Bytes}

theorem storeAt_at
    (hinj : at'.Injective)
    {j : Nat}
    (hj : j < n) :
    storeAt at' pos buf n dev (at' (pos + j)) = buf j := by
  induction n with
  | zero => omega
  | succ n ih =>
    rw [storeAt]
    by_cases hlast : j = n
    · rw [hlast, setByte_same]
    · have hne : at' (pos + j) ≠ at' (pos + n) := by
        intro heq
        have := hinj heq
        omega
      rw [setByte_of_ne _ _ hne, ih (by omega)]

theorem storeAt_of_ne
    {a : Nat}
    (h : ∀ j < n, at' (pos + j) ≠ a) :
    storeAt at' pos buf n dev a = dev a := by
  induction n with
  | zero => rfl
  | succ n ih =>
    rw [storeAt, setByte_of_ne _ _ (h n (by omega)).symm, ih (fun j hj => h j (by omega))]

theorem storeAt_outside
    (hinj : at'.Injective)
    {i : Nat}
    (hi : i < pos ∨ pos + n ≤ i) :
    storeAt at' pos buf n dev (at' i) = dev (at' i) := by
  apply storeAt_of_ne
  intro j hj heq
  have := hinj heq
  omega

/-- A write that succeeds stores all records. -/
theorem writeProtected_ok
    {k : Nat}
    (hsize : 0 < size)
    (hle : k ≤ cnt)
    (h : (writeProtected at' answer pos k size src dev).blocks = .ok cnt) :
    k = cnt ∧ (writeProtected at' answer pos k size src dev).dev =
      storeAt at' pos src (cnt * size) dev := by
  unfold writeProtected attrPwrite at h ⊢
  cases answer with
  | error err => cases h
  | ok n =>
    have hblocks : min n (k * size) / size = cnt := Except.ok.inj h
    have hall : cnt * size ≤ min n (k * size) := by
      rw [← hblocks]
      exact Nat.div_mul_le_self _ _
    obtain rfl : k = cnt := by
      have : cnt ≤ k := Nat.le_of_mul_le_mul_right (by omega) hsize
      omega
    refine ⟨rfl, ?_⟩
    dsimp only
    rw [show min n (k * size) = k * size by omega]

/-- So does a protected write to an attribute. -/
theorem attrMstPwrite_ok
    (hsize : 0 < size)
    (h : (attrMstPwrite at' answer pos cnt size src dev).blocks = .ok cnt) :
    size % ntfsBlockSize = 0 ∧ ∃ dst, ProtectedFrom size 0 cnt src dst ∧
      (attrMstPwrite at' answer pos cnt size src dev).dev =
        storeAt at' pos dst (cnt * size) dev := by
  unfold attrMstPwrite at h ⊢
  by_cases hmod : size % ntfsBlockSize = 0
  swap
  · rw [if_pos hmod] at h
    cases h
  rw [if_neg (by simpa using hmod)] at h ⊢
  refine ⟨hmod, ?_⟩
  by_cases hzero : cnt = 0
  · subst hzero
    refine ⟨src, ?_, by simp [storeAt]⟩
    intro r _ hr
    omega
  rw [if_neg hzero] at h ⊢
  obtain ⟨-, hle, hprot, -⟩ := protectRecords_spec hmod hsize cnt 0 src
  generalize protectRecords size cnt 0 src = r at h hle hprot ⊢
  obtain ⟨k, err, dst⟩ := r
  rw [Nat.zero_add] at hle
  cases err with
  | none =>
    obtain ⟨rfl, hdev⟩ := writeProtected_ok hsize hle h
    exact ⟨dst, hprot, hdev⟩
  | some err =>
    dsimp only at h ⊢
    by_cases hnone : k = 0
    · rw [if_pos hnone] at h
      cases h
    · rw [if_neg hnone] at h ⊢
      obtain ⟨rfl, hdev⟩ := writeProtected_ok hsize hle h
      exact ⟨dst, hprot, hdev⟩

end Storing

section Mirror

variable {vol : MftVolume}

theorem writeResult_eq_none
    {bw : Except Errno Nat} {count : Nat} :
    writeResult bw count = none ↔ bw = .ok count := by
  cases bw with
  | error err => simp [writeResult]
  | ok n => simp [writeResult]

theorem MftVolume.mftRecordSize_pos
    (vol : MftVolume) :
    0 < vol.mftRecordSize :=
  Nat.two_pow_pos _

/-- Storing the same bytes at the same positions of both keeps them equal. -/
theorem Mirrored.store_both
    {dev dst dst' : Bytes} {pos n k : Nat}
    (h : Mirrored vol dev)
    (hle : k ≤ n)
    (hend : k < n → vol.mftmirrSize * vol.mftRecordSize ≤ pos + k)
    (hsame : ∀ j < k, dst j = dst' j) :
    Mirrored vol (storeAt vol.mirrAt pos dst' k (storeAt vol.mftAt pos dst n dev)) := by
  intro i hi
  rw [storeAt_of_ne (fun j _ => (vol.apart i (pos + j)).symm)]
  by_cases hin : pos ≤ i ∧ i < pos + k
  · obtain ⟨j, rfl⟩ := Nat.exists_eq_add_of_le hin.1
    rw [storeAt_at vol.mftAt_injective (by omega), storeAt_at vol.mirrAt_injective (by omega),
      hsame j (by omega)]
  · have hout : i < pos ∨ pos + n ≤ i := by
      by_cases hkn : k < n
      · omega
      · omega
    rw [storeAt_outside vol.mftAt_injective hout, storeAt_outside vol.mirrAt_injective (by omega),
      storeAt_of_ne (fun j _ => vol.apart (pos + j) i)]
    exact h i hi

/-- The copy is protected to the bytes that the records themselves are. -/
theorem copy_protected
    {size cnt k : Nat} {b heap dst dst' : Bytes}
    (hmod : size % ntfsBlockSize = 0)
    (hsize : 0 < size)
    (hle : k ≤ cnt)
    (h : ProtectedFrom size 0 cnt b dst)
    (h' : ProtectedFrom size 0 k (copyOf b heap (k * size)) dst')
    {j : Nat}
    (hj : j < k * size) :
    dst j = dst' j := by
  have hrec : j / size < k := Nat.div_lt_of_lt_mul (by rwa [Nat.mul_comm])
  have hin : j % size < size := Nat.mod_lt j hsize
  have hsplit : j / size * size + j % size = j := Nat.div_add_mod' j size
  have hshort : ProtectedFrom size 0 k b dst := fun r hr hr' => h r hr (by omega)
  have hsame : ∀ i < size, b (j / size * size + i) =
      copyOf b heap (k * size) (j / size * size + i) := by
    intro i hi
    have hend : (j / size + 1) * size ≤ k * size := Nat.mul_le_mul_right size hrec
    rw [Nat.add_mul] at hend
    rw [copyOf, if_pos (by omega)]
  have hbyte := hshort.congr hmod hsize h' (Nat.zero_le _) hrec hin hsame
  rwa [hsplit] at hbyte

theorem Mirrored.mirrorSync
    {w : MftWrite} {dev : Bytes} {m k : Nat}
    (h : Mirrored vol dev)
    (hle : k ≤ w.count.toNat)
    (hend : k < w.count.toNat → vol.mftmirrSize = m + k)
    (hok : (mirrorSync vol w (m * vol.mftRecordSize) k (copyOf w.b w.heap (k * vol.mftRecordSize))
      (attrMstPwrite vol.mftAt w.answer (m * vol.mftRecordSize) w.count.toNat
        vol.mftRecordSize w.b dev)).res = none) :
    Mirrored vol (Libntfs.mirrorSync vol w (m * vol.mftRecordSize) k
      (copyOf w.b w.heap (k * vol.mftRecordSize))
      (attrMstPwrite vol.mftAt w.answer (m * vol.mftRecordSize) w.count.toNat
        vol.mftRecordSize w.b dev)).dev := by
  have hsize := vol.mftRecordSize_pos
  unfold Libntfs.mirrorSync at hok ⊢
  cases hblocks : (attrMstPwrite vol.mftAt w.answer (m * vol.mftRecordSize)
      w.count.toNat vol.mftRecordSize w.b dev).blocks with
  | error err => simp [hblocks, writeResult] at hok
  | ok bw =>
    simp only [hblocks] at hok ⊢
    by_cases hzero : bw = 0
    · -- nothing to write
      rw [if_pos hzero] at hok ⊢
      obtain rfl := Except.ok.inj (writeResult_eq_none.mp hok)
      obtain ⟨-, dst, -, hdev⟩ := attrMstPwrite_ok hsize hblocks
      rw [hdev, hzero, Nat.zero_mul]
      exact h
    · rw [if_neg hzero] at hok ⊢
      obtain ⟨hmirr, hres⟩ := Option.or_eq_none_iff.mp hok
      obtain rfl := Except.ok.inj (writeResult_eq_none.mp hres)
      rw [Nat.min_eq_right hle] at hmirr ⊢
      obtain ⟨hmod, dst, hdst, hdev⟩ := attrMstPwrite_ok hsize hblocks
      obtain ⟨-, dst', hdst', hdev'⟩ :=
        attrMstPwrite_ok hsize (writeResult_eq_none.mp hmirr)
      rw [hdev', hdev]
      apply h.store_both
      · exact Nat.mul_le_mul_right _ hle
      · intro hlt
        rw [hend (Nat.lt_of_mul_lt_mul_right hlt)]
        push_cast
        rw [add_mul]
      · exact fun j hj => copy_protected hmod hsize hle hdst hdst' hj

/-- A write that succeeds keeps the mirror in step. -/
theorem Mirrored.mftRecordsWrite
    {w : MftWrite} {dev : Bytes}
    (h : Mirrored vol dev)
    (hok : (mftRecordsWrite vol w dev).res = none) :
    Mirrored vol (Libntfs.mftRecordsWrite vol w dev).dev := by
  have hsize := vol.mftRecordSize_pos
  unfold Libntfs.mftRecordsWrite at hok ⊢
  generalize w.mref % 2 ^ 48 = m at hok ⊢
  by_cases hargs : vol.mftmirrSize ≤ 0 ∨ w.count < 0
  · rw [if_pos hargs] at hok
    cases hok
  rw [if_neg hargs] at hok ⊢
  by_cases hspipe : vol.mftInitialized / 2 ^ vol.mftRecordSizeBits < m + w.count
  · rw [if_pos hspipe] at hok
    cases hok
  rw [if_neg hspipe] at hok ⊢
  by_cases hmirr : (m : Int) < vol.mftmirrSize
  · rw [if_pos hmirr] at hok ⊢
    cases hinit : vol.mirrInitialized with
    | none =>
      rw [hinit] at hok
      cases hok
    | some mirrInitialized =>
      rw [hinit] at hok
      dsimp only at hok ⊢
      by_cases hroom : mirrInitialized / 2 ^ vol.mftRecordSizeBits <
          m + min (vol.mftmirrSize - m) w.count
      · rw [if_pos hroom] at hok
        cases hok
      · rw [if_neg hroom] at hok ⊢
        exact h.mirrorSync (by omega) (by omega) hok
  · -- records behind the mirrored ones
    rw [if_neg hmirr] at hok ⊢
    obtain ⟨-, dst, -, hdev⟩ := attrMstPwrite_ok hsize (writeResult_eq_none.mp hok)
    rw [hdev]
    refine @Mirrored.store_both vol dev dst dst _ _ 0 h (Nat.zero_le _) ?_ (by omega)
    intro _
    have hbehind : vol.mftmirrSize * vol.mftRecordSize ≤ (m : Int) * vol.mftRecordSize :=
      mul_le_mul_of_nonneg_right (by omega) (by omega)
    simpa using hbehind

/-- The mirror stays equal over every sequence of successful writes. -/
theorem mftRecordsWriteAll_mirrored
    (vol : MftVolume)
    (writes : List MftWrite)
    (dev dev' : Bytes)
    (h : Mirrored vol dev)
    (hrun : mftRecordsWriteAll vol writes dev = some dev') :
    Mirrored vol dev' := by
  induction writes generalizing dev with
  | nil =>
    cases hrun
    exact h
  | cons w ws ih =>
    rw [mftRecordsWriteAll] at hrun
    split_ifs at hrun with hfail
    exact ih _ (h.mftRecordsWrite (Option.not_isSome_iff_eq_none.mp hfail)) hrun

/-- Two mirrored records of one sector, at even and odd places of the device. -/
def interleavedVolume : MftVolume where
  mftRecordSizeBits := 9
  mftmirrSize := 2
  mftInitialized := 4096
  mirrInitialized := some 1024
  mftAt := fun i => 2 * i
  mirrAt := fun i => 2 * i + 1
  mftAt_injective := fun i j h => by simpa using h
  mirrAt_injective := fun i j h => by simpa using h
  apart := fun i j h => by omega

/-- Three records from record 1 on, of which only the first is mirrored. -/
def overlappingWrite : MftWrite where
  mref := 1
  count := 3
  b := fun j => if j % 512 = 4 then 48 else if j % 512 = 6 then 2 else 0
  heap := fun _ => 0
  answer := .ok 1536
  mirrAnswer := .ok 512

theorem mftRecordsWriteAll_mirrored_overlapping :
    (mftRecordsWriteAll interleavedVolume [overlappingWrite, overlappingWrite]
        (fun _ => 0)).isSome ∧
      Mirrored interleavedVolume (mftRecordsWrite interleavedVolume overlappingWrite
          (mftRecordsWrite interleavedVolume overlappingWrite (fun _ => 0)).dev).dev := by
  refine ⟨rfl, ?_⟩
  exact mftRecordsWriteAll_mirrored interleavedVolume [overlappingWrite, overlappingWrite]
    (fun _ => 0) _ (fun _ _ => rfl) rfl

end Mirror

end NtfsPlus.Libntfs
