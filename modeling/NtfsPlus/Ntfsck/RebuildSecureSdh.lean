import NtfsPlus.Lib.ByteMemory
import Mathlib.Tactic

/-!
# Rebuilding `$SDH` from `$SDS` and `$SII`

`ntfsck_rebuild_secure_sdh` empties the `$SDH` index and then scans the primary
blocks of the `$SDS` stream.  A descriptor header records its own offset in the
stream; the scan adds an entry for each header that `$SII` lists, goes on behind
the header's own length, and tries the next 16 bytes where there is no header.
It leaves a block at the first slot whose length and id are zero.

`rebuildSecureSdh_iff`: after a rebuild the index has exactly one entry for each
live header and no other, exactly when each of them can be reached from the start
of its block without a slot of zeroes and without a jump over it.
-/

namespace NtfsPlus.Ntfsck

section Rebuild

/-- `NTFSCK_SDS_BLOCK`. -/
def sdsBlock : Nat := 0x40000

/-- `NTFSCK_SDS_ALIGN`. -/
def sdsAlign : Nat := 16

/-- `NTFSCK_SDS_HDR`. -/
def sdsHdr : Nat := 20

/-- An entry that `ntfs_index_lookup` finds in `$SII`. -/
structure SiiEntry where
  length : Nat
  dataOffset : Nat
  bytes : Bytes

/-- An entry of `$SDH`. -/
structure SdhEntry where
  dataOffset : Nat
  dataLength : Nat
  length : Nat
  keyLength : Nat
  ieFlags : Nat
  keyHash : Nat
  keySecurityId : Nat
  hash : Nat
  securityId : Nat
  offset : Nat
  size : Nat
  reservedII : Nat
deriving DecidableEq, Repr

/-- What the rebuild works on, and how its calls answer. -/
structure Secure where
  /-- The `$SDS` stream. -/
  sds : Bytes
  dataSize : Nat
  /-- `ntfs_index_lookup` in `$SII`, if there is a `$SII`. -/
  sii : Option (Nat → Option SiiEntry)
  /-- Whether `$SDH` can be emptied. -/
  initOk : Bool
  /-- Whether the stream can be opened and read into a buffer. -/
  openOk : Bool
  readOk : Nat → Bool
  /-- Whether an insert succeeds, by the number of entries. -/
  addOk : Nat → Bool
  syncOk : Bool

variable (s : Secure)

/-- The fields of the header at a position of the stream. -/
def Secure.hash (x : Nat) : Nat := le32 s.sds x

def Secure.securityId (x : Nat) : Nat := le32 s.sds (x + 4)

def Secure.offset (x : Nat) : Nat := le64 s.sds (x + 8)

def Secure.length (x : Nat) : Nat := le32 s.sds (x + 16)

/-- `ntfsck_secure_is_live`. -/
def secureIsLive (sid offset : Nat) : Bool :=
  match s.sii with
  | none => false
  | some lookup =>
    match lookup sid with
    | none => false
    | some ie =>
      if ie.length < ie.dataOffset + sdsHdr then
        false
      else
        le64 ie.bytes (ie.dataOffset + 8) == offset

/-- The entry that is added for the header at a position of the stream. -/
def sdhEntry (x : Nat) : SdhEntry where
  dataOffset := 0x18
  dataLength := 0x14
  length := 0x30
  keyLength := 0x08
  ieFlags := 0
  keyHash := s.hash x
  keySecurityId := s.securityId x
  hash := s.hash x
  securityId := s.securityId x
  offset := s.offset x
  size := s.length x
  reservedII := 0x00490049

/-- `ntfs_ie_add`, which refuses a key that is there already. -/
def ieAdd (idx : List SdhEntry) (ie : SdhEntry) : Option (List SdhEntry) :=
  if idx.any (fun e => e.keyHash == ie.keyHash && e.keySecurityId == ie.keySecurityId) then
    none
  else if s.addOk idx.length then
    some (idx ++ [ie])
  else
    none

/-- A slot of zeroes, where the scan leaves its block. -/
def ZeroSlot (x : Nat) : Prop :=
  s.length x = 0 ∧ s.securityId x = 0

instance (x : Nat) : Decidable (ZeroSlot s x) :=
  inferInstanceAs (Decidable (_ ∧ _))

/-- What the scan takes for a header. -/
def IsHeader (base plen p : Nat) : Prop :=
  s.offset (base + p) = base + p ∧ sdsHdr ≤ s.length (base + p) ∧ p + s.length (base + p) ≤ plen

instance (base plen p : Nat) : Decidable (IsHeader s base plen p) :=
  inferInstanceAs (Decidable (_ ∧ _))

/-- The slot behind a header. -/
def nextSlot (base p : Nat) : Nat :=
  (p + s.length (base + p) + sdsAlign - 1) / sdsAlign * sdsAlign

/-- The scan of a block, at most `fuel` passes of it. -/
def scanBlock (base plen : Nat) : Nat → Nat → List SdhEntry → Option (List SdhEntry)
  | 0, _, _ => none
  | fuel + 1, p, idx =>
    if p + sdsHdr ≤ plen then
      if ZeroSlot s (base + p) then
        some idx
      else if ¬IsHeader s base plen p then
        scanBlock base plen fuel (p + sdsAlign) idx
      else if !secureIsLive s (s.securityId (base + p)) (s.offset (base + p)) then
        scanBlock base plen fuel (nextSlot s base p) idx
      else
        (ieAdd s idx (sdhEntry s (base + p))).bind (scanBlock base plen fuel (nextSlot s base p))
    else
      some idx

/-- The bytes of a block that the stream has. -/
def blockLen (base : Nat) : Nat :=
  min (s.dataSize - base) sdsBlock

/-- The loop over the primary blocks. -/
def scanBlocks (passes : Nat) : Nat → Nat → List SdhEntry → Option (List SdhEntry)
  | 0, _, _ => none
  | fuel + 1, base, idx =>
    if base < s.dataSize then
      if s.readOk base then
        (scanBlock s base (blockLen s base) passes 0 idx).bind
          (scanBlocks passes fuel (base + 2 * sdsBlock))
      else
        none
    else
      some idx

/--
`ntfsck_rebuild_secure_sdh`, with bounds on the passes of its loops: the entries
of the rebuilt `$SDH`, or none if it fails.
-/
def rebuildSecureSdh (fuel passes : Nat) : Option (List SdhEntry) :=
  if s.sii.isSome && s.initOk && s.openOk then
    (scanBlocks s passes fuel 0 []).bind fun idx => if s.syncOk then some idx else none
  else
    none

end Rebuild

section Live

variable {s : Secure}

/--
A descriptor header at a slot of a primary block that `$SII` lists, with the
block's position and the slot in it.
-/
structure LiveAt (s : Secure) (base p : Nat) : Prop where
  primary : base % (2 * sdsBlock) = 0
  inStream : base < s.dataSize
  aligned : p % sdsAlign = 0
  header : IsHeader s base (blockLen s base) p
  live : secureIsLive s (s.securityId (base + p)) (s.offset (base + p)) = true

/-- The slots that the scan of a block can get to from a slot. -/
inductive Reaches (s : Secure) (base : Nat) : Nat → Nat → Prop where
  | here (p : Nat) : Reaches s base p p
  | gap (p q : Nat) (notZero : ¬ZeroSlot s (base + p))
      (noHeader : ¬IsHeader s base (blockLen s base) p)
      (rest : Reaches s base (p + sdsAlign) q) : Reaches s base p q
  | past (p q : Nat) (header : IsHeader s base (blockLen s base) p)
      (rest : Reaches s base (nextSlot s base p) q) : Reaches s base p q

/-- The index has exactly one entry for each live header, and no other. -/
def Rebuilt (s : Secure) (idx : List SdhEntry) : Prop :=
  idx.Nodup ∧ ∀ e, e ∈ idx ↔ ∃ base p, LiveAt s base p ∧ e = sdhEntry s (base + p)

variable {base p : Nat} {idx idx' : List SdhEntry}

theorem IsHeader.not_zeroSlot
    {plen : Nat}
    (h : IsHeader s base plen p) :
    ¬ZeroSlot s (base + p) := by
  intro hzero
  have hlen := h.2.1
  rw [hzero.1] at hlen
  cases hlen

theorem Reaches.le
    {q : Nat}
    (h : Reaches s base p q) :
    p ≤ q := by
  induction h with
  | here p => exact le_refl p
  | gap p q notZero noHeader rest ih => omega
  | past p q header rest ih =>
    simp only [nextSlot, sdsAlign] at ih
    omega

theorem nextSlot_mod
    (base p : Nat) :
    nextSlot s base p % sdsAlign = 0 :=
  Nat.mul_mod_left _ _

theorem ieAdd_eq_some
    {ie : SdhEntry}
    (h : ieAdd s idx ie = some idx') :
    idx' = idx ++ [ie] ∧ ie ∉ idx := by
  unfold ieAdd at h
  split at h
  · cases h
  · rename_i hkey
    split at h
    · refine ⟨(Option.some.inj h).symm, fun hmem => hkey ?_⟩
      exact List.any_eq_true.mpr ⟨ie, hmem, by simp⟩
    · cases h

/-- The entries that the scan of a block adds. -/
def BlockEntry (s : Secure) (base p : Nat) (e : SdhEntry) : Prop :=
  ∃ q, Reaches s base p q ∧ LiveAt s base q ∧ e = sdhEntry s (base + q)

theorem not_blockEntry_end
    (h : ¬p + sdsHdr ≤ blockLen s base)
    (e : SdhEntry) :
    ¬BlockEntry s base p e := by
  rintro ⟨q, hreach, hlive, rfl⟩
  have hle := hreach.le
  have hhdr := hlive.header.2
  omega

theorem not_blockEntry_zero
    (h : ZeroSlot s (base + p))
    (e : SdhEntry) :
    ¬BlockEntry s base p e := by
  rintro ⟨q, hreach, hlive, rfl⟩
  cases hreach with
  | here _ => exact hlive.header.not_zeroSlot h
  | gap _ _ notZero noHeader rest => exact notZero h
  | past _ _ header rest => exact header.not_zeroSlot h

theorem blockEntry_gap
    (hzero : ¬ZeroSlot s (base + p))
    (hheader : ¬IsHeader s base (blockLen s base) p)
    (e : SdhEntry) :
    BlockEntry s base p e ↔ BlockEntry s base (p + sdsAlign) e := by
  constructor
  · rintro ⟨q, hreach, hlive, rfl⟩
    cases hreach with
    | here _ => exact absurd hlive.header hheader
    | gap _ _ notZero noHeader rest => exact ⟨q, rest, hlive, rfl⟩
    | past _ _ header rest => exact absurd header hheader
  · rintro ⟨q, hreach, hlive, rfl⟩
    exact ⟨q, .gap p q hzero hheader hreach, hlive, rfl⟩

theorem blockEntry_header
    (hheader : IsHeader s base (blockLen s base) p)
    (e : SdhEntry) :
    BlockEntry s base p e ↔ (LiveAt s base p ∧ e = sdhEntry s (base + p)) ∨
        BlockEntry s base (nextSlot s base p) e := by
  constructor
  · rintro ⟨q, hreach, hlive, rfl⟩
    cases hreach with
    | here _ => exact Or.inl ⟨hlive, rfl⟩
    | gap _ _ notZero noHeader rest => exact absurd hheader noHeader
    | past _ _ header rest => exact Or.inr ⟨q, rest, hlive, rfl⟩
  · rintro (⟨hlive, rfl⟩ | ⟨q, hreach, hlive, rfl⟩)
    · exact ⟨p, .here p, hlive, rfl⟩
    · exact ⟨q, .past p q hheader hreach, hlive, rfl⟩

/-- A block adds the entries of the live headers that its scan gets to. -/
theorem scanBlock_spec
    {fuel : Nat}
    (hprimary : base % (2 * sdsBlock) = 0)
    (hbase : base < s.dataSize)
    (hp : p % sdsAlign = 0)
    (hnodup : idx.Nodup)
    (h : scanBlock s base (blockLen s base) fuel p idx = some idx') :
    idx'.Nodup ∧ ∀ e, e ∈ idx' ↔ e ∈ idx ∨ BlockEntry s base p e := by
  induction fuel generalizing p idx with
  | zero => exact absurd h (by simp [scanBlock])
  | succ fuel ih =>
    rw [scanBlock] at h
    split at h
    · split at h
      · rename_i hzero
        cases h
        exact ⟨hnodup, fun e => by simp [not_blockEntry_zero hzero e]⟩
      · rename_i hzero
        by_cases hheader : IsHeader s base (blockLen s base) p
        · rw [if_neg (not_not.mpr hheader)] at h
          cases hlive : secureIsLive s (s.securityId (base + p)) (s.offset (base + p)) with
          | false =>
            rw [hlive] at h
            obtain ⟨hnodup', hmem⟩ := ih (nextSlot_mod base p) hnodup h
            refine ⟨hnodup', fun e => ?_⟩
            rw [hmem, blockEntry_header hheader]
            have hdead : ¬LiveAt s base p := fun hcon => by simp [hcon.live] at hlive
            simp [hdead]
          | true =>
            rw [hlive] at h
            obtain ⟨idx1, hadd, h⟩ := Option.bind_eq_some_iff.mp h
            obtain ⟨rfl, hnew⟩ := ieAdd_eq_some hadd
            have hnodup1 : (idx ++ [sdhEntry s (base + p)]).Nodup := by
              rw [List.nodup_append_comm]
              exact List.nodup_cons.mpr ⟨hnew, hnodup⟩
            obtain ⟨hnodup', hmem⟩ := ih (nextSlot_mod base p) hnodup1 h
            refine ⟨hnodup', fun e => ?_⟩
            have hhere : LiveAt s base p := ⟨hprimary, hbase, hp, hheader, hlive⟩
            rw [hmem, blockEntry_header hheader, List.mem_append, List.mem_singleton]
            simp only [hhere, true_and]
            exact or_assoc
        · rw [if_pos hheader] at h
          have hnext : (p + sdsAlign) % sdsAlign = 0 := by rw [Nat.add_mod_right, hp]
          obtain ⟨hnodup', hmem⟩ := ih hnext hnodup h
          refine ⟨hnodup', fun e => ?_⟩
          rw [hmem, blockEntry_gap hzero hheader]
    · rename_i hroom
      cases h
      exact ⟨hnodup, fun e => by simp [not_blockEntry_end hroom e]⟩

theorem scanBlocks_spec
    {passes fuel : Nat}
    (hprimary : base % (2 * sdsBlock) = 0)
    (hnodup : idx.Nodup)
    (h : scanBlocks s passes fuel base idx = some idx') :
    idx'.Nodup ∧ ∀ e, e ∈ idx' ↔ e ∈ idx ∨ ∃ b, base ≤ b ∧ BlockEntry s b 0 e := by
  induction fuel generalizing base idx with
  | zero => exact absurd h (by simp [scanBlocks])
  | succ fuel ih =>
    rw [scanBlocks] at h
    split at h
    · rename_i hbase
      split at h
      · obtain ⟨idx1, hblock, h⟩ := Option.bind_eq_some_iff.mp h
        obtain ⟨hnodup1, hmem1⟩ := scanBlock_spec hprimary hbase rfl hnodup hblock
        have hnext : (base + 2 * sdsBlock) % (2 * sdsBlock) = 0 := by
          rw [Nat.add_mod_right, hprimary]
        obtain ⟨hnodup', hmem⟩ := ih hnext hnodup1 h
        refine ⟨hnodup', fun e => ?_⟩
        rw [hmem, hmem1, or_assoc]
        apply or_congr_right
        constructor
        · rintro (hentry | ⟨b, hb, hentry⟩)
          · exact ⟨base, le_rfl, hentry⟩
          · exact ⟨b, by omega, hentry⟩
        · rintro ⟨b, hb, hentry⟩
          obtain ⟨q, hreach, hlive, rfl⟩ := hentry
          by_cases heq : b = base
          · subst heq
            exact Or.inl ⟨q, hreach, hlive, rfl⟩
          · refine Or.inr ⟨b, ?_, q, hreach, hlive, rfl⟩
            have hmod := hlive.primary
            simp only [sdsBlock] at hmod hprimary ⊢
            omega
      · cases h
    · cases h
      refine ⟨hnodup, fun e => ?_⟩
      have hnone : ¬∃ b, base ≤ b ∧ BlockEntry s b 0 e := by
        rintro ⟨b, hb, q, _, hlive, _⟩
        have hlt := hlive.inStream
        omega
      simp [hnone]

theorem LiveAt.entry_inj
    {base' p' : Nat}
    (h : LiveAt s base p)
    (h' : LiveAt s base' p')
    (heq : sdhEntry s (base + p) = sdhEntry s (base' + p')) :
    base = base' ∧ p = p' := by
  have hofs : s.offset (base + p) = s.offset (base' + p') := congrArg SdhEntry.offset heq
  rw [h.header.1, h'.header.1] at hofs
  have hmod := h.primary
  have hmod' := h'.primary
  have hin := h.header.2
  have hin' := h'.header.2
  simp only [blockLen, sdsBlock] at hmod hmod' hin hin'
  omega

/--
A rebuild that succeeds leaves exactly one entry for each live header and no
other, exactly when the scan gets to each of them.
-/
theorem rebuildSecureSdh_iff
    (s : Secure)
    (fuel passes : Nat)
    (idx : List SdhEntry)
    (h : rebuildSecureSdh s fuel passes = some idx) :
    Rebuilt s idx ↔ ∀ base p, LiveAt s base p → Reaches s base 0 p := by
  unfold rebuildSecureSdh at h
  split at h
  · obtain ⟨idx1, hscan, h⟩ := Option.bind_eq_some_iff.mp h
    split at h
    · cases h
      obtain ⟨hnodup, hmem⟩ := scanBlocks_spec (Nat.zero_mod _) List.nodup_nil hscan
      constructor
      · rintro ⟨_, hrebuilt⟩ base p hlive
        have hin := (hrebuilt (sdhEntry s (base + p))).mpr ⟨base, p, hlive, rfl⟩
        rcases (hmem _).mp hin with hnil | ⟨b, _, q, hreach, hlive', heq⟩
        · exact absurd hnil List.not_mem_nil
        · obtain ⟨rfl, rfl⟩ := hlive.entry_inj hlive' heq
          exact hreach
      · intro hreach
        refine ⟨hnodup, fun e => ?_⟩
        rw [hmem]
        constructor
        · rintro (hnil | ⟨b, _, q, _, hlive, rfl⟩)
          · exact absurd hnil List.not_mem_nil
          · exact ⟨b, q, hlive, rfl⟩
        · rintro ⟨base, p, hlive, rfl⟩
          exact Or.inr ⟨base, Nat.zero_le base, p, hreach base p hlive, hlive, rfl⟩
    · cases h
  · cases h

/-- The header of a descriptor of 32 bytes, for a position of the stream. -/
def headerAt (hash securityId offset : Nat) : List (Nat × List UInt8) :=
  [(offset, leBytes 4 hash), (offset + 4, leBytes 4 securityId), (offset + 8, leBytes 8 offset),
    (offset + 16, leBytes 4 32)]

/-- A `$SII` entry that points to an offset. -/
def siiEntryTo (offset : Nat) : SiiEntry where
  length := 0x28
  dataOffset := 0x14
  bytes := patch (fun _ => 0) 0x1c (leBytes 8 offset)

/-- Two descriptors, the second at the given offset, both listed in `$SII`. -/
def twoDescriptors (second : Nat) : Secure where
  sds := patches (fun _ => 0) 0 (headerAt 0x11 0x100 0 ++ headerAt 0x22 0x101 second)
  dataSize := second + 32
  sii := some fun sid =>
    if sid = 0x100 then some (siiEntryTo 0)
    else if sid = 0x101 then some (siiEntryTo second)
    else none
  initOk := true
  openOk := true
  readOk := fun _ => true
  addOk := fun _ => true
  syncOk := true

/-- Descriptors that follow each other are both entered. -/
theorem rebuildSecureSdh_iff_packed :
    Rebuilt (twoDescriptors 32)
      [sdhEntry (twoDescriptors 32) 0, sdhEntry (twoDescriptors 32) 32] := by
  refine (rebuildSecureSdh_iff (twoDescriptors 32) 2 3 _ rfl).mpr ?_
  intro base p hlive
  have hbase : base = 0 := by
    have hlt : base < 64 := hlive.inStream
    have hmod := hlive.primary
    simp only [sdsBlock] at hmod
    omega
  subst hbase
  have hp : p = 0 ∨ p = 16 ∨ p = 32 := by
    have hin := hlive.header.2
    have haligned := hlive.aligned
    have hlen : blockLen (twoDescriptors 32) 0 = 64 := rfl
    simp only [sdsHdr, sdsAlign] at hin haligned
    omega
  rcases hp with rfl | rfl | rfl
  · exact .here 0
  · exact absurd hlive.header (by decide +kernel)
  · exact .past 0 32 (by decide +kernel) (.here 32)

/--
A gap of zeroes between two descriptors that `$SII` lists: the rebuild succeeds
and the second descriptor has no entry.
-/
theorem rebuildSecureSdh_zero_gap :
    rebuildSecureSdh (twoDescriptors 64) 2 3 = some [sdhEntry (twoDescriptors 64) 0] ∧
      LiveAt (twoDescriptors 64) 0 64 ∧
      ¬Rebuilt (twoDescriptors 64) [sdhEntry (twoDescriptors 64) 0] := by
  have hlive : LiveAt (twoDescriptors 64) 0 64 :=
    ⟨rfl, by decide, rfl, by decide +kernel, by decide +kernel⟩
  refine ⟨by decide +kernel, hlive, ?_⟩
  rintro ⟨_, hmem⟩
  have hin := (hmem _).mpr ⟨0, 64, hlive, rfl⟩
  have hofs := congrArg SdhEntry.offset (List.mem_singleton.mp hin)
  exact absurd hofs (by decide +kernel)

end Live

end NtfsPlus.Ntfsck
