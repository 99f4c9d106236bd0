import NtfsPlus.Lib.BitField

/-!
# Finding a free MFT record

`ntfs_mft_bitmap_find_free_rec` of `libntfs/mft.c` looks for a clear bit from a start
position to the end, and then from the reserved records to the start, buffer by buffer.

A byte is left over if its first clear bit lies before the start, and taken with its first
clear bit otherwise; the end of the search is compared with the first bit of a byte only.
The search is complete, but in the last byte it may take a clear bit behind the allocated
records.  `findFreeRec_right_iff` says for which bitmaps, sizes and starts it does not.
-/

namespace NtfsPlus.Libntfs

section Model

/-- `RESERVED_MFT_RECORDS`. -/
def reservedMftRecords : Nat := 64

/-- `MFTBMP_ALLOC_SIZE`. -/
def mftbmpAllocSize : Nat := 4096

/-- `ntfs_ffz` of a byte: its first clear bit, or 8. -/
def ffz (b : UInt8) : Nat :=
  ((List.range 8).find? fun i => !b.toNat.testBit i).getD 8

/-- `$MFT/$BITMAP`, and the number of records that `$MFT` has allocated. -/
structure MftBitmap where
  mftRecords : Nat
  initializedSize : Nat
  bits : Bytes

/-- How the loop over a buffer ends. -/
inductive BufferScan where
  | found (rec : Nat)
  | giveUp
  | exhausted

/-- How the search ends. -/
inductive RecSearch where
  | found (rec : Nat)
  | enospc
deriving DecidableEq

/-- The inner loop: at most `n` bytes, from `bit` of the buffer on. -/
def scanBuffer (m : Bytes) (isMft : Bool) (dataPos size passEnd : Nat) : Nat → Nat → BufferScan
  | 0, _ => .exhausted
  | n + 1, bit =>
    if bit < size ∧ dataPos + bit < passEnd then
      if isMft ∧ bit > 400 then
        .giveUp
      else
        let byte := m (dataPos / 8 + bit / 8)
        if byte ≠ 0xff ∧ ffz byte < 8 ∧ bit % 8 ≤ ffz byte then
          .found (dataPos + bit / 8 * 8 + ffz byte)
        else
          scanBuffer m isMft dataPos size passEnd n (bit / 8 * 8 + 8)
    else
      .exhausted

/-- The outer loop. -/
def searchPasses (b : MftBitmap) (isMft : Bool) : Nat → Nat → Nat → Nat → Nat → Option RecSearch
  | 0, _, _, _, _ => none
  | fuel + 1, pass, passStart, passEnd, dataPos =>
    if pass > 2 then
      some .enospc
    else
      let size := min mftbmpAllocSize ((passEnd + 7) / 8 - dataPos / 8)
      match scanBuffer b.bits isMft (dataPos / 8 * 8) (8 * size) passEnd size (dataPos % 8) with
      | .found rec => some (.found rec)
      | .giveUp => some .enospc
      | .exhausted =>
        let next := dataPos / 8 * 8 + 8 * size
        if size ≠ 0 ∧ next < passEnd then
          searchPasses b isMft fuel pass passStart passEnd next
        else if pass = 1 then
          if reservedMftRecords ≥ passStart then
            some .enospc
          else
            searchPasses b isMft fuel 2 reservedMftRecords passStart reservedMftRecords
        else
          searchPasses b isMft fuel (pass + 1) passStart passEnd next

/-- The end of the first pass. -/
def MftBitmap.passEnd (b : MftBitmap) : Nat :=
  min b.mftRecords (8 * b.initializedSize)

/-- The start of the search, from `mft_data_pos` or behind the base record. -/
def firstDataPos (start : Nat) : Nat :=
  max start reservedMftRecords

/-- `ntfs_mft_bitmap_find_free_rec`. -/
def mftBitmapFindFreeRec (b : MftBitmap) (isMft : Bool) (start : Nat) : Option RecSearch :=
  let fuel := 2 * b.passEnd + 4
  if firstDataPos start ≥ b.passEnd ∧ reservedMftRecords ≥ b.passEnd then
    some .enospc
  else if isMft then
    searchPasses b isMft fuel 2 0 b.passEnd 0
  else if firstDataPos start ≥ b.passEnd then
    searchPasses b isMft fuel 2 reservedMftRecords b.passEnd reservedMftRecords
  else
    searchPasses b isMft fuel 1 (firstDataPos start) b.passEnd (firstDataPos start)

/-- What is returned for a record: an `int`. -/
def RecSearch.ret : RecSearch → Int
  | .found rec => Int.bmod rec (2 ^ 32)
  | .enospc => -1

end Model

section Offers

variable {m : Bytes} {p q j n rec passEnd : Nat}

/-- What the byte `j` offers to a search from `p` on. -/
def offer (m : Bytes) (p j : Nat) : Option Nat :=
  if ffz (m j) < 8 ∧ p ≤ 8 * j + ffz (m j) then some (8 * j + ffz (m j)) else none

/-- The first offer of `n` bytes from `j` on. -/
def firstOffer (m : Bytes) (p : Nat) : Nat → Nat → Option Nat
  | 0, _ => none
  | n + 1, j => (offer m p j).or (firstOffer m p n (j + 1))

/-- The first offer of the bytes with bits from `p` to `passEnd`. -/
def passOffer (m : Bytes) (p passEnd : Nat) : Option Nat :=
  firstOffer m p ((passEnd + 7) / 8 - p / 8) (p / 8)

/-- `ffz` finds the first clear bit of a byte. -/
theorem ffz_spec
    (b : UInt8) :
    (∀ i < ffz b, b.toNat.testBit i = true) ∧
      (ffz b < 8 → b ≠ 0xff ∧ b.toNat.testBit (ffz b) = false) := by
  unfold ffz
  cases hfind : (List.range 8).find? fun i => !b.toNat.testBit i with
  | none =>
    rw [List.find?_eq_none] at hfind
    refine ⟨fun i hi => ?_, fun h => absurd h (by decide)⟩
    simpa using hfind i (List.mem_range.mpr hi)
  | some k =>
    rw [List.find?_range_eq_some] at hfind
    obtain ⟨hclear, hk, hset⟩ := hfind
    have hff : ∀ i < 8, (0xff : UInt8).toNat.testBit i = true := by decide
    refine ⟨fun i hi => by simpa using hset i hi, fun _ => ⟨?_, by simpa using hclear⟩⟩
    rintro rfl
    rw [hff k (List.mem_range.mp hk)] at hclear
    cases hclear

/-- The record that a byte offers. -/
theorem offer_eq_some
    (h : offer m p j = some rec) :
    bitAt m rec = false ∧ p ≤ rec ∧ rec / 8 = j := by
  unfold offer at h
  split_ifs at h with hoffer
  cases h
  have hdiv : (8 * j + ffz (m j)) / 8 = j := by omega
  have hmod : (8 * j + ffz (m j)) % 8 = ffz (m j) := by omega
  refine ⟨?_, hoffer.2, hdiv⟩
  rw [bitAt, hdiv, hmod]
  exact ((ffz_spec _).2 hoffer.1).2

/-- A byte with a clear bit makes no offer only if its first clear bit is before the start. -/
theorem exists_clear_of_offer_none
    (h : offer m p (rec / 8) = none)
    (hrec : bitAt m rec = false) :
    ∃ r, bitAt m r = false ∧ rec / 8 * 8 ≤ r ∧ r ≤ rec ∧ r < p := by
  obtain ⟨hset, hclear⟩ := ffz_spec (m (rec / 8))
  have hle : ffz (m (rec / 8)) ≤ rec % 8 := by
    by_contra hlt
    rw [bitAt, hset _ (not_le.mp hlt)] at hrec
    cases hrec
  have hdiv : (8 * (rec / 8) + ffz (m (rec / 8))) / 8 = rec / 8 := by omega
  have hmod : (8 * (rec / 8) + ffz (m (rec / 8))) % 8 = ffz (m (rec / 8)) := by omega
  unfold offer at h
  split_ifs at h with hoffer
  refine ⟨8 * (rec / 8) + ffz (m (rec / 8)), ?_, by omega, by omega, by omega⟩
  rw [bitAt, hdiv, hmod]
  exact (hclear (by omega)).2

theorem firstOffer_congr
    (hp : p ≤ 8 * j)
    (hq : q ≤ 8 * j) :
    firstOffer m p n j = firstOffer m q n j := by
  induction n generalizing j with
  | zero => rfl
  | succ n ih =>
    have hsame : offer m p j = offer m q j := by
      unfold offer
      simp only [show p ≤ 8 * j + ffz (m j) by omega, show q ≤ 8 * j + ffz (m j) by omega]
    rw [firstOffer, firstOffer, hsame, ih (by omega) (by omega)]

/-- The record that a range of bytes offers. -/
theorem firstOffer_eq_some
    (h : firstOffer m p n j = some rec) :
    bitAt m rec = false ∧ p ≤ rec ∧ rec / 8 < j + n := by
  induction n generalizing j with
  | zero => cases h
  | succ n ih =>
    rcases Option.or_eq_some_iff.mp h with hoffer | ⟨_, hrest⟩
    · obtain ⟨hclear, hle, hdiv⟩ := offer_eq_some hoffer
      exact ⟨hclear, hle, by omega⟩
    · obtain ⟨hclear, hle, hdiv⟩ := ih hrest
      exact ⟨hclear, hle, by omega⟩

theorem offer_of_firstOffer_none
    (h : firstOffer m p n j = none)
    {k : Nat}
    (hlo : j ≤ k)
    (hhi : k < j + n) :
    offer m p k = none := by
  induction n generalizing j with
  | zero => omega
  | succ n ih =>
    obtain ⟨hoffer, hrest⟩ := Option.or_eq_none_iff.mp h
    by_cases hk : k = j
    · rwa [hk]
    · exact ih hrest (by omega) (by omega)

/-- The clear bits from `p` on, in bytes without a clear bit before `p`. -/
def Offered (m : Bytes) (p rec : Nat) : Prop :=
  bitAt m rec = false ∧ p ≤ rec ∧ ∀ i, rec / 8 * 8 ≤ i → i < p → bitAt m i = true

/-- The byte of such a bit makes an offer, and not one behind the bit. -/
theorem Offered.offer
    (h : Offered m p rec) :
    ∃ r, offer m p (rec / 8) = some r ∧ r ≤ rec := by
  obtain ⟨hclear, hle, hset⟩ := h
  obtain ⟨hbefore, -⟩ := ffz_spec (m (rec / 8))
  have hffz : ffz (m (rec / 8)) ≤ rec % 8 := by
    by_contra hlt
    rw [bitAt, hbefore _ (not_le.mp hlt)] at hclear
    cases hclear
  cases hoffer : Libntfs.offer m p (rec / 8) with
  | none =>
    obtain ⟨r, hr, hlo, -, hlt⟩ := exists_clear_of_offer_none hoffer hclear
    rw [hset r hlo hlt] at hr
    cases hr
  | some r =>
    unfold Libntfs.offer at hoffer
    split_ifs at hoffer
    cases hoffer
    exact ⟨_, rfl, by omega⟩

theorem offered_of_offer
    (h : offer m p j = some rec) :
    Offered m p rec := by
  obtain ⟨hclear, hle, hdiv⟩ := offer_eq_some h
  refine ⟨hclear, hle, fun i hlo hhi => ?_⟩
  unfold offer at h
  split_ifs at h
  cases h
  rw [bitAt, show i / 8 = j by omega]
  exact (ffz_spec (m j)).1 _ (by omega)

/-- It is offered by the first byte that offers one. -/
theorem firstOffer_first
    (h : firstOffer m p n j = some rec) :
    ∃ k, offer m p k = some rec ∧ ∀ i, j ≤ i → i < k → offer m p i = none := by
  induction n generalizing j with
  | zero => cases h
  | succ n ih =>
    rcases Option.or_eq_some_iff.mp h with hoffer | ⟨hnone, hrest⟩
    · exact ⟨j, hoffer, fun i hlo hhi => absurd hlo (by omega)⟩
    · obtain ⟨k, hk, hbefore⟩ := ih hrest
      refine ⟨k, hk, fun i hlo hhi => ?_⟩
      by_cases hi : i = j
      · rwa [hi]
      · exact hbefore i (by omega) hhi

/-- A pass takes the first bit that is offered. -/
theorem passOffer_least
    (h : passOffer m p passEnd = some rec) :
    Offered m p rec ∧ ∀ r, Offered m p r → rec ≤ r := by
  obtain ⟨k, hk, hbefore⟩ := firstOffer_first h
  have hdiv := (offer_eq_some hk).2.2
  refine ⟨offered_of_offer hk, fun r hr => ?_⟩
  obtain ⟨r', hr', hle⟩ := hr.offer
  rcases lt_trichotomy (r / 8) k with hlt | heq | hgt
  · rw [hbefore _ (Nat.div_le_div_right hr.2.1) hlt] at hr'
    cases hr'
  · rw [heq, hk] at hr'
    cases hr'
    exact hle
  · omega

theorem passOffer_none
    (h : passOffer m p passEnd = none)
    (hr : Offered m p rec) :
    (passEnd + 7) / 8 ≤ rec / 8 := by
  by_contra hlt
  have hlo : p / 8 ≤ rec / 8 := Nat.div_le_div_right hr.2.1
  obtain ⟨r, hoffer, -⟩ := hr.offer
  rw [offer_of_firstOffer_none h hlo (by omega)] at hoffer
  cases hoffer

/-- A range of bytes can be divided. -/
theorem firstOffer_add
    (m : Bytes)
    (p a b j : Nat) :
    firstOffer m p (a + b) j = (firstOffer m p a j).or (firstOffer m p b (j + a)) := by
  induction a generalizing j with
  | zero => simp [firstOffer]
  | succ a ih =>
    rw [Nat.succ_add, firstOffer, firstOffer, ih, Option.or_assoc, Nat.add_right_comm j 1 a,
      Nat.add_assoc j a 1]

/-- The scan of one buffer finds the first offer in it. -/
theorem scanBuffer_eq
    {dataPos bit : Nat}
    (haligned : dataPos % 8 = 0)
    (hend : dataPos / 8 + bit / 8 + n ≤ (passEnd + 7) / 8)
    (hbit : n ≠ 0 → dataPos + bit < passEnd) :
    scanBuffer m false dataPos (8 * (bit / 8 + n)) passEnd n bit =
      match firstOffer m (dataPos + bit) n (dataPos / 8 + bit / 8) with
      | some rec => .found rec
      | none => .exhausted := by
  induction n generalizing bit with
  | zero => rfl
  | succ n ih =>
    have hin : bit < 8 * (bit / 8 + (n + 1)) ∧ dataPos + bit < passEnd :=
      ⟨by omega, hbit (by omega)⟩
    have hnext : (bit / 8 * 8 + 8) / 8 = bit / 8 + 1 := by omega
    have hrest := @ih (bit / 8 * 8 + 8) (by omega) (by omega)
    rw [hnext, Nat.add_assoc (bit / 8), Nat.add_comm 1 n,
      firstOffer_congr (q := dataPos + bit) (by omega) (by omega)] at hrest
    rw [scanBuffer, if_pos hin, if_neg (by simp)]
    rw [hrest, firstOffer, offer]
    have hsame : bit % 8 ≤ ffz (m (dataPos / 8 + bit / 8)) ↔
        dataPos + bit ≤ 8 * (dataPos / 8 + bit / 8) + ffz (m (dataPos / 8 + bit / 8)) := by
      omega
    split_ifs with hoffer
    · rw [if_pos ⟨((ffz_spec _).2 hoffer.1).1, hoffer.1, hsame.mpr hoffer.2⟩]
      congr 1
      omega
    · rw [if_neg (fun h => hoffer ⟨h.2.1, hsame.mp h.2.2⟩)]
      rfl

end Offers

section Search

variable {b : MftBitmap} {fuel pass passStart passEnd dataPos k : Nat}

/-- What follows a pass that found nothing. -/
def afterPass (b : MftBitmap) (fuel pass passStart : Nat) : Option RecSearch :=
  if pass = 1 ∧ reservedMftRecords < passStart then
    searchPasses b false fuel 2 reservedMftRecords passStart reservedMftRecords
  else
    some .enospc

/-- A pass has its first offer in the buffer that is read or behind it. -/
theorem passOffer_split
    {n : Nat}
    (m : Bytes)
    (hn : n ≠ 0 ∧ dataPos / 8 + n ≤ (passEnd + 7) / 8) :
    passOffer m dataPos passEnd = (firstOffer m dataPos n (dataPos / 8)).or
      (passOffer m (dataPos / 8 * 8 + 8 * n) passEnd) := by
  have hnext : (dataPos / 8 * 8 + 8 * n) / 8 = dataPos / 8 + n := by omega
  unfold passOffer
  rw [hnext, firstOffer_congr (p := dataPos / 8 * 8 + 8 * n) (q := dataPos) (by omega)
    (by omega), ← firstOffer_add]
  congr 1
  omega

/-- A pass over the bitmap finds its first offer. -/
theorem searchPasses_eq
    (hpass : 0 < pass ∧ pass ≤ 2)
    (hstart : dataPos < passEnd)
    (hfuel : passEnd - dataPos + (k + 1) ≤ fuel) :
    ∃ fuel', k ≤ fuel' ∧ searchPasses b false fuel pass passStart passEnd dataPos =
      match passOffer b.bits dataPos passEnd with
      | some rec => some (.found rec)
      | none => afterPass b fuel' pass passStart := by
  induction fuel generalizing dataPos with
  | zero => omega
  | succ fuel ih =>
    obtain ⟨n, hn⟩ : ∃ n, n = min mftbmpAllocSize ((passEnd + 7) / 8 - dataPos / 8) := ⟨_, rfl⟩
    have hpos : n ≠ 0 ∧ dataPos / 8 + n ≤ (passEnd + 7) / 8 := by
      unfold mftbmpAllocSize at hn
      omega
    have hscan := @scanBuffer_eq b.bits n passEnd (dataPos / 8 * 8) (dataPos % 8) (by omega)
      (by omega) (by omega)
    have hzero : dataPos % 8 / 8 = 0 := by omega
    have hback : dataPos / 8 * 8 + dataPos % 8 = dataPos := by omega
    have hbyte : dataPos / 8 * 8 / 8 = dataPos / 8 := by omega
    rw [hzero, hback, hbyte, Nat.zero_add] at hscan
    rw [searchPasses, if_neg (by omega), ← hn]
    dsimp only
    rw [hscan, passOffer_split b.bits hpos]
    cases firstOffer b.bits dataPos n (dataPos / 8) with
    | some rec => exact ⟨k, le_rfl, rfl⟩
    | none =>
      dsimp only [Option.or]
      by_cases hmore : dataPos / 8 * 8 + 8 * n < passEnd
      · rw [if_pos ⟨hpos.1, hmore⟩]
        exact ih hmore (by omega)
      · have hover : passOffer b.bits (dataPos / 8 * 8 + 8 * n) passEnd = none := by
          rw [passOffer, show (passEnd + 7) / 8 - (dataPos / 8 * 8 + 8 * n) / 8 = 0 by omega]
          rfl
        rw [if_neg (fun h => hmore h.2), hover]
        refine ⟨fuel, by omega, ?_⟩
        unfold afterPass
        split
        · rename_i hone
          by_cases hagain : reservedMftRecords < passStart
          · rw [if_neg (by omega), if_pos ⟨hone, hagain⟩]
          · rw [if_pos (by omega), if_neg (fun h => hagain h.2)]
        · rename_i hone
          rw [if_neg (fun h => hone h.1)]
          cases fuel with
          | zero => omega
          | succ fuel => rw [searchPasses, if_pos (by omega)]

/-- Where the search begins: at the start, or at the reserved records if it is behind the end. -/
def MftBitmap.searchStart (b : MftBitmap) (start : Nat) : Nat :=
  if firstDataPos start < b.passEnd then firstDataPos start else reservedMftRecords

/-- The record that the passes come to. -/
def offeredRec (b : MftBitmap) (start : Nat) : Option Nat :=
  (passOffer b.bits (b.searchStart start) b.passEnd).or
    (if reservedMftRecords < b.searchStart start then
      passOffer b.bits reservedMftRecords (b.searchStart start)
    else
      none)

theorem searchStart_bounds
    (b : MftBitmap)
    (start : Nat) :
    reservedMftRecords ≤ b.searchStart start ∧
      (reservedMftRecords < b.searchStart start → b.searchStart start < b.passEnd) := by
  have hreserved : reservedMftRecords ≤ firstDataPos start := Nat.le_max_right _ _
  unfold MftBitmap.searchStart
  split_ifs with hin
  · exact ⟨hreserved, fun _ => hin⟩
  · exact ⟨le_rfl, fun h => absurd h (lt_irrefl _)⟩

/-- The search returns the record that is offered. -/
theorem mftBitmapFindFreeRec_eq
    (b : MftBitmap)
    (start : Nat) :
    mftBitmapFindFreeRec b false start = some (match offeredRec b start with
        | some rec => .found rec
        | none => .enospc) := by
  unfold mftBitmapFindFreeRec offeredRec MftBitmap.searchStart
  dsimp only
  rw [if_neg Bool.false_ne_true]
  by_cases hin : firstDataPos start < b.passEnd
  · obtain ⟨fuel, hfuel, hpass⟩ := @searchPasses_eq b (2 * b.passEnd + 4) 1 (firstDataPos start)
      b.passEnd (firstDataPos start) b.passEnd (by decide) hin (by omega)
    rw [if_neg (by omega), if_neg (by omega), if_pos hin, hpass]
    cases passOffer b.bits (firstDataPos start) b.passEnd with
    | some rec => rfl
    | none =>
      dsimp only [Option.or]
      unfold afterPass
      by_cases hagain : reservedMftRecords < firstDataPos start
      · obtain ⟨_, _, hsecond⟩ := @searchPasses_eq b fuel 2 reservedMftRecords
          (firstDataPos start) reservedMftRecords 0 (by decide) hagain (by omega)
        rw [if_pos ⟨rfl, hagain⟩, if_pos hagain, hsecond]
        cases passOffer b.bits reservedMftRecords (firstDataPos start) <;> rfl
      · rw [if_neg (fun h => hagain h.2), if_neg hagain]
  · rw [if_neg hin, if_neg (lt_irrefl _), Option.or_none]
    by_cases hany : reservedMftRecords < b.passEnd
    · obtain ⟨_, _, hpass⟩ := @searchPasses_eq b (2 * b.passEnd + 4) 2 reservedMftRecords
        b.passEnd reservedMftRecords 0 (by decide) hany (by omega)
      rw [if_neg (by omega), if_pos (by omega), hpass]
      cases passOffer b.bits reservedMftRecords b.passEnd <;> rfl
    · have hnone : passOffer b.bits reservedMftRecords b.passEnd = none := by
        unfold passOffer reservedMftRecords
        unfold reservedMftRecords at hany
        rw [show (b.passEnd + 7) / 8 - 64 / 8 = 0 by omega]
        rfl
      rw [if_pos (by omega), hnone]

/-- A record that may be returned. -/
structure FreeRec (b : MftBitmap) (rec : Nat) : Prop where
  clear : bitAt b.bits rec = false
  notReserved : reservedMftRecords ≤ rec
  allocated : rec < b.mftRecords
  inBitmap : rec < 8 * b.initializedSize

/-- The reserved records end with a byte, so every clear bit behind them is offered. -/
theorem offered_reserved
    {m : Bytes} {rec : Nat}
    (hclear : bitAt m rec = false)
    (hle : reservedMftRecords ≤ rec) :
    Offered m reservedMftRecords rec := by
  refine ⟨hclear, hle, fun i hlo hhi => ?_⟩
  unfold reservedMftRecords at hle hhi
  omega

/-- Behind a first pass without an offer, a clear bit means one before the start. -/
theorem exists_clear_before
    {start rec : Nat}
    (hfirst : passOffer b.bits (b.searchStart start) b.passEnd = none)
    (hrec : rec / 8 < (b.passEnd + 7) / 8)
    (hclear : bitAt b.bits rec = false)
    (hle : reservedMftRecords ≤ rec) :
    ∃ r, bitAt b.bits r = false ∧ reservedMftRecords ≤ r ∧ r < b.searchStart start := by
  by_cases hlt : rec < b.searchStart start
  · exact ⟨rec, hclear, hle, hlt⟩
  by_contra hnone
  have hoffered : Offered b.bits (b.searchStart start) rec := by
    refine ⟨hclear, not_lt.mp hlt, fun i hlo hhi => ?_⟩
    by_contra hi
    refine hnone ⟨i, by simpa using hi, ?_, hhi⟩
    unfold reservedMftRecords at hle ⊢
    omega
  exact absurd (passOffer_none hfirst hoffered) (by omega)

/-- Whatever is offered is clear, not reserved and in the bitmap. -/
theorem offeredRec_eq_some
    {start rec : Nat}
    (h : offeredRec b start = some rec) :
    bitAt b.bits rec = false ∧ reservedMftRecords ≤ rec ∧ rec < 8 * b.initializedSize := by
  obtain ⟨hreserved, hstart⟩ := searchStart_bounds b start
  have hend : b.passEnd ≤ 8 * b.initializedSize := Nat.min_le_right _ _
  unfold offeredRec at h
  rcases Option.or_eq_some_iff.mp h with hfirst | ⟨_, hsecond⟩
  · obtain ⟨hclear, hle, hdiv⟩ := firstOffer_eq_some hfirst
    have hlt := Nat.div_le_div_right (c := 8) hle
    exact ⟨hclear, by omega, by omega⟩
  · split_ifs at hsecond with hagain
    obtain ⟨hclear, hle, hdiv⟩ := firstOffer_eq_some hsecond
    have hlt := Nat.div_le_div_right (c := 8) hle
    have := hstart hagain
    exact ⟨hclear, hle, by omega⟩

/-- When none is offered, none is free. -/
theorem not_freeRec_of_offeredRec_none
    {start rec : Nat}
    (h : offeredRec b start = none) :
    ¬FreeRec b rec := by
  intro hfree
  have hrec : rec < b.passEnd := Nat.lt_min.mpr ⟨hfree.allocated, hfree.inBitmap⟩
  obtain ⟨hfirst, hsecond⟩ := Option.or_eq_none_iff.mp h
  obtain ⟨r, hclear, hle, hlt⟩ :=
    exists_clear_before hfirst (by omega) hfree.clear hfree.notReserved
  rw [if_pos (by omega)] at hsecond
  have := passOffer_none hsecond (offered_reserved hclear hle)
  omega

/-- The search ends, returns only records that may be, and gives up only without one. -/
def SearchRight (b : MftBitmap) (start : Nat) : Prop :=
  ∃ r, mftBitmapFindFreeRec b false start = some r ∧
    (∀ rec, r = .found rec → r.ret = rec ∧ FreeRec b rec) ∧
    (r = .enospc → ∀ rec, ¬FreeRec b rec)

theorem searchRight_iff_offeredRec
    (b : MftBitmap)
    (start : Nat) :
    SearchRight b start ↔
      ∀ rec, offeredRec b start = some rec → rec < b.mftRecords ∧ rec < 2 ^ 31 := by
  unfold SearchRight
  rw [mftBitmapFindFreeRec_eq]
  simp only [Option.some.injEq, exists_eq_left']
  cases hoffer : offeredRec b start with
  | none =>
    constructor
    · intro _ rec h
      cases h
    · intro _
      refine ⟨fun rec h => ?_, fun _ rec => not_freeRec_of_offeredRec_none hoffer⟩
      cases h
  | some rec =>
    obtain ⟨hclear, hreserved, hbitmap⟩ := offeredRec_eq_some hoffer
    constructor
    · rintro ⟨hfound, _⟩ rec' hrec'
      cases hrec'
      obtain ⟨hret, hfree⟩ := hfound rec rfl
      have hbound := @Int.bmod_lt rec (2 ^ 32) (by decide)
      have hret' : Int.bmod rec (2 ^ 32) = rec := hret
      exact ⟨hfree.allocated, by omega⟩
    · intro h
      obtain ⟨halloc, hsmall⟩ := h rec rfl
      refine ⟨fun rec' hrec' => ?_, fun hno => by cases hno⟩
      obtain rfl := RecSearch.found.inj hrec'
      have hret : Int.bmod rec (2 ^ 32) = rec := Int.bmod_eq_of_le (by omega) (by omega)
      exact ⟨hret, hclear, hreserved, halloc, hbitmap⟩

/--
The bitmap has a record for the search from `start` on.  If there is a clear bit from the
start on up to the end of the last byte, in a byte without a clear bit before the start, then
there is one below the number of allocated records and 2^31.  If there is none but a clear bit
before the start, then there is one below 2^31.
-/
structure HasRecord (b : MftBitmap) (start : Nat) : Prop where
  behind : ∀ rec, Offered b.bits (b.searchStart start) rec → rec / 8 < (b.passEnd + 7) / 8 →
    ∃ r, Offered b.bits (b.searchStart start) r ∧ r < b.mftRecords ∧ r < 2 ^ 31
  before : (∀ rec, Offered b.bits (b.searchStart start) rec → (b.passEnd + 7) / 8 ≤ rec / 8) →
    ∀ rec, bitAt b.bits rec = false → reservedMftRecords ≤ rec → rec < b.searchStart start →
      ∃ r, bitAt b.bits r = false ∧ reservedMftRecords ≤ r ∧ r < b.searchStart start ∧ r < 2 ^ 31

/--
The search is right if and only if the bits, the sizes and the start are such that it does not
have to take a record behind the allocated ones, or one that is too large for the `int` that
is returned.
-/
theorem findFreeRec_right_iff
    (b : MftBitmap)
    (start : Nat) :
    SearchRight b start ↔ HasRecord b start := by
  rw [searchRight_iff_offeredRec, offeredRec]
  obtain ⟨hreserved, hstart⟩ := searchStart_bounds b start
  have hend : b.passEnd ≤ b.mftRecords := Nat.min_le_left _ _
  cases hfirst : passOffer b.bits (b.searchStart start) b.passEnd with
  | some rec =>
    obtain ⟨hoffered, hleast⟩ := passOffer_least hfirst
    have hin := (firstOffer_eq_some hfirst).2.2
    have hlo := Nat.div_le_div_right (c := 8) hoffered.2.1
    constructor
    · intro h
      refine ⟨fun _ _ _ => ⟨rec, hoffered, h rec rfl⟩, fun hnone => ?_⟩
      exact absurd (hnone rec hoffered) (by omega)
    · intro h rec' hrec'
      cases hrec'
      obtain ⟨r, hr, halloc, hsmall⟩ := h.behind rec hoffered (by omega)
      have := hleast r hr
      omega
  | none =>
    have hnone : ∀ rec, Offered b.bits (b.searchStart start) rec →
        (b.passEnd + 7) / 8 ≤ rec / 8 := fun rec => passOffer_none hfirst
    rw [Option.none_or]
    constructor
    · intro h
      refine ⟨fun rec hrec hin => absurd (hnone rec hrec) (by omega), ?_⟩
      intro _ rec hclear hle hlt
      rw [if_pos (by omega)] at h
      cases hsecond : passOffer b.bits reservedMftRecords (b.searchStart start) with
      | none =>
        have := passOffer_none hsecond (offered_reserved hclear hle)
        omega
      | some r =>
        obtain ⟨hoffered, hleast⟩ := passOffer_least hsecond
        have := hleast rec (offered_reserved hclear hle)
        exact ⟨r, hoffered.1, hoffered.2.1, by omega, (h r hsecond).2⟩
    · intro h rec hrec
      split_ifs at hrec with hagain
      have hlt := hstart hagain
      obtain ⟨hoffered, hleast⟩ := passOffer_least hrec
      have hin := (firstOffer_eq_some hrec).2.2
      have hlo := Nat.div_le_div_right (c := 8) hoffered.2.1
      obtain ⟨r, hclear, hle, hbefore⟩ :=
        exists_clear_before hfirst (by omega) hoffered.1 hoffered.2.1
      obtain ⟨r', hclear', hle', hbefore', hsmall⟩ := h.before hnone r hclear hle hbefore
      have := hleast r' (offered_reserved hclear' hle')
      omega

/-- Seventy records and nine bytes of bitmap, in which only the last two bits are clear. -/
def paddedBitmap : MftBitmap := ⟨70, 9, fun i => if i = 8 then 0x3f else 0xff⟩

/-- The record behind the last one is returned. -/
theorem findFreeRec_behind_end :
    mftBitmapFindFreeRec paddedBitmap false 0 = some (.found 70) ∧ ¬SearchRight paddedBitmap 0 := by
  have hfound : mftBitmapFindFreeRec paddedBitmap false 0 = some (.found 70) := by decide +kernel
  refine ⟨hfound, ?_⟩
  rintro ⟨r, hr, hright, _⟩
  obtain rfl := Option.some.inj (hfound.symm.trans hr)
  exact absurd (hright 70 rfl).2.allocated (by decide)

end Search

end NtfsPlus.Libntfs
