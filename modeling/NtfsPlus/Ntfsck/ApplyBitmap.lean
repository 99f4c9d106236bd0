import NtfsPlus.Lib.BitField

/-!
# Writing the fsck bitmap over the bitmap on disk

`ntfsck_apply_bitmap` goes over a bitmap in windows of `NTFS_BUF_SIZE` bytes.
Before a final apply of the cluster bitmap another pass over the same windows
(`ntfsck_bitmap_count_to_free`) counts the clusters that would be released, and
`ntfsck_bitmap_consensus_block` decides whether so many may be.

If a read fails while counting, the count is -1 and nothing is blocked.
`applyBitmap_outcome_iff` says that this is the only way the apply can go wrong.
-/

namespace NtfsPlus.Ntfsck

section Model

/-- `NTFS_BUF_SIZE`. -/
def bmpWindowSize : Nat := 8192

/-- The windows from `pos` on, each with its length, as both passes step through them. -/
def bitmapWindowsFrom : Nat → Nat → Nat → Nat → List (Nat × Nat)
  | 0, _, _, _ => []
  | fuel + 1, pos, count, remain =>
    let remain' := remain - count
    let count' := if remain' ≠ 0 ∧ remain' < bmpWindowSize then remain' else count
    (pos, count) ::
      if remain' = 0 then [] else bitmapWindowsFrom fuel (pos + count) count' remain'

/-- The windows of a bitmap of `total` bytes; no loop runs longer than that. -/
def bitmapWindows (total : Nat) : List (Nat × Nat) :=
  bitmapWindowsFrom (total + 1) 0 (if total < bmpWindowSize then total else bmpWindowSize) total

/-- Which of the two bitmaps, `vol->lcnbmp_na` or `vol->mftbmp_na`. -/
inductive BitmapAttr where
  | lcnbmp
  | mftbmp
deriving DecidableEq, Repr

/-- `FSCK_BMP_INITIAL` and `FSCK_BMP_FINAL`. -/
inductive FsckBmp where
  | initial
  | final
deriving DecidableEq, Repr

/-- What the device answers, by the position of the window. -/
structure BitmapIo where
  countFails : Nat → Bool
  readFails : Nat → Bool
  /-- How many bytes a write can write. -/
  written : Nat → Nat

/-- The counters of the scan, and `vol->nr_clusters`. -/
structure ScanStats where
  nrClusters : Int
  totalInuseMft : Int
  totalValidMft : Int
  fsckScanEio : Int

/-- `__builtin_popcount` of a byte. -/
def popcount (b : UInt8) : Nat :=
  countBelow 8 (fun k => b.toNat.testBit k)

/-- The bits of the first `n` bytes that are set in one buffer and clear in another. -/
def toFreeBytes (diskBm fsckBm : Bytes) : Nat → Nat
  | 0 => 0
  | j + 1 =>
    let b := diskBm j &&& ~~~fsckBm j
    if b ≠ 0 then toFreeBytes diskBm fsckBm j + popcount b
    else toFreeBytes diskBm fsckBm j

/-- `memset` and `ntfs_attr_pread` into the window buffer. -/
def readWindow (disk : Bytes) (pos count : Nat) : Bytes :=
  fun j => if j < count then disk (pos + j) else 0

/-- `ntfs_attr_pwrite` of the first bytes of a buffer. -/
def writeWindow (disk : Bytes) (pos count : Nat) (buf : Bytes) : Bytes :=
  fun i => if pos ≤ i ∧ i < pos + count then buf (i - pos) else disk i

/-- `ntfsck_bitmap_count_to_free`; -1 if a read fails. -/
def bitmapCountToFree (io : BitmapIo) (func : Nat → Bytes) (disk : Bytes) :
    List (Nat × Nat) → Int → Int
  | [], toFree => toFree
  | (pos, count) :: rest, toFree =>
    if io.countFails pos then -1
    else
      bitmapCountToFree io func disk rest
        (toFree + toFreeBytes (readWindow disk pos count) (func pos) count)

/-- `ntfsck_bitmap_consensus_block`. -/
def bitmapConsensusBlock (s : ScanStats) (toFree : Int) : Bool :=
  if s.nrClusters ≤ 0 ∨ toFree * 20 < s.nrClusters then false
  else
    let fails :=
      (if s.totalInuseMft > 0 ∧ s.fsckScanEio * 1000 > s.totalInuseMft then 1 else 0) +
      (if s.totalInuseMft > 0 ∧ s.totalValidMft * 100 < s.totalInuseMft * 90 then 1 else 0) +
      (if toFree * 10 ≥ s.nrClusters then 1 else 0)
    decide (fails ≥ 2)

/-- Merge the word at `i` of one buffer into another, if they differ. -/
def orWord (diskBm fsckBm : Bytes) (i : Nat) : Bytes :=
  if ∃ k < 8, diskBm (8 * i + k) ≠ fsckBm (8 * i + k) then
    fun j => if 8 * i ≤ j ∧ j < 8 * i + 8 then diskBm j ||| fsckBm j else diskBm j
  else
    diskBm

/-- The loop over the words of a window. -/
def orWords (diskBm fsckBm : Bytes) : Nat → Bytes
  | 0 => diskBm
  | i + 1 => orWord (orWords diskBm fsckBm i) fsckBm i

/-- The loop over the bytes behind the last word. -/
def orTail (start : Nat) (diskBm fsckBm : Bytes) : Nat → Bytes
  | 0 => diskBm
  | i + 1 =>
    setByte (orTail start diskBm fsckBm i) (start + i)
      (orTail start diskBm fsckBm i (start + i) ||| fsckBm (start + i))

/-- The window buffer after both loops. -/
def mergeWindow (diskBm fsckBm : Bytes) (count : Nat) : Bytes :=
  orTail (8 * (count / 8)) (orWords diskBm fsckBm (count / 8)) fsckBm (count % 8)

/-- The loop of `ntfsck_apply_bitmap`: whether it succeeded, and the bitmap on disk. -/
def applyWindows (io : BitmapIo) (func : Nat → Bytes) (wtype : FsckBmp)
    (approved : Nat → Bool) (blockMassFree : Bool) :
    List (Nat × Nat) → Bytes → Bool × Bytes
  | [], disk => (true, disk)
  | (pos, count) :: rest, disk =>
    if io.readFails pos then (false, disk)
    else
      let diskBm := readWindow disk pos count
      let fsckBm := func pos
      if ∀ j < count, fsckBm j = diskBm j then
        applyWindows io func wtype approved blockMassFree rest disk
      else if approved pos then
        let buf :=
          if wtype = .initial ∨ blockMassFree then mergeWindow diskBm fsckBm count
          else fsckBm
        let disk' := writeWindow disk pos (min (io.written pos) count) buf
        if min (io.written pos) count ≠ count then (false, disk')
        else applyWindows io func wtype approved blockMassFree rest disk'
      else
        applyWindows io func wtype approved blockMassFree rest disk

/--
`ntfsck_apply_bitmap`.  `answer` is what `ntfs_fix_problem` says at the
position of a window; it is asked unless the repair is decided.
-/
def applyBitmap (na : BitmapAttr) (io : BitmapIo) (stats : ScanStats) (func : Nat → Bytes)
    (wtype : FsckBmp) (repairDecided repairApproved : Bool) (answer : Nat → Bool)
    (size : Nat) (disk : Bytes) : Bool × Bytes :=
  let blockMassFree :=
    if na = .lcnbmp ∧ wtype = .final then
      let toFree := bitmapCountToFree io func disk (bitmapWindows size) 0
      if toFree > 0 then bitmapConsensusBlock stats toFree else false
    else
      false
  let approved := fun pos => if repairDecided then repairApproved else answer pos
  applyWindows io func wtype approved blockMassFree (bitmapWindows size) disk

end Model

section Windows

/-- The windows from `pos` to `last`, without gap. -/
def Tiles : Nat → List (Nat × Nat) → Nat → Prop
  | pos, [], last => pos = last
  | pos, (p, count) :: rest, last =>
    p = pos ∧ pos % bmpWindowSize = 0 ∧ count ≤ bmpWindowSize ∧ Tiles (pos + count) rest last

theorem tiles_bitmapWindowsFrom
    {fuel pos count remain : Nat}
    (hfuel : remain < fuel)
    (hpos : pos % bmpWindowSize = 0)
    (hcount : count = min remain bmpWindowSize) :
    Tiles pos (bitmapWindowsFrom fuel pos count remain) (pos + remain) := by
  induction fuel generalizing pos count remain with
  | zero => omega
  | succ fuel ih =>
    simp only [bmpWindowSize] at hpos hcount ih
    refine ⟨rfl, hpos, by simp only [bmpWindowSize]; omega, ?_⟩
    split
    · show pos + count = pos + remain
      omega
    · rw [show pos + remain = pos + count + (remain - count) by omega]
      apply ih
      · omega
      · omega
      · have hfull : count = 8192 := by omega
        simp only [bmpWindowSize, hfull]
        split_ifs <;> omega

/-- The windows cover the bitmap. -/
theorem tiles_bitmapWindows
    (total : Nat) :
    Tiles 0 (bitmapWindows total) total := by
  have h := tiles_bitmapWindowsFrom (Nat.lt_succ_self total) (Nat.zero_mod bmpWindowSize)
    (show (if total < bmpWindowSize then total else bmpWindowSize) = min total bmpWindowSize by
      split_ifs <;> omega)
  simpa [bitmapWindows] using h

theorem Tiles.le
    {pos last : Nat} {ws : List (Nat × Nat)}
    (h : Tiles pos ws last) :
    pos ≤ last := by
  induction ws generalizing pos with
  | nil => exact Nat.le_of_eq h
  | cons w ws ih =>
    have := ih h.2.2.2
    omega

/-- The fsck bitmap as a whole. -/
def fsckBitmap (func : Nat → Bytes) : Bytes :=
  fun i => func (i / bmpWindowSize * bmpWindowSize) (i % bmpWindowSize)

theorem fsckBitmap_window
    (func : Nat → Bytes)
    {pos j : Nat}
    (hpos : pos % bmpWindowSize = 0)
    (hj : j < bmpWindowSize) :
    fsckBitmap func (pos + j) = func pos j := by
  simp only [bmpWindowSize] at hpos hj
  have h1 : (pos + j) / 8192 * 8192 = pos := by omega
  have h2 : (pos + j) % 8192 = j := by omega
  simp only [fsckBitmap, bmpWindowSize, h1, h2]

end Windows

section Counting

/-- The clusters that one bitmap has and another has not, among the first `n`. -/
def pendingRelease (disk fsck : Bytes) (n : Nat) : Nat :=
  countBelow n (fun k => bitAt disk k && !bitAt fsck k)

/-- The bits to be released, counted by bytes. -/
theorem pendingRelease_byte
    (disk fsck : Bytes)
    (i : Nat) :
    pendingRelease disk fsck (8 * (i + 1)) =
      pendingRelease disk fsck (8 * i) + popcount (disk i &&& ~~~fsck i) := by
  have hbits : ∀ k ≤ 8, pendingRelease disk fsck (8 * i + k) = pendingRelease disk fsck (8 * i) +
        countBelow k (fun k => (disk i &&& ~~~fsck i).toNat.testBit k) := by
    intro k hk
    induction k with
    | zero => rfl
    | succ k ih =>
      have hdiv : (8 * i + k) / 8 = i := by omega
      have hmod : (8 * i + k) % 8 = k := by omega
      rw [← Nat.add_assoc, pendingRelease, countBelow_succ, ← pendingRelease, ih (by omega),
        countBelow_succ, UInt8.toNat_and, Nat.testBit_and, testBit_compl _ (by omega),
        Nat.add_assoc]
      simp only [bitAt, hdiv, hmod]
  exact hbits 8 (Nat.le_refl 8)

/-- The count in one window. -/
theorem toFreeBytes_window
    (disk : Bytes)
    (func : Nat → Bytes)
    {pos count : Nat}
    (hpos : pos % bmpWindowSize = 0)
    (hcount : count ≤ bmpWindowSize)
    {n : Nat}
    (hn : n ≤ count) :
    pendingRelease disk (fsckBitmap func) (8 * pos) +
        toFreeBytes (readWindow disk pos count) (func pos) n =
      pendingRelease disk (fsckBitmap func) (8 * (pos + n)) := by
  induction n with
  | zero => rfl
  | succ n ih =>
    have hstep := pendingRelease_byte disk (fsckBitmap func) (pos + n)
    rw [fsckBitmap_window func hpos (by omega)] at hstep
    have hread : readWindow disk pos count n = disk (pos + n) := if_pos (by omega)
    rw [← Nat.add_assoc, hstep, ← ih (by omega), toFreeBytes, hread]
    by_cases hzero : disk (pos + n) &&& ~~~func pos n = 0
    · rw [hzero]
      rfl
    · rw [if_pos hzero, Nat.add_assoc]

/-- Without a failing read the count is right; with one it is -1. -/
theorem bitmapCountToFree_eq
    (io : BitmapIo)
    (func : Nat → Bytes)
    (disk : Bytes)
    {pos last : Nat} {ws : List (Nat × Nat)}
    (h : Tiles pos ws last) :
    bitmapCountToFree io func disk ws (pendingRelease disk (fsckBitmap func) (8 * pos)) =
      if ∃ w ∈ ws, io.countFails w.1 = true then -1
      else (pendingRelease disk (fsckBitmap func) (8 * last) : Int) := by
  induction ws generalizing pos with
  | nil =>
    obtain rfl : pos = last := h
    simp [bitmapCountToFree]
  | cons w ws ih =>
    obtain ⟨p, count⟩ := w
    obtain ⟨rfl, hpos, hcount, hrest⟩ := h
    rw [bitmapCountToFree]
    by_cases hfail : io.countFails p = true
    · rw [if_pos hfail, if_pos ⟨(p, count), by simp, hfail⟩]
    · have hwin := toFreeBytes_window disk func hpos hcount (Nat.le_refl count)
      rw [if_neg hfail, ← Nat.cast_add, hwin, ih hrest]
      simp only [List.mem_cons, exists_eq_or_imp, hfail, Bool.false_eq_true, false_or]

end Counting

section Merging

/-- Words are joined in front of the tail. -/
theorem orWords_apply
    (d f : Bytes)
    (n j : Nat) :
    orWords d f n j = if j < 8 * n then d j ||| f j else d j := by
  induction n with
  | zero => simp [orWords]
  | succ n ih =>
    rw [orWords, orWord]
    by_cases hsame : ∃ k < 8, orWords d f n (8 * n + k) ≠ f (8 * n + k)
    · rw [if_pos hsame]
      split
      · rw [ih, if_neg (by omega), if_pos (by omega)]
      · rw [ih]
        split
        · rw [if_pos (by omega)]
        · rw [if_neg (by omega)]
    · rw [if_neg hsame, ih]
      split
      · rw [if_pos (by omega)]
      · rename_i hlt
        by_cases hin : j < 8 * (n + 1)
        · -- the word is the same in both buffers
          have heq : orWords d f n j = f j := by
            by_contra hne
            exact hsame ⟨j - 8 * n, by omega, by rwa [Nat.add_sub_cancel' (by omega)]⟩
          rw [if_pos hin]
          rw [ih, if_neg hlt] at heq
          rw [heq, UInt8.or_self]
        · rw [if_neg hin]

/-- The tail is joined byte by byte. -/
theorem orTail_apply
    (start : Nat)
    (d f : Bytes)
    (n j : Nat) :
    orTail start d f n j = if start ≤ j ∧ j < start + n then d j ||| f j else d j := by
  induction n generalizing j with
  | zero => rw [orTail, if_neg (by omega)]
  | succ n ih =>
    rw [orTail]
    by_cases hj : j = start + n
    · rw [hj, setByte_same, ih, if_neg (by omega), if_pos (by omega)]
    · rw [setByte_of_ne _ _ hj, ih]
      split
      · rw [if_pos (by omega)]
      · rw [if_neg (by omega)]

theorem mergeWindow_apply
    (d f : Bytes)
    {count j : Nat}
    (hj : j < count) :
    mergeWindow d f count j = d j ||| f j := by
  rw [mergeWindow, orTail_apply]
  by_cases htail : 8 * (count / 8) ≤ j
  · rw [if_pos (by omega), orWords_apply, if_neg (by omega)]
  · rw [if_neg (by omega), orWords_apply, if_pos (by omega)]

/-- The byte that the apply writes for a byte on disk and one of the fsck bitmap. -/
def appliedByte (merge : Bool) (d f : UInt8) : UInt8 :=
  if merge then d ||| f else f

theorem appliedByte_self
    (merge : Bool)
    (d : UInt8) :
    appliedByte merge d d = d := by
  cases merge with
  | true => exact UInt8.or_self
  | false => rfl

/-- The buffer that is written for a window. -/
theorem windowBuffer_apply
    (disk : Bytes)
    (func : Nat → Bytes)
    (merge : Bool)
    {pos count j : Nat}
    (hpos : pos % bmpWindowSize = 0)
    (hcount : count ≤ bmpWindowSize)
    (hj : j < count) :
    (if merge then mergeWindow (readWindow disk pos count) (func pos) count else func pos) j =
      appliedByte merge (disk (pos + j)) (fsckBitmap func (pos + j)) := by
  rw [fsckBitmap_window func hpos (by omega)]
  cases merge with
  | true =>
    rw [if_pos rfl, mergeWindow_apply _ _ hj, readWindow, if_pos hj]
    rfl
  | false => rfl

end Merging

section Outcome

variable (io : BitmapIo) (func : Nat → Bytes) (wtype : FsckBmp)

/-- Part of the bitmap has been applied: the bytes from `pos` on, `k` of them. -/
def AppliedTo (func : Nat → Bytes) (merge : Bool) (pos k : Nat) (disk disk' : Bytes) : Prop :=
  ∀ i, disk' i =
    if pos ≤ i ∧ i < pos + k then appliedByte merge (disk i) (fsckBitmap func i) else disk i

/-- What the loop does at one window: it stops, or it goes on with the next window. -/
theorem applyWindows_cons
    (approved : Nat → Bool)
    (block : Bool)
    {pos count : Nat}
    (ws : List (Nat × Nat))
    (hpos : pos % bmpWindowSize = 0)
    (hcount : count ≤ bmpWindowSize)
    (disk : Bytes) :
    ∃ k ≤ count, ∃ disk₁,
      AppliedTo func (decide (wtype = .initial ∨ block = true)) pos k disk disk₁ ∧
      (applyWindows io func wtype approved block ((pos, count) :: ws) disk = (false, disk₁) ∨
        (approved pos = true → k = count) ∧
        applyWindows io func wtype approved block ((pos, count) :: ws) disk =
          applyWindows io func wtype approved block ws disk₁) := by
  have hnone : ∀ merge, AppliedTo func merge pos 0 disk disk := by
    intro merge i
    rw [if_neg (by omega)]
  rw [applyWindows]
  by_cases hread : io.readFails pos = true
  · rw [if_pos hread]
    exact ⟨0, by omega, disk, hnone _, Or.inl rfl⟩
  rw [if_neg hread]
  by_cases hsame : ∀ j < count, func pos j = readWindow disk pos count j
  · rw [if_pos hsame]
    refine ⟨count, Nat.le_refl _, disk, ?_, Or.inr ⟨fun _ => rfl, rfl⟩⟩
    intro i
    split_ifs with hin
    · obtain ⟨j, rfl⟩ : ∃ j, i = pos + j := ⟨i - pos, by omega⟩
      have hj : j < count := by omega
      rw [fsckBitmap_window func hpos (by omega), hsame j hj, readWindow, if_pos hj,
        appliedByte_self]
    · rfl
  rw [if_neg hsame]
  split
  · have hbuf : ∀ k ≤ count, AppliedTo func (decide (wtype = .initial ∨ block = true)) pos k disk
        (writeWindow disk pos k (if wtype = .initial ∨ block = true then
            mergeWindow (readWindow disk pos count) (func pos) count
          else func pos)) := by
      intro k hk i
      rw [writeWindow]
      split_ifs with hin hmerge
      · obtain ⟨j, rfl⟩ : ∃ j, i = pos + j := ⟨i - pos, by omega⟩
        have h := windowBuffer_apply disk func true hpos hcount (show j < count by omega)
        simpa [hmerge] using h
      · obtain ⟨j, rfl⟩ : ∃ j, i = pos + j := ⟨i - pos, by omega⟩
        have h := windowBuffer_apply disk func false hpos hcount (show j < count by omega)
        simpa [hmerge] using h
      · rfl
    by_cases hshort : min (io.written pos) count ≠ count
    · rw [if_pos hshort]
      exact ⟨_, Nat.min_le_right _ _, _, hbuf _ (Nat.min_le_right _ _), Or.inl rfl⟩
    · rw [if_neg hshort]
      exact ⟨_, Nat.min_le_right _ _, _, hbuf _ (Nat.min_le_right _ _),
        Or.inr ⟨fun _ => by simpa using hshort, rfl⟩⟩
  · rename_i happ
    exact ⟨0, by omega, disk, hnone _, Or.inr ⟨fun h => absurd h happ, rfl⟩⟩

/-- A loop that succeeds with every repair approved has applied every window. -/
theorem applyWindows_success
    {approved : Nat → Bool}
    (happroved : ∀ pos, approved pos = true)
    (block : Bool)
    {pos last : Nat} {ws : List (Nat × Nat)}
    (htiles : Tiles pos ws last)
    {disk disk' : Bytes}
    (h : applyWindows io func wtype approved block ws disk = (true, disk')) :
    AppliedTo func (decide (wtype = .initial ∨ block = true)) pos (last - pos) disk disk' := by
  induction ws generalizing pos disk with
  | nil =>
    obtain rfl : pos = last := htiles
    obtain rfl : disk = disk' := (Prod.mk.inj h).2
    intro i
    rw [if_neg (by omega)]
  | cons w ws ih =>
    obtain ⟨p, count⟩ := w
    obtain ⟨rfl, hpos, hcount, hrest⟩ := htiles
    have hle := hrest.le
    obtain ⟨k, hk, disk₁, happlied, hstop | ⟨hfull, hgo⟩⟩ :=
      applyWindows_cons io func wtype approved block ws hpos hcount disk
    · rw [hstop] at h
      exact absurd (Prod.mk.inj h).1 (by decide)
    · obtain rfl : k = count := hfull (happroved p)
      have hnext := ih hrest (hgo.symm.trans h)
      intro i
      rw [hnext i, happlied i]
      by_cases hwin : p ≤ i ∧ i < p + k
      · rw [if_neg (by omega), if_pos hwin, if_pos (by omega)]
      · rw [if_neg hwin]
        split
        · rw [if_pos (by omega)]
        · rw [if_neg (by omega)]

/-- What an apply should make of the bitmap on disk. -/
def ApplyOutcome (stats : ScanStats) (size : Nat) (disk fsck disk' : Bytes) : FsckBmp → Prop
  | .initial => ∀ n < 8 * size, bitAt disk' n = (bitAt disk n || bitAt fsck n)
  | .final =>
    if bitmapConsensusBlock stats (pendingRelease disk fsck (8 * size)) = true then
      ∀ n < 8 * size, bitAt disk n = true → bitAt disk' n = true
    else
      ∀ n < 8 * size, bitAt disk' n = bitAt fsck n

/-- Some read fails while the clusters to free are counted. -/
def CountFails (size : Nat) : Prop :=
  ∃ w ∈ bitmapWindows size, io.countFails w.1 = true

instance (size : Nat) : Decidable (CountFails io size) :=
  inferInstanceAs (Decidable (∃ _ ∈ _, _))

theorem bitmapConsensusBlock_zero
    (stats : ScanStats) :
    bitmapConsensusBlock stats 0 = false := by
  rw [bitmapConsensusBlock, if_pos (by omega)]

/-- The apply of the cluster bitmap, with the decision in terms of the bitmaps. -/
theorem applyBitmap_lcnbmp
    (stats : ScanStats)
    (repairDecided repairApproved : Bool)
    (answer : Nat → Bool)
    (size : Nat)
    (disk : Bytes) :
    applyBitmap .lcnbmp io stats func wtype repairDecided repairApproved answer size disk =
      applyWindows io func wtype (fun pos => if repairDecided then repairApproved else answer pos)
        (decide (wtype = .final ∧ ¬ CountFails io size ∧
          bitmapConsensusBlock stats (pendingRelease disk (fsckBitmap func) (8 * size)) = true))
        (bitmapWindows size) disk := by
  have hcount := bitmapCountToFree_eq io func disk (tiles_bitmapWindows size)
  rw [show pendingRelease disk (fsckBitmap func) (8 * 0) = 0 from rfl, Nat.cast_zero] at hcount
  change _ = if CountFails io size then _ else _ at hcount
  rw [applyBitmap]
  rw [hcount]
  cases wtype with
  | initial => simp
  | final =>
    by_cases hfails : CountFails io size
    · simp [hfails]
    · rw [if_pos ⟨rfl, rfl⟩, if_neg hfails]
      by_cases hzero : pendingRelease disk (fsckBitmap func) (8 * size) = 0
      · simp [hzero, bitmapConsensusBlock_zero]
      · rw [if_pos (by omega)]
        simp [hfails]

theorem bitAt_applied
    {merge : Bool} {size : Nat} {disk disk' : Bytes}
    (h : AppliedTo func merge 0 size disk disk')
    {n : Nat}
    (hn : n < 8 * size) :
    bitAt disk' n =
      if merge then bitAt disk n || bitAt (fsckBitmap func) n else bitAt (fsckBitmap func) n := by
  rw [bitAt, h, if_pos (by omega)]
  cases merge with
  | true =>
    rw [appliedByte, if_pos rfl, UInt8.toNat_or, Nat.testBit_or]
    rfl
  | false => rfl

/-- If there is something to release, some bit is set on disk only. -/
theorem exists_pending
    {disk fsck : Bytes} {n : Nat}
    (h : 0 < pendingRelease disk fsck n) :
    ∃ k < n, bitAt disk k = true ∧ bitAt fsck k = false := by
  obtain ⟨k, hk, hp⟩ := List.countP_pos_iff.mp h
  simp only [Bool.and_eq_true, Bool.not_eq_true'] at hp
  exact ⟨k, List.mem_range.mp hk, hp⟩

/--
An approved apply of the cluster bitmap that succeeds does what it should,
unless a mass free that has to be refused meets a failing read of the count.
-/
theorem applyBitmap_outcome_iff
    {stats : ScanStats} {repairDecided repairApproved : Bool} {answer : Nat → Bool} {size : Nat}
    {disk disk' : Bytes}
    (happroved : ∀ pos, (if repairDecided then repairApproved else answer pos) = true)
    (h : applyBitmap .lcnbmp io stats func wtype repairDecided repairApproved answer size disk =
      (true, disk')) :
    ApplyOutcome stats size disk (fsckBitmap func) disk' wtype ↔ (wtype = .final →
        bitmapConsensusBlock stats (pendingRelease disk (fsckBitmap func) (8 * size)) = true →
        ¬ CountFails io size) := by
  rw [applyBitmap_lcnbmp] at h
  have happlied := applyWindows_success io func wtype happroved _ (tiles_bitmapWindows size) h
  cases wtype with
  | initial =>
    refine ⟨fun _ hfinal => absurd hfinal (by decide), fun _ n hn => ?_⟩
    rw [bitAt_applied func happlied hn]
    simp
  | final =>
    rw [ApplyOutcome]
    by_cases hblock :
        bitmapConsensusBlock stats (pendingRelease disk (fsckBitmap func) (8 * size)) = true
    · rw [if_pos hblock]
      by_cases hfails : CountFails io size
      · -- the count failed: the fsck bitmap itself was written
        have hpend : 0 < pendingRelease disk (fsckBitmap func) (8 * size) := by
          by_contra hzero
          rw [Nat.eq_zero_of_not_pos hzero] at hblock
          exact absurd hblock (by simp [bitmapConsensusBlock_zero])
        obtain ⟨k, hk, hset, hclear⟩ := exists_pending hpend
        refine ⟨fun hkeep => ?_, fun hno => absurd hfails (hno rfl hblock)⟩
        have hkept := hkeep k hk hset
        rw [bitAt_applied func happlied hk] at hkept
        simp [hfails, hclear] at hkept
      · refine ⟨fun _ _ _ => hfails, fun _ n hn hset => ?_⟩
        rw [bitAt_applied func happlied hn]
        simp [hfails, hblock, hset]
    · rw [if_neg hblock]
      refine ⟨fun _ _ hb => absurd hb hblock, fun _ n hn => ?_⟩
      rw [bitAt_applied func happlied hn]
      simp [hblock]

/-- A device whose writes succeed, and that may fail the reads of the count. -/
def countingIo (fails : Bool) : BitmapIo :=
  ⟨fun _ => fails, fun _ => false, fun _ => bmpWindowSize⟩

/-- Eight clusters, and a scan in which one of ten records could not be read. -/
def unreadableScan : ScanStats :=
  ⟨8, 10, 9, 1⟩

theorem applyBitmap_outcome_iff_refused :
    ∃ disk', applyBitmap .lcnbmp (countingIo false) unreadableScan (fun _ _ => 0) .final
        true true (fun _ => false) 1 (fun _ => 0xff) = (true, disk') ∧
      (ApplyOutcome unreadableScan 1 (fun _ => 0xff) (fsckBitmap (fun _ _ => 0)) disk' .final ↔
        (FsckBmp.final = .final → bitmapConsensusBlock unreadableScan
            (pendingRelease (fun _ => 0xff) (fsckBitmap (fun _ _ => 0)) (8 * 1)) = true →
          ¬ CountFails (countingIo false) 1)) :=
  have hok : (applyBitmap .lcnbmp (countingIo false) unreadableScan (fun _ _ => 0) .final
      true true (fun _ => false) 1 (fun _ => 0xff)).1 = true := by decide
  ⟨_, Prod.ext hok rfl, applyBitmap_outcome_iff _ _ _ (fun _ => rfl) (Prod.ext hok rfl)⟩

/-- A mass free that has to be refused is carried out after a failing read of the count. -/
theorem applyBitmap_unread_count :
    bitmapConsensusBlock unreadableScan
        (pendingRelease (fun _ => 0xff) (fsckBitmap (fun _ _ => 0)) (8 * 1)) = true ∧
      (applyBitmap .lcnbmp (countingIo true) unreadableScan (fun _ _ => 0) .final
        true true (fun _ => false) 1 (fun _ => 0xff)).1 = true ∧
      bitAt (applyBitmap .lcnbmp (countingIo true) unreadableScan (fun _ _ => 0) .final
        true true (fun _ => false) 1 (fun _ => 0xff)).2 0 = false := by
  decide

end Outcome

end NtfsPlus.Ntfsck
