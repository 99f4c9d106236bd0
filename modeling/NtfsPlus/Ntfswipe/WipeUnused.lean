import NtfsPlus.Utils.InUse

/-!
# Wiping the unused clusters

`wipe_unused` and `wipe_unused_fast` of `src/ntfswipe.c` on a device without errors.  The
fast variant works on blocks of 64 clusters: it leaves out a block that is all in use and
one whose free clusters are wiped already, and writes the others back as a whole.

The number of clusters of a block is kept in 32 bits, so that from 2^32 clusters on one
block in 2^32 clusters is taken to be shorter than it is.  `wipeUnused_same_iff` says when
the two variants leave the same device.  What the calls of `utils_cluster_in_use` answer,
whichever clusters were asked for before, is `WipeVolume.inUse` (`clusterAnswers_inUse`).
-/

namespace NtfsPlus.Ntfswipe

open Utils

section Model

/-- `enum action`. -/
inductive Action where
  | info
  | test
  | wipe
deriving DecidableEq

/-- What the functions read of the volume. -/
structure WipeVolume where
  clusterSize : Nat
  nrClusters : Nat
  bitmap : Bytes
  bitmapBytes : Nat
  clusterSize_pos : 0 < clusterSize
  /-- A cluster is a number of 32-bit words. -/
  clusterSize_words : clusterSize % 4 = 0

variable (vol : WipeVolume)

/-- The answer of `utils_cluster_in_use`. -/
def WipeVolume.inUse (lcn : Nat) : Bool :=
  clusterBit vol.bitmap vol.bitmapBytes lcn

/-- `memset` of cluster `i` of a buffer. -/
def memsetCluster (b : UInt8) (buf : Bytes) (i : Nat) : Bytes :=
  fun p => if i * vol.clusterSize ≤ p ∧ p < i * vol.clusterSize + vol.clusterSize then b else buf p

/-- `wipe_unused`: the device, and the number of bytes that is returned. -/
def wipeUnused (act : Action) (b : UInt8) (dev : Bytes) : Bytes × Nat :=
  (List.range vol.nrClusters).foldl (fun s i =>
      if vol.inUse i then
        s
      else
        (if act = .wipe then memsetCluster vol b s.1 i else s.1, s.2 + vol.clusterSize))
    (dev, 0)

/-- `blksize`, an `unsigned int`. -/
def blockSize (i : Nat) : Nat :=
  min ((vol.nrClusters - i) % 2 ^ 32) 64

/-- The words of cluster `j` of the buffer all are `u32_bytes`. -/
def wordsWiped (b : UInt8) (buf : Bytes) (j : Nat) : Bool :=
  (List.range (vol.clusterSize / 4)).all fun k =>
    le32 buf (j * vol.clusterSize + 4 * k) = b.toNat * 0x01010101

/-- One block of `wipe_unused_fast`. -/
def wipeBlock (act : Action) (b : UInt8) (s : Bytes × Nat) (i : Nat) : Bytes × Nat :=
  let blksize := blockSize vol i
  if (List.range blksize).countP (fun j => vol.inUse (i + j)) = blksize then
    s
  else
    let bigBuffer : Bytes := fun o => s.1 (i * vol.clusterSize + o)
    let wipeNeeded := (List.range blksize).any fun j =>
      !vol.inUse (i + j) && !wordsWiped vol b bigBuffer j
    if !wipeNeeded then
      s
    else
      let filled := (List.range blksize).foldl (fun (s : Bytes × Nat) j =>
          if vol.inUse (i + j) then s
          else (memsetCluster vol b s.1 j, s.2 + vol.clusterSize))
        (bigBuffer, s.2)
      let pos := i * vol.clusterSize
      (if act = .wipe then
        fun p => if pos ≤ p ∧ p < pos + blksize * vol.clusterSize then filled.1 (p - pos) else s.1 p
      else s.1, filled.2)

/-- `wipe_unused_fast`. -/
def wipeUnusedFast (act : Action) (b : UInt8) (dev : Bytes) : Bytes × Nat :=
  (List.range ((vol.nrClusters + 63) / 64)).foldl (fun s k => wipeBlock vol act b s (64 * k))
    (dev, 0)

end Model

section Queries

/-- A call of `utils_cluster_in_use` on a device without errors: a read brings what is left of
`$Bitmap`, as far as the buffer goes. -/
def WipeVolume.call (vol : WipeVolume) (n : Nat) : Bool × Nat × Option Nat :=
  (true, n, some (vol.bitmapBytes - BitWindow.stretch clusterBufSize n / 8))

/-- Along every sequence of calls the answers are the bits of `$Bitmap`. -/
theorem clusterAnswers_inUse
    (vol : WipeVolume)
    (ns : List Nat) :
    ∀ a ∈ clusterAnswers vol.bitmap clusterStart (ns.map vol.call),
      vol.inUse a.1 = decide (a.2 ≠ 0) := by
  have hrun : ∀ w, Stored vol.bitmap vol.bitmapBytes w →
      ∀ a ∈ clusterAnswers vol.bitmap w (ns.map vol.call), vol.inUse a.1 = decide (a.2 ≠ 0) := by
    induction ns with
    | nil => simp [clusterAnswers]
    | cons n ns ih =>
      intro w h
      obtain ⟨b, hb, hstored, hanswer | ⟨-, hfail⟩⟩ := utilsClusterInUse_stored h true
        (show (vol.call n).2.2.getD 0 = _ from rfl)
      · obtain rfl : b = vol.bitmapBytes := hb.elim id id
        refine List.forall_mem_cons.mpr ⟨?_, ih _ hstored⟩
        rw [Bool.eq_iff_iff, decide_eq_true_iff]
        exact hanswer.symm
      · rcases hfail with hfail | hfail
        · cases hfail
        · cases hfail
  exact hrun _ (stored_clusterStart vol.bitmap vol.bitmapBytes)

end Queries

section Statement

variable (vol : WipeVolume)

/-- Every free cluster is filled with the byte, all others are as before. -/
def wiped (b : UInt8) (dev : Bytes) : Bytes := fun p =>
  if p / vol.clusterSize < vol.nrClusters ∧ vol.inUse (p / vol.clusterSize) = false then b
  else dev p

/-- A cluster that the block it lies in is taken to end before. -/
def CutOff (c : Nat) : Prop :=
  c < vol.nrClusters ∧ blockSize vol (64 * (c / 64)) ≤ c % 64

end Statement

section Loops

variable {vol : WipeVolume} {b : UInt8} {dev : Bytes}

theorem mem_cluster_iff
    (vol : WipeVolume)
    (i p : Nat) :
    i * vol.clusterSize ≤ p ∧ p < i * vol.clusterSize + vol.clusterSize ↔
      p / vol.clusterSize = i := by
  rw [Nat.div_eq_iff vol.clusterSize_pos]
  have := vol.clusterSize_pos
  omega

/-- The clusters of a buffer that a loop with `memset` fills. -/
theorem foldl_memset
    (used : Nat → Bool)
    (s : Bytes × Nat)
    (n p : Nat) :
    ((List.range n).foldl
      (fun (s : Bytes × Nat) j =>
        if used j then s else (memsetCluster vol b s.1 j, s.2 + vol.clusterSize)) s).1 p =
      if p / vol.clusterSize < n ∧ used (p / vol.clusterSize) = false then b else s.1 p := by
  induction n with
  | zero => simp
  | succ n ih =>
    rw [List.range_succ, List.foldl_append, List.foldl_cons, List.foldl_nil]
    by_cases hcluster : p / vol.clusterSize = n
    · cases hused : used n with
      | true =>
        rw [if_pos rfl, ih]
        simp [hcluster, hused]
      | false =>
        simp [memsetCluster, mem_cluster_iff, hcluster, hused]
    · have hlt : p / vol.clusterSize < n + 1 ↔ p / vol.clusterSize < n := by omega
      simp only [hlt, ← ih]
      cases used n with
      | true => rfl
      | false => simp [memsetCluster, mem_cluster_iff, hcluster]

theorem wipeUnused_eq
    (b : UInt8)
    (dev : Bytes) :
    (wipeUnused vol .wipe b dev).1 = wiped vol b dev := by
  funext p
  exact foldl_memset vol.inUse (dev, 0) vol.nrClusters p

theorem le32_eq_repeated
    {buf : Bytes} {pos : Nat} :
    le32 buf pos = b.toNat * 0x01010101 ↔ ∀ k < 4, buf (pos + k) = b := by
  have h₀ := (buf pos).toNat_lt
  have h₁ := (buf (pos + 1)).toNat_lt
  have h₂ := (buf (pos + 2)).toNat_lt
  have h₃ := (buf (pos + 3)).toNat_lt
  simp only [le32, leNat, Nat.add_assoc, Nat.reduceAdd]
  constructor
  · intro h k hk
    have hfirst : (buf pos).toNat = b.toNat := by omega
    have hsecond : (buf (pos + 1)).toNat = b.toNat := by omega
    have hthird : (buf (pos + 2)).toNat = b.toNat := by omega
    have hfourth : (buf (pos + 3)).toNat = b.toNat := by omega
    apply UInt8.toNat_inj.mp
    interval_cases k
    · exact hfirst
    · exact hsecond
    · exact hthird
    · exact hfourth
  · intro h
    rw [show buf pos = b from h 0 (by decide), h 1 (by decide), h 2 (by decide), h 3 (by decide)]
    omega

theorem wordsWiped_iff
    {buf : Bytes} {j : Nat} :
    wordsWiped vol b buf j = true ↔ ∀ p, p / vol.clusterSize = j → buf p = b := by
  have hwords := vol.clusterSize_words
  simp only [wordsWiped, List.all_eq_true, List.mem_range, decide_eq_true_eq, le32_eq_repeated]
  constructor
  · intro h p hp
    obtain ⟨hlo, hhi⟩ := (mem_cluster_iff vol j p).mpr hp
    have := h ((p - j * vol.clusterSize) / 4) (by omega) ((p - j * vol.clusterSize) % 4)
      (by omega)
    rwa [show j * vol.clusterSize + 4 * ((p - j * vol.clusterSize) / 4) +
      (p - j * vol.clusterSize) % 4 = p by omega] at this
  · intro h k hk i hi
    exact h _ ((mem_cluster_iff vol j _).mp (by omega))

/-- What a block does to a byte of the device. -/
theorem wipeBlock_eq
    (s : Bytes × Nat)
    (i p : Nat) :
    (wipeBlock vol .wipe b s i).1 p =
      if i ≤ p / vol.clusterSize ∧ p / vol.clusterSize < i + blockSize vol i ∧
        vol.inUse (p / vol.clusterSize) = false then b else s.1 p := by
  have hpos := vol.clusterSize_pos
  have hshift : ∀ o, (i * vol.clusterSize + o) / vol.clusterSize = i + o / vol.clusterSize := by
    intro o
    rw [Nat.mul_comm, Nat.mul_add_div hpos]
  have hsplit : i ≤ p / vol.clusterSize → ∃ o, p = i * vol.clusterSize + o := by
    intro hle
    exact Nat.exists_eq_add_of_le ((Nat.le_div_iff_mul_le hpos).mp hle)
  unfold wipeBlock
  dsimp only
  by_cases hall : (List.range (blockSize vol i)).countP (fun j => vol.inUse (i + j)) =
      blockSize vol i
  · -- all clusters of the block are in use
    rw [if_pos hall, if_neg]
    rintro ⟨hlo, hhi, hfree⟩
    have hused := List.countP_eq_length.mp (hall.trans List.length_range.symm)
      (p / vol.clusterSize - i) (List.mem_range.mpr (by omega))
    rw [Nat.add_sub_cancel' hlo, hfree] at hused
    cases hused
  rw [if_neg hall]
  split
  · -- all free clusters of the block are wiped
    rename_i hdone
    split_ifs with hin
    · obtain ⟨hlo, hhi, hfree⟩ := hin
      obtain ⟨o, rfl⟩ := hsplit hlo
      rw [hshift] at hlo hhi hfree
      simp only [Bool.not_eq_true', List.any_eq_false, List.mem_range, Bool.and_eq_true, not_and,
        Bool.not_eq_false] at hdone
      exact wordsWiped_iff.mp (hdone (o / vol.clusterSize) (by omega) hfree) o rfl
    · rfl
  · simp only [if_true]
    by_cases hwritten : i * vol.clusterSize ≤ p ∧
        p < i * vol.clusterSize + blockSize vol i * vol.clusterSize
    · obtain ⟨o, rfl⟩ := Nat.exists_eq_add_of_le hwritten.1
      have hend : o / vol.clusterSize < blockSize vol i :=
        (Nat.div_lt_iff_lt_mul hpos).mpr (by omega)
      rw [if_pos hwritten, foldl_memset, hshift]
      simp [hend]
    · rw [if_neg hwritten, if_neg]
      rintro ⟨hlo, hhi, -⟩
      obtain ⟨o, rfl⟩ := hsplit hlo
      rw [hshift] at hhi
      have hend : o < blockSize vol i * vol.clusterSize :=
        (Nat.div_lt_iff_lt_mul hpos).mp (by omega)
      exact hwritten ⟨by omega, by omega⟩

theorem wipeBlocks_eq
    (n p : Nat) :
    ((List.range n).foldl (fun s k => wipeBlock vol .wipe b s (64 * k)) (dev, 0)).1 p =
      if p / vol.clusterSize / 64 < n ∧
        p / vol.clusterSize % 64 < blockSize vol (64 * (p / vol.clusterSize / 64)) ∧
        vol.inUse (p / vol.clusterSize) = false then b else dev p := by
  induction n with
  | zero => simp
  | succ n ih =>
    rw [List.range_succ, List.foldl_append, List.foldl_cons, List.foldl_nil, wipeBlock_eq, ih]
    generalize p / vol.clusterSize = c
    have hsize : blockSize vol (64 * n) ≤ 64 := min_le_right _ _
    by_cases hblock : c / 64 = n
    · subst hblock
      have hlo : 64 * (c / 64) ≤ c := Nat.mul_div_le c 64
      have hhi : c < 64 * (c / 64) + blockSize vol (64 * (c / 64)) ↔
          c % 64 < blockSize vol (64 * (c / 64)) := by
        omega
      simp [hlo, hhi]
    · have hout : ¬(64 * n ≤ c ∧ c < 64 * n + blockSize vol (64 * n) ∧ vol.inUse c = false) := by
        omega
      have hlt : c / 64 < n + 1 ↔ c / 64 < n := by omega
      simp only [if_neg hout, hlt]

/-- The fast variant wipes all free clusters but those that are cut off. -/
theorem wipeUnusedFast_eq
    (p : Nat) :
    (wipeUnusedFast vol .wipe b dev).1 p =
      if p / vol.clusterSize < vol.nrClusters ∧
        p / vol.clusterSize % 64 < blockSize vol (64 * (p / vol.clusterSize / 64)) ∧
        vol.inUse (p / vol.clusterSize) = false then b else dev p := by
  rw [wipeUnusedFast, wipeBlocks_eq]
  generalize p / vol.clusterSize = c
  have hsize : blockSize vol (64 * (c / 64)) ≤ vol.nrClusters - 64 * (c / 64) :=
    (min_le_left _ _).trans (Nat.mod_le _ _)
  have hin : c / 64 < (vol.nrClusters + 63) / 64 ∧ c % 64 < blockSize vol (64 * (c / 64)) ↔
      c < vol.nrClusters ∧ c % 64 < blockSize vol (64 * (c / 64)) := by
    omega
  simp only [← and_assoc, hin]

end Loops

section Result

variable {vol : WipeVolume} {b : UInt8} {dev : Bytes}

/--
Both variants wipe exactly the free clusters if and only if the free clusters that are cut
off have been wiped before.
-/
theorem wipeUnused_same_iff
    (vol : WipeVolume)
    (b : UInt8)
    (dev : Bytes) :
    ((wipeUnusedFast vol .wipe b dev).1 = wiped vol b dev ∧
      (wipeUnused vol .wipe b dev).1 = wiped vol b dev) ↔
      ∀ c, CutOff vol c → vol.inUse c = false → ∀ p, p / vol.clusterSize = c → dev p = b := by
  rw [and_iff_left (wipeUnused_eq b dev), funext_iff]
  constructor
  · rintro h c ⟨hlt, hcut⟩ hfree p rfl
    have hp := h p
    rw [wipeUnusedFast_eq, if_neg (by omega), wiped, if_pos ⟨hlt, hfree⟩] at hp
    exact hp
  · intro h p
    rw [wipeUnusedFast_eq, wiped]
    by_cases hcut : CutOff vol (p / vol.clusterSize)
    · obtain ⟨hlt, hle⟩ := hcut
      rw [if_neg (by omega)]
      split_ifs with hfree
      · exact h _ ⟨hlt, hle⟩ hfree.2 p rfl
      · rfl
    · have hin : p / vol.clusterSize < vol.nrClusters → p / vol.clusterSize % 64 <
          blockSize vol (64 * (p / vol.clusterSize / 64)) := by
        intro hlt
        by_contra hle
        exact hcut ⟨hlt, not_lt.mp hle⟩
      congr 1
      rw [eq_iff_iff]
      constructor
      · exact fun hall => ⟨hall.1, hall.2.2⟩
      · exact fun hall => ⟨hall.1, hin hall.1, hall.2⟩

/-- A volume of 2^32 clusters, all of them free. -/
def wideVolume : WipeVolume where
  clusterSize := 512
  nrClusters := 4294967296
  bitmap := fun _ => 0
  bitmapBytes := 536870912
  clusterSize_pos := Nat.succ_pos 511
  clusterSize_words := rfl

/-- The first block counts as empty: its clusters keep their bytes. -/
theorem wipeUnusedFast_cut_off :
    (wipeUnusedFast wideVolume .wipe 1 (fun _ => 0)).1 0 = 0 ∧
      (wipeUnused wideVolume .wipe 1 (fun _ => 0)).1 0 = 1 := by
  constructor
  · rw [wipeUnusedFast_eq]
    rfl
  · rw [wipeUnused_eq]
    rfl

end Result

end NtfsPlus.Ntfswipe
