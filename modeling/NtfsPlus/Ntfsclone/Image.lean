import NtfsPlus.Lib.ByteMemory
import NtfsPlus.Lib.SignedBytes

/-!
# Saving a volume to an image and restoring it

`clone_ntfs` in save-image mode writes a header and then commands: `CMD_NEXT`
with the bytes of a cluster, and `CMD_GAP` with a number of clusters to skip.
`restore_image` follows them with a running cluster number.  A gap is computed
from the last cluster that was saved, and this starts as cluster 0 although
nothing has been saved yet.

`restoreImage_cloneNtfs_iff`: a saved image restores each cluster in use to its
own place, and nothing else, exactly when cluster 0 is in use.
-/

namespace NtfsPlus.Ntfsclone

open SignedBytes

section Save

/-- The volume that is saved. -/
structure CloneVolume where
  nrClusters : Nat
  clusterSize : Nat
  /-- `full_device_size`. -/
  deviceSize : Nat
  /-- The number of clusters in use, for the header. -/
  inuse : Nat
  /-- The bytes of the device. -/
  dev : Bytes
  /-- The clusters of the volume that are in use. -/
  inUse : Nat → Bool
  clusterSize_pos : 0 < clusterSize
  clusterSize_lt : clusterSize < 2 ^ 31
  deviceSize_lt : deviceSize < 2 ^ 63
  /-- `open_volume` refuses a volume that is larger than its device. -/
  nrClusters_fits : nrClusters * clusterSize ≤ deviceSize

def cmdGap : UInt8 := 0

def cmdNext : UInt8 := 1

/-- `IMAGE_MAGIC`. -/
def imageMagic : List UInt8 :=
  [0, 0x6e, 0x74, 0x66, 0x73, 0x63, 0x6c, 0x6f, 0x6e, 0x65, 0x2d, 0x69, 0x6d, 0x61, 0x67, 0x65]

/-- The part of the header that old images have too. -/
def imageHdrOld (vol : CloneVolume) : List UInt8 :=
  imageMagic ++ [10, 1] ++ leBytes 4 vol.clusterSize ++ leBytes 8 vol.deviceSize ++
    leBytes 8 vol.nrClusters ++ leBytes 8 vol.inuse

/-- The header and the alignment behind it. -/
def imageHdr (vol : CloneVolume) : List UInt8 :=
  imageHdrOld vol ++ leBytes 4 56 ++ List.replicate 6 0

/--
`lcn_bitmap`: `bitmap_file_data_fixup` sets the bits behind the volume, and so
the one of the alternate boot sector.
-/
def CloneVolume.lcnBitmap (vol : CloneVolume) (cl : Nat) : Bool :=
  vol.inUse cl || decide (vol.nrClusters ≤ cl)

/--
The bytes that `copy_cluster` copies for a cluster: the last may be a part of a
cluster that holds the backup boot sector.
-/
def copySize (clusterSize deviceSize lcn : Nat) : Option Nat :=
  if deviceSize ≤ (lcn + 1) * clusterSize then
    if deviceSize < lcn * clusterSize then none else some (deviceSize - lcn * clusterSize)
  else
    some clusterSize

/-- `image_skip_clusters`. -/
def imageSkipClusters (count : Int) : List UInt8 :=
  if 0 < count then cmdGap :: leBytes 8 (count % 2 ^ 64).toNat else []

/-- `copy_cluster` of a cluster to the image. -/
def copyClusterOut (vol : CloneVolume) (lcn : Nat) : Option (List UInt8) :=
  (copySize vol.clusterSize vol.deviceSize lcn).map fun n =>
    cmdNext :: bytesAt vol.dev (lcn * vol.clusterSize) n

/-- The loop over the clusters, up to the alternate boot sector. -/
def cloneLoop (vol : CloneVolume) : Nat → Nat → Nat → Option (List UInt8)
  | 0, cl, lastCl => some (imageSkipClusters (cl - lastCl - 1))
  | n + 1, cl, lastCl =>
    if vol.lcnBitmap cl then
      match copyClusterOut vol cl, cloneLoop vol n (cl + 1) cl with
      | some copied, some rest => some (imageSkipClusters (cl - lastCl - 1) ++ copied ++ rest)
      | _, _ => none
    else
      cloneLoop vol n (cl + 1) lastCl

/-- `clone_ntfs` in save-image mode: the image, or none if it gives up. -/
def cloneNtfs (vol : CloneVolume) : Option (List UInt8) :=
  (cloneLoop vol (vol.nrClusters + 1) 0 0).map (imageHdr vol ++ ·)

end Save

section Restore

/-- `read_all` of a number of bytes of the image: the bytes and what is left. -/
def readAll (n : Nat) (input : List UInt8) : Option (List UInt8 × List UInt8) :=
  if n ≤ input.length then some (input.take n, input.drop n) else none

/-- A little-endian field of bytes that were read. -/
def fieldOf (l : List UInt8) (pos n : Nat) : Nat :=
  leNat (fun j => l.getD j 0) pos n

/-- The fields of the header that the restoring uses. -/
structure ImageHdr where
  clusterSize : Nat
  deviceSize : Nat
  nrClusters : Int

/-- `open_image`: the header, and what is left of the image. -/
def openImage (image : List UInt8) : Option (ImageHdr × List UInt8) :=
  (readAll 46 image).bind fun (h, input) =>
    let hdr : ImageHdr := ⟨fieldOf h 18 4, fieldOf h 22 8, s64 (fieldOf h 30 8)⟩
    let majorVer := fieldOf h 16 1
    if h.take 16 ≠ imageMagic then
      none
    else if majorVer < 10 then
      -- an old image, its data follow
      some (hdr, input)
    else if 10 < majorVer then
      none
    else
      (readAll 4 input).bind fun (o, input) =>
        if 50 < fieldOf o 0 4 then
          (readAll (fieldOf o 0 4 - 50) input).map fun r => (hdr, r.2)
        else
          some (hdr, input)

/-- How a restoring ends early. -/
inductive RestoreError where
  | badImage
  | shortImage
  | badOffset
  | corruptImage
  | seekFailed
  | corruptedInput
  | invalidCommand
  | outOfPasses
deriving DecidableEq, Repr

/-- A write to the target: where, and the bytes. -/
abbrev TargetWrite := Nat × List UInt8

/--
The loop of `restore_image`, from a cluster number and a position in the target:
the writes to the target.
-/
def restoreLoop (hdr : ImageHdr) :
    Nat → Int → Int → List UInt8 → Except RestoreError (List TargetWrite)
  | 0, _, _, _ => .error .outOfPasses
  | fuel + 1, pos, out, input =>
    if hdr.nrClusters < pos then
      .ok []
    else
      match input with
      | [] =>
        -- no alternate boot sector in old images
        if pos = hdr.nrClusters then .ok [] else .error .shortImage
      | cmd :: input =>
        if cmd = cmdGap then
          match readAll 8 input with
          | none => .error .shortImage
          | some (lecount, input) =>
            let count := s64 (fieldOf lecount 0 8)
            if count = 0 then
              .error .badOffset
            else if pos + count < 0 ∨ hdr.nrClusters < pos + count then
              .error .corruptImage
            else if out + count * hdr.clusterSize < 0 then
              .error .seekFailed
            else
              restoreLoop hdr fuel (pos + count) (out + count * hdr.clusterSize) input
        else if cmd = cmdNext then
          match copySize hdr.clusterSize hdr.deviceSize pos.toNat with
          | none => .error .corruptedInput
          | some n =>
            match readAll n input with
            | none => .error .shortImage
            | some (buff, input) =>
              (restoreLoop hdr fuel (pos + 1) (out + n) input).map ((out.toNat, buff) :: ·)
        else
          .error .invalidCommand

/-- `restore_image` of an image to a target that can seek. -/
def restoreImage (image : List UInt8) : Except RestoreError (List TargetWrite) :=
  match openImage image with
  | none => .error .badImage
  | some (hdr, input) => restoreLoop hdr (input.length + 1) 0 0 input

end Restore

section Header

theorem readAll_append
    {n : Nat} {l : List UInt8}
    (hlen : l.length = n)
    (rest : List UInt8) :
    readAll n (l ++ rest) = some (l, rest) := by
  subst hlen
  rw [readAll, if_pos (by simp), List.take_left', List.drop_left']
  · rfl
  · rfl

theorem fieldOf_leBytes
    {n v pos : Nat} {l : List UInt8}
    (before after : List UInt8)
    (hl : l = before ++ (leBytes n v ++ after))
    (hpos : before.length = pos)
    (hv : v < 256 ^ n) :
    fieldOf l pos n = v := by
  subst hl
  subst hpos
  refine Eq.trans ?_ (Nat.mod_eq_of_lt hv)
  apply HoldsBytes.leNat_eq
  apply holdsBytes_of_getElem
  intro i hi
  simp only [leBytes_length] at hi
  simp [List.getElem?_append_right, List.getElem?_append_left, hi]

variable (vol : CloneVolume)

/-- The header as it is read again. -/
def CloneVolume.hdr : ImageHdr where
  clusterSize := vol.clusterSize
  deviceSize := vol.deviceSize
  nrClusters := vol.nrClusters

theorem CloneVolume.nrClusters_lt : vol.nrClusters < 2 ^ 63 := by
  have hfits := vol.nrClusters_fits
  have hsize := vol.deviceSize_lt
  have hle := Nat.le_mul_of_pos_right vol.nrClusters vol.clusterSize_pos
  omega

theorem openImage_imageHdr
    (rest : List UInt8) :
    openImage (imageHdr vol ++ rest) = some (vol.hdr, rest) := by
  have hlen : (imageHdrOld vol).length = 46 := by simp [imageHdrOld, imageMagic]
  have hmajor : fieldOf (imageHdrOld vol) 16 1 = 10 :=
    fieldOf_leBytes imageMagic (1 :: (leBytes 4 vol.clusterSize ++ (leBytes 8 vol.deviceSize ++
      (leBytes 8 vol.nrClusters ++ leBytes 8 vol.inuse))))
      (by simp [imageHdrOld, leBytes]) rfl (by decide)
  have hcluster : fieldOf (imageHdrOld vol) 18 4 = vol.clusterSize :=
    fieldOf_leBytes (imageMagic ++ [10, 1]) (leBytes 8 vol.deviceSize ++
      (leBytes 8 vol.nrClusters ++ leBytes 8 vol.inuse))
      (by simp [imageHdrOld]) rfl (by have := vol.clusterSize_lt; omega)
  have hdevice : fieldOf (imageHdrOld vol) 22 8 = vol.deviceSize :=
    fieldOf_leBytes (imageMagic ++ [10, 1] ++ leBytes 4 vol.clusterSize)
      (leBytes 8 vol.nrClusters ++ leBytes 8 vol.inuse)
      (by simp [imageHdrOld]) (by simp [imageMagic]) (by have := vol.deviceSize_lt; omega)
  have hnr : fieldOf (imageHdrOld vol) 30 8 = vol.nrClusters :=
    fieldOf_leBytes
      (imageMagic ++ [10, 1] ++ leBytes 4 vol.clusterSize ++ leBytes 8 vol.deviceSize)
      (leBytes 8 vol.inuse)
      (by simp [imageHdrOld]) (by simp [imageMagic]) (by have := vol.nrClusters_lt; omega)
  have hofs : fieldOf (leBytes 4 56) 0 4 = 56 :=
    fieldOf_leBytes [] [] (by simp) rfl (by decide)
  have hs64 : s64 (vol.nrClusters : Int) = vol.nrClusters := by
    have hlt := vol.nrClusters_lt
    exact s64_of_inS64 ⟨by omega, by omega⟩
  have hmagic : (imageHdrOld vol).take 16 = imageMagic := by simp [imageHdrOld, imageMagic]
  rw [imageHdr, List.append_assoc, List.append_assoc, openImage, readAll_append hlen]
  simp only [Option.bind_some, hmajor, hcluster, hdevice, hnr, hs64, hmagic]
  rw [readAll_append (by simp)]
  simp only [Option.bind_some]
  rfl

end Header

section Commands

variable {vol : CloneVolume}

/-- What a cluster holds, or the part of it that is on the device. -/
def clusterBytes (vol : CloneVolume) (cl : Nat) : List UInt8 :=
  bytesAt vol.dev (cl * vol.clusterSize)
    (min vol.clusterSize (vol.deviceSize - cl * vol.clusterSize))

variable {cl fuel : Nat} {out : Int}

theorem CloneVolume.cluster_fits
    (hcl : cl ≤ vol.nrClusters) :
    cl * vol.clusterSize ≤ vol.deviceSize :=
  le_trans (Nat.mul_le_mul_right vol.clusterSize hcl) vol.nrClusters_fits

theorem copySize_eq
    (hcl : cl ≤ vol.nrClusters) :
    copySize vol.clusterSize vol.deviceSize cl =
      some (min vol.clusterSize (vol.deviceSize - cl * vol.clusterSize)) := by
  have hfits := CloneVolume.cluster_fits hcl
  have hnext := Nat.succ_mul cl vol.clusterSize
  rw [Nat.succ_eq_add_one] at hnext
  unfold copySize
  split
  · rw [if_neg (by omega), min_eq_right (by omega)]
  · rw [min_eq_left (by omega)]

theorem min_clusterSize
    (hcl : cl < vol.nrClusters) :
    min vol.clusterSize (vol.deviceSize - cl * vol.clusterSize) = vol.clusterSize := by
  have hfits := CloneVolume.cluster_fits (Nat.succ_le_of_lt hcl)
  rw [Nat.succ_mul] at hfits
  exact min_eq_left (by omega)

theorem copyClusterOut_eq
    (hcl : cl ≤ vol.nrClusters) :
    copyClusterOut vol cl = some (cmdNext :: clusterBytes vol cl) := by
  rw [copyClusterOut, copySize_eq hcl]
  rfl

theorem restoreLoop_done
    {hdr : ImageHdr} {pos : Int} {input : List UInt8}
    (hpos : hdr.nrClusters < pos) :
    restoreLoop hdr (fuel + 1) pos out input = .ok [] := by
  cases input with
  | nil => rw [restoreLoop, if_pos hpos]
  | cons cmd input => rw [restoreLoop, if_pos hpos]

/-- A gap moves the cluster number and the position in the target. -/
theorem restoreLoop_skip
    {pos count : Int} {rest : List UInt8}
    (hpos : 0 ≤ pos)
    (hout : 0 ≤ out)
    (hnr : pos ≤ vol.nrClusters)
    (hcount : pos + count ≤ vol.nrClusters)
    (hfuel : (imageSkipClusters count ++ rest).length < fuel) :
    ∃ fuel', rest.length < fuel' ∧
      restoreLoop vol.hdr fuel pos out (imageSkipClusters count ++ rest) =
        restoreLoop vol.hdr fuel' (pos + max count 0) (out + max count 0 * vol.clusterSize)
          rest := by
  by_cases hgap : 0 < count
  · have hskip : imageSkipClusters count = cmdGap :: leBytes 8 (count % 2 ^ 64).toNat := by
      rw [imageSkipClusters, if_pos hgap]
    have hlt := vol.nrClusters_lt
    have hfield : fieldOf (leBytes 8 (count % 2 ^ 64).toNat) 0 8 = count.toNat := by
      rw [Int.emod_eq_of_lt (by omega) (by omega)]
      have hfits : count.toNat < 256 ^ 8 := by omega
      exact fieldOf_leBytes [] [] (List.append_nil _).symm rfl hfits
    have hs64 : s64 (count.toNat : Int) = count := by
      rw [s64_of_inS64 ⟨by omega, by omega⟩]
      omega
    have hseek : 0 ≤ count * vol.clusterSize :=
      Int.mul_nonneg (by omega) (by omega)
    rw [hskip] at hfuel ⊢
    cases fuel with
    | zero => omega
    | succ fuel =>
      refine ⟨fuel, ?_, ?_⟩
      · simp only [List.length_cons, List.length_append] at hfuel
        omega
      · rw [List.cons_append, restoreLoop, if_neg (by simp only [CloneVolume.hdr]; omega)]
        simp only [if_pos, readAll_append, leBytes_length, hfield, hs64]
        rw [if_neg (by omega), if_neg (by simp only [CloneVolume.hdr]; omega),
          if_neg (by simp only [CloneVolume.hdr]; omega), max_eq_left (by omega)]
        rfl
  · refine ⟨fuel, ?_, ?_⟩
    · rw [List.length_append] at hfuel
      omega
    · rw [imageSkipClusters, if_neg hgap, max_eq_right (by omega)]
      simp

theorem restoreLoop_next
    {n : Nat} {buff rest : List UInt8}
    (hcl : cl ≤ vol.nrClusters)
    (hn : copySize vol.clusterSize vol.deviceSize cl = some n)
    (hbuff : buff.length = n) :
    restoreLoop vol.hdr (fuel + 1) cl out (cmdNext :: (buff ++ rest)) =
      (restoreLoop vol.hdr fuel (cl + 1) (out + n) rest).map ((out.toNat, buff) :: ·) := by
  have hcmd : ¬cmdNext = cmdGap := by decide
  rw [restoreLoop, if_neg (by simp only [CloneVolume.hdr]; omega)]
  simp only [if_neg hcmd, if_pos, CloneVolume.hdr, Int.toNat_natCast, hn, readAll_append hbuff]

end Commands

section RoundTrip

variable {vol : CloneVolume}

/-- The write that restores a cluster to its own place. -/
def ownWrite (vol : CloneVolume) (cl : Nat) : TargetWrite :=
  (cl * vol.clusterSize, clusterBytes vol cl)

theorem lcnBitmap_slot
    (vol : CloneVolume) :
    vol.lcnBitmap vol.nrClusters = true := by
  simp [CloneVolume.lcnBitmap]

variable {n cl lastCl fuel : Nat} {image : List UInt8} {out : Int}

theorem cloneLoop_isSome
    (h : cl + n = vol.nrClusters + 1)
    (lastCl : Nat) :
    ∃ image, cloneLoop vol n cl lastCl = some image := by
  induction n generalizing cl lastCl with
  | zero => exact ⟨_, rfl⟩
  | succ n ih =>
    rw [cloneLoop]
    by_cases hused : vol.lcnBitmap cl = true
    · obtain ⟨rest, hrest⟩ := ih (show cl + 1 + n = vol.nrClusters + 1 by omega) cl
      rw [if_pos hused, copyClusterOut_eq (by omega), hrest]
      exact ⟨_, rfl⟩
    · obtain ⟨rest, hrest⟩ := ih (show cl + 1 + n = vol.nrClusters + 1 by omega) lastCl
      rw [if_neg hused]
      exact ⟨rest, hrest⟩

/-- The image behind a cluster in use: a gap, the cluster and the rest. -/
theorem cloneLoop_used
    (hcl : cl ≤ vol.nrClusters)
    (hused : vol.lcnBitmap cl = true)
    (himage : cloneLoop vol (n + 1) cl lastCl = some image) :
    ∃ rest, cloneLoop vol n (cl + 1) cl = some rest ∧ image = imageSkipClusters (cl - lastCl - 1) ++
        (cmdNext :: (clusterBytes vol cl ++ rest)) := by
  rw [cloneLoop, if_pos hused, copyClusterOut_eq hcl] at himage
  cases hrest : cloneLoop vol n (cl + 1) cl with
  | none =>
    rw [hrest] at himage
    cases himage
  | some rest =>
    rw [hrest] at himage
    rw [← Option.some.inj himage]
    simp

theorem restoreLoop_saved
    {pos count : Int} {rest : List UInt8}
    (hpos : 0 ≤ pos)
    (hout : 0 ≤ out)
    (hnr : pos ≤ vol.nrClusters)
    (hcl : cl ≤ vol.nrClusters)
    (htarget : pos + max count 0 = cl)
    (hfuel : (imageSkipClusters count ++ (cmdNext :: (clusterBytes vol cl ++ rest))).length <
      fuel) :
    ∃ fuel', rest.length < fuel' ∧ restoreLoop vol.hdr fuel pos out
          (imageSkipClusters count ++ (cmdNext :: (clusterBytes vol cl ++ rest))) =
        (restoreLoop vol.hdr fuel' (cl + 1)
          (out + max count 0 * vol.clusterSize + (clusterBytes vol cl).length) rest).map
          (((out + max count 0 * vol.clusterSize).toNat, clusterBytes vol cl) :: ·) := by
  obtain ⟨fuel', hfuel', hskip⟩ := restoreLoop_skip hpos hout hnr
    (by omega) hfuel
  cases fuel' with
  | zero => omega
  | succ fuel' =>
    simp only [List.length_cons, List.length_append] at hfuel'
    refine ⟨fuel', by omega, ?_⟩
    have hlen : (clusterBytes vol cl).length =
        min vol.clusterSize (vol.deviceSize - cl * vol.clusterSize) := by
      simp [clusterBytes]
    rw [hskip, htarget, restoreLoop_next hcl (copySize_eq hcl) hlen, hlen]

/--
From a cluster behind the last one that was saved on, the clusters in use are
restored to their own places.
-/
theorem restoreLoop_cloneLoop
    (hcount : cl + n = vol.nrClusters + 1)
    (hlast : lastCl < cl)
    (hend : n = 0 → lastCl + 1 = cl)
    (hout : cl ≤ vol.nrClusters → out = ((lastCl + 1) * vol.clusterSize : Nat))
    (himage : cloneLoop vol n cl lastCl = some image)
    (hfuel : image.length < fuel) :
    restoreLoop vol.hdr fuel (lastCl + 1) out image =
      .ok (((List.range' cl n).filter vol.lcnBitmap).map (ownWrite vol)) := by
  induction n generalizing cl lastCl fuel out image with
  | zero =>
    cases fuel with
    | zero => omega
    | succ fuel =>
      rw [restoreLoop_done (by simp only [CloneVolume.hdr]; omega)]
      rfl
  | succ n ih =>
    have hcl : cl ≤ vol.nrClusters := by omega
    by_cases hused : vol.lcnBitmap cl = true
    · obtain ⟨rest, hrest, rfl⟩ := cloneLoop_used hcl hused himage
      have hout' := hout hcl
      obtain ⟨fuel', hfuel', hstep⟩ := restoreLoop_saved
        (show (0 : Int) ≤ lastCl + 1 by omega) (show 0 ≤ out by omega) (by omega) hcl
        (by omega) hfuel
      have hplace : out + max ((cl : Int) - lastCl - 1) 0 * vol.clusterSize =
          ((cl * vol.clusterSize : Nat) : Int) := by
        rw [hout', max_eq_left (by omega)]
        push_cast
        ring
      rw [hstep, hplace, List.range'_succ, List.filter_cons_of_pos hused]
      have hbehind : cl + 1 ≤ vol.nrClusters →
          ((cl * vol.clusterSize : Nat) : Int) + (clusterBytes vol cl).length =
            ((cl + 1) * vol.clusterSize : Nat) := by
        intro hnextCl
        rw [clusterBytes, bytesAt_length, min_clusterSize (by omega)]
        push_cast
        ring
      have hnext := ih (by omega) (Nat.lt_succ_self cl)
        (fun _ => rfl) hbehind hrest hfuel'
      rw [hnext]
      rfl
    · have hnot : cl ≠ vol.nrClusters := by
        rintro rfl
        exact hused (lcnBitmap_slot vol)
      rw [cloneLoop, if_neg hused] at himage
      rw [List.range'_succ, List.filter_cons_of_neg hused]
      exact ih (by omega) (by omega) (by omega) (fun _ => hout hcl) himage hfuel

variable {k : Nat} {input : List UInt8} {writes : List TargetWrite}

/-- The clusters before the first one in use leave nothing in the image. -/
theorem cloneLoop_first
    (hcount : cl + n = vol.nrClusters + 1)
    (hle : cl ≤ k)
    (hk : k ≤ vol.nrClusters)
    (hfree : ∀ j, cl ≤ j → j < k → vol.lcnBitmap j = false)
    (himage : cloneLoop vol n cl lastCl = some image) :
    ∃ n', cloneLoop vol (n' + 1) k lastCl = some image := by
  induction n generalizing cl with
  | zero => omega
  | succ n ih =>
    by_cases heq : cl = k
    · subst heq
      exact ⟨n, himage⟩
    · have hunused := hfree cl le_rfl (by omega)
      rw [cloneLoop, if_neg (by simp [hunused])] at himage
      exact ih (by omega) (by omega) (fun j hj => hfree j (by omega)) himage

/-- A saved cluster goes to the position in the target, whatever it is. -/
theorem restoreLoop_next_mem
    (hcl : cl ≤ vol.nrClusters)
    (h : restoreLoop vol.hdr (fuel + 1) cl out (cmdNext :: input) = .ok writes) :
    ∃ buff, (out.toNat, buff) ∈ writes := by
  have hcmd : ¬cmdNext = cmdGap := by decide
  rw [restoreLoop, if_neg (by simp only [CloneVolume.hdr]; omega)] at h
  simp only [if_neg hcmd, CloneVolume.hdr, Int.toNat_natCast, copySize_eq hcl] at h
  cases hread : readAll (min vol.clusterSize (vol.deviceSize - cl * vol.clusterSize)) input with
  | none =>
    rw [hread] at h
    cases h
  | some r =>
    rw [hread] at h
    dsimp only at h
    cases hrest : restoreLoop vol.hdr fuel (cl + 1)
        (out + (min vol.clusterSize (vol.deviceSize - cl * vol.clusterSize) : Nat)) r.2 with
    | error e =>
      rw [CloneVolume.hdr] at hrest
      rw [hrest] at h
      exact absurd h (by simp [Except.map])
    | ok rest =>
      rw [CloneVolume.hdr] at hrest
      rw [hrest] at h
      cases h
      exact ⟨r.1, List.mem_cons_self⟩

/-- The writes to the target are those of the clusters in use, each to its place. -/
structure Restored (vol : CloneVolume) (writes : List TargetWrite) : Prop where
  each : ∀ cl < vol.nrClusters, vol.inUse cl = true → ownWrite vol cl ∈ writes
  /-- Nothing else is written but the slot of the backup boot sector. -/
  nothingElse : ∀ w ∈ writes, ∃ cl,
    (cl < vol.nrClusters ∧ vol.inUse cl = true ∨ cl = vol.nrClusters) ∧ w = ownWrite vol cl

theorem restored_ownWrites
    (vol : CloneVolume) :
    Restored vol
      (((List.range' 0 (vol.nrClusters + 1)).filter vol.lcnBitmap).map (ownWrite vol)) where
  each := by
    intro cl hcl hused
    apply List.mem_map_of_mem
    simp only [List.mem_filter, List.mem_range'_1, CloneVolume.lcnBitmap, hused, Bool.true_or,
      and_true]
    omega
  nothingElse := by
    intro w hw
    obtain ⟨cl, hcl, rfl⟩ := List.mem_map.mp hw
    simp only [List.mem_filter, List.mem_range'_1, CloneVolume.lcnBitmap, Bool.or_eq_true,
      decide_eq_true_eq] at hcl
    refine ⟨cl, ?_, rfl⟩
    rcases hcl.2 with hused | hbehind
    · rcases Nat.lt_or_ge cl vol.nrClusters with hlt | hge
      · exact Or.inl ⟨hlt, hused⟩
      · exact Or.inr (by omega)
    · exact Or.inr (by omega)

theorem restoreImage_own
    (hfirst : vol.lcnBitmap 0 = true)
    (himage : cloneNtfs vol = some image) :
    restoreImage image =
      .ok (((List.range' 0 (vol.nrClusters + 1)).filter vol.lcnBitmap).map (ownWrite vol)) := by
  obtain ⟨stream, hstream, rfl⟩ := Option.map_eq_some_iff.mp himage
  obtain ⟨rest, hrest, rfl⟩ := cloneLoop_used (Nat.zero_le _) hfirst hstream
  have hfuel := Nat.lt_succ_self (imageSkipClusters ((0 : Nat) - (0 : Nat) - 1) ++
    (cmdNext :: (clusterBytes vol 0 ++ rest))).length
  obtain ⟨fuel', hfuel', hstep⟩ := restoreLoop_saved (le_refl (0 : Int)) (le_refl (0 : Int))
    (by omega) (Nat.zero_le vol.nrClusters) (by simp) hfuel
  have hplace : (0 : Int) + max (((0 : Nat) : Int) - ((0 : Nat) : Int) - 1) 0 * vol.clusterSize =
      0 := by
    simp
  have hbehind : 0 + 1 ≤ vol.nrClusters →
      (0 : Int) + (clusterBytes vol 0).length = ((0 + 1) * vol.clusterSize : Nat) := by
    intro hnext
    rw [clusterBytes, min_clusterSize hnext]
    simp
  have hrun := restoreLoop_cloneLoop (by omega)
    (Nat.lt_succ_self 0) (fun _ => rfl) hbehind hrest hfuel'
  rw [hplace, hrun] at hstep
  rw [restoreImage, openImage_imageHdr]
  dsimp only
  rw [hstep, List.range'_succ, List.filter_cons_of_pos hfirst]
  simp [Except.map, ownWrite]

theorem first_used
    (vol : CloneVolume) :
    ∃ k, vol.lcnBitmap k = true ∧ ∀ j < k, vol.lcnBitmap j = false := by
  have hexists : ∃ k, vol.lcnBitmap k = true := ⟨_, lcnBitmap_slot vol⟩
  refine ⟨Nat.find hexists, Nat.find_spec hexists, ?_⟩
  intro j hj
  simpa using Nat.find_min hexists hj

/-- The gap before the first saved cluster is one too small if that is not cluster 0. -/
theorem misplaced
    (hpos : 0 < k)
    (hk : k ≤ vol.nrClusters)
    (h : restoreLoop vol.hdr ((imageSkipClusters ((k : Int) - (0 : Nat) - 1) ++
      (cmdNext :: input)).length + 1) 0 0
      (imageSkipClusters ((k : Int) - (0 : Nat) - 1) ++ (cmdNext :: input)) = .ok writes) :
    ∃ buff, ((k - 1) * vol.clusterSize, buff) ∈ writes := by
  have hcount : (0 : Int) + ((k : Int) - (0 : Nat) - 1) ≤ vol.nrClusters := by omega
  obtain ⟨fuel, hfuel, hskip⟩ := restoreLoop_skip (le_refl (0 : Int)) (le_refl (0 : Int))
    (by omega) hcount (Nat.lt_succ_self (imageSkipClusters ((k : Int) - (0 : Nat) - 1) ++
      (cmdNext :: input)).length)
  have hplace : max ((k : Int) - (0 : Nat) - 1) 0 = ((k - 1 : Nat) : Int) := by omega
  rw [h, hplace, zero_add, zero_add] at hskip
  cases fuel with
  | zero => omega
  | succ fuel =>
    have hmem := restoreLoop_next_mem (by omega) hskip.symm
    rwa [← Int.natCast_mul] at hmem

/--
An image that was saved is restored with each cluster in use at its own place and
nothing else written, exactly when cluster 0 is in use.
-/
theorem restoreImage_cloneNtfs_iff
    (vol : CloneVolume) :
    (∃ image writes, cloneNtfs vol = some image ∧ restoreImage image = .ok writes ∧
      Restored vol writes) ↔
      (0 < vol.nrClusters → vol.inUse 0 = true) := by
  constructor
  · rintro ⟨image, writes, himage, hrestore, hrestored⟩ hpos
    by_contra hunused
    have hfree : vol.lcnBitmap 0 ≠ true := by
      simp [CloneVolume.lcnBitmap, hunused]
      omega
    -- the first cluster in use lands one cluster too low
    obtain ⟨k, hused, hmin⟩ := first_used vol
    have hk : k ≤ vol.nrClusters := by
      by_contra hcon
      exact absurd (lcnBitmap_slot vol) (by simp [hmin vol.nrClusters (by omega)])
    have hkpos : 0 < k := by
      rcases Nat.eq_zero_or_pos k with rfl | hkpos
      · exact absurd hused hfree
      · exact hkpos
    obtain ⟨stream, hstream, rfl⟩ := Option.map_eq_some_iff.mp himage
    obtain ⟨n', hfirst⟩ := cloneLoop_first (by omega) (Nat.zero_le k) hk
      (fun j _ hj => hmin j hj) hstream
    obtain ⟨rest, _, rfl⟩ := cloneLoop_used hk hused hfirst
    rw [restoreImage, openImage_imageHdr] at hrestore
    obtain ⟨buff, hbuff⟩ := misplaced hkpos hk hrestore
    obtain ⟨cl, hcl, hw⟩ := hrestored.nothingElse _ hbuff
    have hsame : cl = k - 1 := by
      have hplace := congrArg Prod.fst hw
      exact (Nat.eq_of_mul_eq_mul_right vol.clusterSize_pos hplace).symm
    have hbelow := hmin (k - 1) (by omega)
    simp only [CloneVolume.lcnBitmap, Bool.or_eq_false_iff] at hbelow
    rcases hcl with ⟨_, hcl⟩ | hcl
    · rw [hsame, hbelow.1] at hcl
      cases hcl
    · omega
  · intro hfirst
    have hused : vol.lcnBitmap 0 = true := by
      rcases Nat.eq_zero_or_pos vol.nrClusters with hzero | hpos
      · simp [CloneVolume.lcnBitmap, hzero]
      · simp [CloneVolume.lcnBitmap, hfirst hpos]
    obtain ⟨stream, hstream⟩ := cloneLoop_isSome (Nat.zero_add (vol.nrClusters + 1)) 0
    have himage : cloneNtfs vol = some (imageHdr vol ++ stream) := by
      rw [cloneNtfs, hstream]
      rfl
    exact ⟨_, _, himage, restoreImage_own hused himage, restored_ownWrites vol⟩

/-- A volume of three clusters of 512 bytes whose cluster 0 is not in use. -/
def unusedFirst : CloneVolume where
  nrClusters := 3
  clusterSize := 512
  deviceSize := 2048
  inuse := 1
  dev := fun j => if j = 512 then 0x55 else 0
  inUse := fun cl => cl == 1
  clusterSize_pos := by decide
  clusterSize_lt := by decide
  deviceSize_lt := by decide
  nrClusters_fits := by decide

/-- Cluster 1 is the only one in use, and it is restored to cluster 0. -/
theorem restoreImage_unusedFirst :
    (cloneNtfs unusedFirst).map (fun image => (restoreImage image).map (List.map Prod.fst)) =
        some (.ok [0, 1024]) ∧
      ∀ image writes, cloneNtfs unusedFirst = some image → restoreImage image = .ok writes →
        ¬Restored unusedFirst writes := by
  have hrun : (cloneNtfs unusedFirst).map
      (fun image => (restoreImage image).map (List.map Prod.fst)) = some (.ok [0, 1024]) := by
    decide +kernel
  refine ⟨hrun, ?_⟩
  intro image writes himage hrestore hrestored
  rw [himage, Option.map_some, hrestore] at hrun
  have hplaces : writes.map Prod.fst = [0, 1024] := Except.ok.inj (Option.some.inj hrun)
  obtain ⟨w, hw, hzero⟩ : ∃ w ∈ writes, w.1 = 0 := by
    rw [← List.mem_map, hplaces]
    simp
  obtain ⟨cl, hcl, rfl⟩ := hrestored.nothingElse w hw
  simp only [ownWrite, unusedFirst, beq_iff_eq] at hcl hzero
  omega

end RoundTrip

end NtfsPlus.Ntfsclone
