import NtfsPlus.Libntfs.RunlistBasic

/-!
# Building the mapping pairs array

`ntfs_write_significant_bytes` and `ntfs_mapping_pairs_build` of
`libntfs/runlist.c`.  Pointers into the destination buffer are offsets from
its first byte, and `dst_max` is the offset of the last byte that may be
written (`-1` for an empty buffer).

`pairBytes` and `encodeRuns` state the format itself: a header byte with the
two widths, the significant bytes of the length, and for a real run those of
the change of LCN.  The spec lemmas say that the builder stores exactly these
bytes, followed by the zero terminator, whenever the buffer has room, and
where it stops when it has not.
-/

namespace NtfsPlus.Libntfs

open SignedBytes

section MappingPairsBuild

/-- The `while` loop of `ntfs_write_significant_bytes`. -/
def writeSignificantBytesLoop (dstMax : Int) :
    Nat → Bytes → Nat → Int → Nat → Bytes × Option Nat
  | 0, mem, _, _, i => (mem, some i)
  | fuel + 1, mem, dst, l, i =>
    if l > 0x7f ∨ l < -0x80 then
      if (dst : Int) > dstMax then
        (mem, none)
      else
        writeSignificantBytesLoop dstMax fuel
          (setByte mem dst (byteOf (l / 256))) (dst + 1) (l / 256) (i + 1)
    else
      (mem, some i)

/--
`ntfs_write_significant_bytes`: the buffer after the call, and the number of
bytes written or `none` for `ENOSPC`.  A 64-bit number has at most eight
significant bytes.
-/
def writeSignificantBytes
    (mem : Bytes) (dst : Nat) (dstMax n : Int) :
    Bytes × Option Nat :=
  if (dst : Int) > dstMax then
    (mem, none)
  else
    writeSignificantBytesLoop dstMax 7 (setByte mem dst (byteOf n)) (dst + 1) n 1

/-- Write the change of LCN if there is one; the number of bytes it took. -/
def writeChange
    (mem : Bytes) (dst : Nat) (dstMax : Int) :
    Option Int → Bytes × Option Nat
  | none => (mem, some 0)
  | some d => writeSignificantBytes mem dst dstMax d

/--
One mapping pair at `dst`: the length, the change of LCN if there is one, and
the header byte.  Returns the next position, or `none` for a full buffer.
-/
def writeMappingPair
    (mem : Bytes) (dst : Nat) (dstMax length : Int) (change : Option Int) :
    Bytes × Option Nat :=
  match writeSignificantBytes mem (dst + 1) dstMax length with
  | (mem₁, none) => (mem₁, none)
  | (mem₁, some lenLen) =>
    match writeChange mem₁ (dst + 1 + lenLen) dstMax change with
    | (mem₂, none) => (mem₂, none)
    | (mem₂, some lcnLen) =>
      let dstNext := dst + lenLen + lcnLen + 1
      if (dstNext : Int) > dstMax then
        (mem₂, none)
      else
        (setByte mem₂ dst (UInt8.ofNat (lcnLen <<< 4 ||| lenLen)), some dstNext)

/-- What `ntfs_mapping_pairs_build` leaves behind. -/
structure BuildResult where
  /-- `none` for a return value of 0. -/
  errno : Option Errno
  /-- The destination buffer. -/
  dst : Bytes
  /-- `*stop_rl`, where it has been set. -/
  stopRl : Option Runlist

/-- The error of a run that is not a mapped one. -/
def buildErrno (e : RunlistElement) : Errno :=
  if e.lcn = lcnRlNotMapped then .einval else .eio

/-- The change of LCN that is stored for a run, if any. -/
def lcnChange (vol : Volume) (lcn prevLcn : Int) : Option Int :=
  if lcn ≥ 0 ∨ vol.majorVer < 3 then some (lcn - prevLcn) else none

/-- The running LCN after a run. -/
def nextLcn (vol : Volume) (lcn prevLcn : Int) : Int :=
  if lcn ≥ 0 ∨ vol.majorVer < 3 then lcn else prevLcn

/-- The full runs of `ntfs_mapping_pairs_build`. -/
def mappingPairsBuildRuns (vol : Volume) (dstMax : Int) :
    Runlist → Bytes → Nat → Int → BuildResult
  | [], mem, dst, _ => ⟨none, setByte mem dst 0, some []⟩
  | e :: rest, mem, dst, prevLcn =>
    if e.length = 0 then
      ⟨none, setByte mem dst 0, some (e :: rest)⟩
    else if e.length < 0 ∨ e.lcn < lcnHole then
      ⟨some (buildErrno e), mem, none⟩
    else
      match writeMappingPair mem dst dstMax e.length (lcnChange vol e.lcn prevLcn) with
      | (mem', none) => ⟨some .enospc, setByte mem' dst 0, some (e :: rest)⟩
      | (mem', some dst') =>
        mappingPairsBuildRuns vol dstMax rest mem' dst' (nextLcn vol e.lcn prevLcn)

/-- Skip to the runlist element containing `startVcn`. -/
def skipToVcn (startVcn : Int) : Runlist → Runlist
  | [] => []
  | [e] => [e]
  | e :: next :: rest =>
    if e.length ≠ 0 ∧ startVcn ≥ next.vcn then
      skipToVcn startVcn (next :: rest)
    else
      e :: next :: rest

/-- `ntfs_mapping_pairs_build`. -/
def mappingPairsBuild
    (vol : Volume) (mem : Bytes) (dstLen : Int)
    (rl : Option Runlist) (startVcn : Int) :
    BuildResult :=
  if startVcn < 0 then
    ⟨some .einval, mem, none⟩
  else
    match rl with
    | none =>
      if startVcn ≠ 0 then
        ⟨some .einval, mem, none⟩
      else if dstLen < 1 then
        ⟨some .enospc, mem, none⟩
      else
        ⟨none, setByte mem 0 0, none⟩
    | some rl =>
      match skipToVcn startVcn rl with
      | [] => ⟨some .einval, mem, none⟩
      | e :: rest =>
        if (e.length = 0 ∧ startVcn > e.vcn) ∨ startVcn < e.vcn then
          ⟨some .einval, mem, none⟩
        else if startVcn > e.vcn then
          -- the first run is only stored from startVcn on
          if e.length < 0 ∨ e.lcn < lcnHole then
            ⟨some (buildErrno e), mem, none⟩
          else
            let delta := startVcn - e.vcn
            let first := if e.lcn ≥ 0 then e.lcn + delta else e.lcn
            match writeMappingPair mem 0 (dstLen - 1) (e.length - delta)
                (lcnChange vol first 0) with
            | (mem', none) => ⟨some .enospc, setByte mem' 0 0, some (e :: rest)⟩
            | (mem', some dst') =>
              mappingPairsBuildRuns vol (dstLen - 1) rest mem' dst' (nextLcn vol first 0)
        else
          mappingPairsBuildRuns vol (dstLen - 1) (e :: rest) mem 0 0

/-- The bytes of a length or an LCN change, at most eight of them. -/
def sigBytes (n : Int) : List UInt8 :=
  significant 7 n

variable (n dstMax : Int) (k : Nat) (mem : Bytes) (dst : Nat) (l length : Int) (i : Nat)
variable (change : Option Int) (vol : Volume) (prevLcn : Int) (runs : List RunlistElement)

theorem sigBytes_length_pos : 0 < (sigBytes n).length :=
  significant_length_pos 7 n

theorem sigBytes_length_le : (sigBytes n).length ≤ 8 :=
  significant_length_le 7 n

variable {j : Nat} {v w m : Int} {pre suf : List RunlistElement}

/-- The bytes in front of the destination and those behind the buffer are kept. -/
theorem writeSignificantBytesLoop_frame
    (hj : j < dst ∨ dstMax < j) :
    (writeSignificantBytesLoop dstMax k mem dst l i).1 j = mem j := by
  induction k generalizing mem dst l i with
  | zero => rfl
  | succ k ih =>
    unfold writeSignificantBytesLoop
    split_ifs with hbig hfull
    · rfl
    · rw [ih _ (dst + 1) _ _ (by omega)]
      exact setByte_of_ne _ _ (by omega)
    · rfl

theorem writeSignificantBytesLoop_some
    {n : Nat}
    (h : (writeSignificantBytesLoop dstMax k mem dst l i).2 = some n) :
    n + 1 = i + (significant k l).length ∧
      HoldsBytes (writeSignificantBytesLoop dstMax k mem dst l i).1 dst (significant k l).tail := by
  induction k generalizing mem dst l i with
  | zero =>
    have hn : i = n := by simpa [writeSignificantBytesLoop] using h
    simp [significant, hn]
  | succ k ih =>
    unfold writeSignificantBytesLoop at h ⊢
    unfold significant
    split_ifs at h ⊢ with hbig hfull
    · obtain ⟨hlen, hholds⟩ := ih _ _ _ _ h
      refine ⟨by simp only [List.length_cons]; omega, ?_⟩
      obtain ⟨b, bs, hbs⟩ :=
        List.exists_cons_of_ne_nil (significant_ne_nil k (l / 256))
      have hb : b = byteOf (l / 256) := by
        cases k with
        | zero =>
          simp [significant] at hbs
          exact hbs.1.symm
        | succ k =>
          unfold significant at hbs
          split_ifs at hbs <;> simp at hbs <;> exact hbs.1.symm
      rw [hbs]
      rw [hbs] at hholds
      refine ⟨?_, hholds⟩
      rw [writeSignificantBytesLoop_frame _ _ _ _ _ _ (.inl (Nat.lt_succ_self dst)),
        setByte_same, hb]
    · have hn : i = n := by simpa using h
      simp [hn]

theorem writeSignificantBytesLoop_room
    (hroom : (dst : Int) + (significant k l).length ≤ dstMax + 2) :
    ∃ n, (writeSignificantBytesLoop dstMax k mem dst l i).2 = some n := by
  induction k generalizing mem dst l i with
  | zero => exact ⟨i, rfl⟩
  | succ k ih =>
    unfold writeSignificantBytesLoop
    unfold significant at hroom
    split_ifs at hroom ⊢ with hbig hfull
    · have := significant_length_pos k (l / 256)
      simp only [List.length_cons] at hroom
      omega
    · apply ih
      simp only [List.length_cons] at hroom
      omega
    · exact ⟨i, rfl⟩

theorem sigBytes_eq : sigBytes n = byteOf n :: (sigBytes n).tail := by
  unfold sigBytes significant
  split_ifs <;> rfl

/-- Bytes outside of the buffer stay. -/
theorem writeSignificantBytes_frame
    (dstMax n : Int)
    (hj : j < dst ∨ dstMax < j) :
    (writeSignificantBytes mem dst dstMax n).1 j = mem j := by
  unfold writeSignificantBytes
  split_ifs with hfull
  · rfl
  · rw [writeSignificantBytesLoop_frame _ _ _ _ _ _ (by omega)]
    exact setByte_of_ne _ _ (by omega)

/-- A number that fits is stored whole. -/
theorem writeSignificantBytes_some
    {mem : Bytes} {dst : Nat} {dstMax n : Int} {len : Nat}
    (h : (writeSignificantBytes mem dst dstMax n).2 = some len) :
    len = (sigBytes n).length ∧ HoldsBytes (writeSignificantBytes mem dst dstMax n).1 dst
        (sigBytes n) := by
  unfold writeSignificantBytes at *
  split_ifs at h ⊢ with hfull
  obtain ⟨hlen, hholds⟩ := writeSignificantBytesLoop_some _ _ _ _ _ _ h
  refine ⟨by unfold sigBytes; omega, ?_⟩
  rw [sigBytes_eq]
  refine ⟨?_, hholds⟩
  rw [writeSignificantBytesLoop_frame _ _ _ _ _ _ (.inl (Nat.lt_succ_self dst)), setByte_same]

/-- With room for its bytes a number fits. -/
theorem writeSignificantBytes_room
    (dstMax n : Int)
    (hroom : (dst : Int) + (sigBytes n).length ≤ dstMax + 1) :
    ∃ len, (writeSignificantBytes mem dst dstMax n).2 = some len := by
  have hpos := sigBytes_length_pos n
  unfold writeSignificantBytes
  split_ifs with hfull
  · omega
  · apply writeSignificantBytesLoop_room
    unfold sigBytes at hroom
    omega

/-- The header byte: the two widths. -/
def pairHeader (lenLen lcnLen : Nat) : UInt8 :=
  UInt8.ofNat (lcnLen <<< 4 ||| lenLen)

/-- The stored change of LCN. -/
def changeBytes : Option Int → List UInt8
  | none => []
  | some d => sigBytes d

theorem changeBytes_length_le : (changeBytes change).length ≤ 8 := by
  cases change with
  | none => simp [changeBytes]
  | some d => exact sigBytes_length_le d

/-- One mapping pair as bytes. -/
def pairBytes (length : Int) (change : Option Int) : List UInt8 :=
  pairHeader (sigBytes length).length (changeBytes change).length ::
    (sigBytes length ++ changeBytes change)

theorem pairBytes_length :
    (pairBytes length change).length =
      (sigBytes length).length + (changeBytes change).length + 1 := by
  simp [pairBytes]

theorem writeChange_frame
    (dstMax : Int)
    (change : Option Int)
    (hj : j < dst ∨ dstMax < j) :
    (writeChange mem dst dstMax change).1 j = mem j := by
  cases change with
  | none => rfl
  | some d => exact writeSignificantBytes_frame mem dst dstMax d hj

theorem writeChange_some
    {mem : Bytes} {dst : Nat} {dstMax : Int} {change : Option Int} {len : Nat}
    (h : (writeChange mem dst dstMax change).2 = some len) :
    len = (changeBytes change).length ∧ HoldsBytes (writeChange mem dst dstMax change).1 dst
        (changeBytes change) := by
  cases change with
  | none => simpa [writeChange, changeBytes, eq_comm] using h
  | some d => exact writeSignificantBytes_some h

theorem writeChange_room
    (dstMax : Int)
    (change : Option Int)
    (hroom : (dst : Int) + (changeBytes change).length ≤ dstMax + 1) :
    ∃ len, (writeChange mem dst dstMax change).2 = some len := by
  cases change with
  | none => exact ⟨0, rfl⟩
  | some d => exact writeSignificantBytes_room mem dst dstMax d hroom

/-- A pair changes no byte outside of the buffer. -/
theorem writeMappingPair_frame
    (dstMax length : Int)
    (change : Option Int)
    (hj : j < dst ∨ dstMax < j) :
    (writeMappingPair mem dst dstMax length change).1 j = mem j := by
  have h₁ : (writeSignificantBytes mem (dst + 1) dstMax length).1 j = mem j :=
    writeSignificantBytes_frame mem (dst + 1) dstMax length (by omega)
  unfold writeMappingPair
  rcases hlen : writeSignificantBytes mem (dst + 1) dstMax length with
    ⟨mem₁, _ | lenLen⟩
  · simpa [hlen] using h₁
  · have h₂ := writeChange_frame mem₁ (dst + 1 + lenLen) dstMax change
      (hj.imp_left fun hj => show j < dst + 1 + lenLen by omega)
    rw [hlen] at h₁
    rcases hchg : writeChange mem₁ (dst + 1 + lenLen) dstMax change with
      ⟨mem₂, _ | lcnLen⟩
    · simpa [hchg] using h₂.trans h₁
    · rw [hchg] at h₂
      dsimp only at h₁ h₂ ⊢
      rw [hchg]
      dsimp only
      split_ifs with hfull
      · exact h₂.trans h₁
      · exact (setByte_of_ne _ _ (by omega)).trans (h₂.trans h₁)

/-- A stored pair is the pair's bytes, and one more byte still fits. -/
theorem writeMappingPair_some
    {mem : Bytes} {dst : Nat} {dstMax length : Int} {change : Option Int} {next : Nat}
    (h : (writeMappingPair mem dst dstMax length change).2 = some next) :
    next = dst + (pairBytes length change).length ∧ (next : Int) ≤ dstMax ∧
      HoldsBytes (writeMappingPair mem dst dstMax length change).1 dst
        (pairBytes length change) := by
  have h₁ := @writeSignificantBytes_some mem (dst + 1) dstMax length
  unfold writeMappingPair at h ⊢
  rcases hlen : writeSignificantBytes mem (dst + 1) dstMax length with
    ⟨mem₁, _ | lenLen⟩
  · simp [hlen] at h
  · rw [hlen] at h h₁
    obtain ⟨rfl, hlenBytes⟩ := h₁ rfl
    have h₂ := @writeChange_some mem₁ (dst + 1 + (sigBytes length).length) dstMax change
    have hframe := fun j hj => writeChange_frame mem₁
      (dst + 1 + (sigBytes length).length) dstMax change (j := j) (.inl hj)
    rcases hchg : writeChange mem₁ (dst + 1 + (sigBytes length).length) dstMax
      change with ⟨mem₂, _ | lcnLen⟩
    · simp [hchg] at h
    · rw [hchg] at h₂ hframe
      obtain ⟨rfl, hchgBytes⟩ := h₂ rfl
      dsimp only at h hlenBytes hchgBytes hframe ⊢
      rw [hchg] at h ⊢
      dsimp only at h ⊢
      split_ifs at h ⊢ with hfull
      cases h
      refine ⟨by rw [pairBytes_length]; omega, by omega, ?_⟩
      rw [pairBytes, holdsBytes_cons, holdsBytes_append]
      refine ⟨setByte_same _ _ _, ?_, ?_⟩
      · apply hlenBytes.frame
        intro j hlo hhi
        exact (setByte_of_ne _ _ (by omega)).trans (hframe j hhi)
      · apply hchgBytes.frame
        intro j hlo _
        exact setByte_of_ne _ _ (by omega)

/-- With room for its bytes a pair fits. -/
theorem writeMappingPair_room
    (dstMax length : Int)
    (change : Option Int)
    (hroom : (dst : Int) + (pairBytes length change).length ≤ dstMax) :
    ∃ next, (writeMappingPair mem dst dstMax length change).2 = some next := by
  rw [pairBytes_length] at hroom
  obtain ⟨lenLen, hlen⟩ := writeSignificantBytes_room mem (dst + 1) dstMax length
    (by push_cast; omega)
  obtain ⟨rfl, -⟩ := writeSignificantBytes_some hlen
  obtain ⟨lcnLen, hlcn⟩ := writeChange_room (writeSignificantBytes mem (dst + 1) dstMax length).1
    (dst + 1 + (sigBytes length).length) dstMax change (by push_cast; omega)
  obtain ⟨rfl, -⟩ := writeChange_some hlcn
  unfold writeMappingPair
  rcases hr : writeSignificantBytes mem (dst + 1) dstMax length with ⟨mem₁, r⟩
  rw [hr] at hlen hlcn
  obtain rfl : r = some _ := hlen
  dsimp only at hlcn ⊢
  rcases hc : writeChange mem₁ (dst + 1 + (sigBytes length).length) dstMax
    change with ⟨mem₂, c⟩
  rw [hc] at hlcn
  obtain rfl : c = some _ := hlcn
  dsimp only
  rw [if_neg (by push_cast; omega)]
  exact ⟨_, rfl⟩

/-- The mapping pairs of a list of runs, after a run at `prevLcn`. -/
def encodeRuns (vol : Volume) : Int → List RunlistElement → List UInt8
  | _, [] => []
  | prevLcn, e :: rest =>
    pairBytes e.length (lcnChange vol e.lcn prevLcn) ++
      encodeRuns vol (nextLcn vol e.lcn prevLcn) rest

theorem length_le_encodeRuns : runs.length ≤ (encodeRuns vol prevLcn runs).length := by
  induction runs generalizing prevLcn with
  | nil => simp
  | cons e rest ih =>
    have hrest := ih (nextLcn vol e.lcn prevLcn)
    have hpair := pairBytes_length e.length (lcnChange vol e.lcn prevLcn)
    rw [encodeRuns, List.length_append, List.length_cons]
    omega

/-- A pair takes at most seventeen bytes. -/
theorem encodeRuns_length_le : (encodeRuns vol prevLcn runs).length ≤ 17 * runs.length := by
  induction runs generalizing prevLcn with
  | nil => simp [encodeRuns]
  | cons e rest ih =>
    have hrest := ih (nextLcn vol e.lcn prevLcn)
    have hlen := sigBytes_length_le e.length
    have hlcn := changeBytes_length_le (lcnChange vol e.lcn prevLcn)
    have hpair := pairBytes_length e.length (lcnChange vol e.lcn prevLcn)
    rw [encodeRuns, List.length_append, List.length_cons]
    omega

/-- What the builder asks of each run. -/
def Storable (runs : List RunlistElement) : Prop :=
  ∀ e ∈ runs, 0 < e.length ∧ lcnHole ≤ e.lcn

theorem MappedRuns.storable
    {runs : List RunlistElement}
    (h : MappedRuns v runs w) :
    Storable runs :=
  fun _ he => ⟨(h.mappedRun he).length_pos, (h.mappedRun he).lcn_ge⟩

/--
The builder stores the pairs of a first part of the runs and a zero byte, all
inside the buffer; it reports `ENOSPC` and where it stopped exactly when runs
are left.
-/
theorem mappingPairsBuildRuns_spec
    (dstMax : Int)
    (runs : List RunlistElement)
    (t : RunlistElement)
    (mem : Bytes)
    (dst : Nat)
    (prevLcn : Int)
    (hruns : Storable runs)
    (ht : t.length = 0) :
    ∃ stored left, runs = stored ++ left ∧
      (mappingPairsBuildRuns vol dstMax (runs ++ [t]) mem dst prevLcn).errno =
        (if left = [] then none else some .enospc) ∧
      (mappingPairsBuildRuns vol dstMax (runs ++ [t]) mem dst prevLcn).stopRl = some (left ++ [t]) ∧
      (∀ j, j < dst → (mappingPairsBuildRuns vol dstMax (runs ++ [t]) mem dst prevLcn).dst j =
          mem j) ∧
      HoldsBytes
        (mappingPairsBuildRuns vol dstMax (runs ++ [t]) mem dst prevLcn).dst
        dst (encodeRuns vol prevLcn stored ++ [0]) ∧
      (stored ≠ [] ∨ (dst : Int) ≤ dstMax →
        (dst : Int) + (encodeRuns vol prevLcn stored).length ≤ dstMax) := by
  induction runs generalizing mem dst prevLcn with
  | nil =>
    refine ⟨[], [], rfl, ?_⟩
    simp only [List.nil_append, mappingPairsBuildRuns, ht, if_true]
    refine ⟨trivial, trivial, ?_, ?_, by simp [encodeRuns]⟩
    · exact fun j hj => setByte_of_ne _ _ (by omega)
    · simp [encodeRuns]
  | cons e rest ih =>
    obtain ⟨hlen, hlcn⟩ := hruns e (by simp)
    have hrest : Storable rest := fun e' he' => hruns e' (by simp [he'])
    simp only [List.cons_append, mappingPairsBuildRuns]
    rw [if_neg (by omega), if_neg (by omega)]
    have hframe := fun j (hj : j < dst) => writeMappingPair_frame mem dst dstMax
      e.length (lcnChange vol e.lcn prevLcn) (.inl hj)
    have hsome := @writeMappingPair_some mem dst dstMax e.length (lcnChange vol e.lcn prevLcn)
    rcases hpair : writeMappingPair mem dst dstMax e.length
      (lcnChange vol e.lcn prevLcn) with ⟨mem', _ | next⟩
    · rw [hpair] at hframe
      refine ⟨[], e :: rest, rfl, by simp, rfl, ?_, by simp [encodeRuns], by simp [encodeRuns]⟩
      exact fun j hj => (setByte_of_ne _ _ (by omega)).trans (hframe j hj)
    · rw [hpair] at hframe hsome
      obtain ⟨hnext, hmax, hholds⟩ := hsome rfl
      obtain ⟨stored, left, hsplit, herr, hstop, hkeep, hbytes, hinside⟩ :=
        ih mem' next (nextLcn vol e.lcn prevLcn) hrest
      refine ⟨e :: stored, left, by rw [hsplit]; rfl, herr, hstop, ?_, ?_, ?_⟩
      · exact fun j hj => (hkeep j (by omega)).trans (hframe j hj)
      · rw [encodeRuns, List.append_assoc, holdsBytes_append]
        refine ⟨hholds.frame (fun j _ hj => hkeep j (by omega)), ?_⟩
        rw [← hnext]
        exact hbytes
      · rw [encodeRuns, List.length_append]
        omega

/-- With room for the pairs and the zero byte the builder succeeds. -/
theorem mappingPairsBuildRuns_room
    (dstMax : Int)
    (runs : List RunlistElement)
    (t : RunlistElement)
    (mem : Bytes)
    (dst : Nat)
    (prevLcn : Int)
    (hruns : Storable runs)
    (ht : t.length = 0)
    (hroom : (dst : Int) + (encodeRuns vol prevLcn runs).length ≤ dstMax) :
    (mappingPairsBuildRuns vol dstMax (runs ++ [t]) mem dst prevLcn).errno =
      none := by
  induction runs generalizing mem dst prevLcn with
  | nil => simp [mappingPairsBuildRuns, ht]
  | cons e rest ih =>
    obtain ⟨hlen, hlcn⟩ := hruns e (by simp)
    have hrest : Storable rest := fun e' he' => hruns e' (by simp [he'])
    rw [encodeRuns, List.length_append] at hroom
    obtain ⟨next, hnext⟩ := writeMappingPair_room mem dst dstMax e.length
      (lcnChange vol e.lcn prevLcn) (by omega)
    obtain ⟨hval, -, -⟩ := writeMappingPair_some hnext
    simp only [List.cons_append, mappingPairsBuildRuns]
    rw [if_neg (by omega), if_neg (by omega)]
    rcases hpair : writeMappingPair mem dst dstMax e.length
      (lcnChange vol e.lcn prevLcn) with ⟨mem', r⟩
    rw [hpair] at hnext
    obtain rfl : r = some next := hnext
    exact ih mem' next _ hrest (by rw [hval]; push_cast; omega)

/-- Skipping to a boundary between runs leaves the runs behind it. -/
theorem skipToVcn_append
    (hpre : MappedRuns v pre m)
    (hsuf : MappedRuns m suf w) :
    skipToVcn m (pre ++ (suf ++ [enoentAt w])) = suf ++ [enoentAt w] := by
  induction pre generalizing v with
  | nil =>
    cases suf with
    | nil => rfl
    | cons e suf =>
      obtain ⟨hv, he, hrest⟩ := hsuf
      have hpos := he.length_pos
      cases suf with
      | nil =>
        have hw : w = m + e.length := hrest
        simp only [List.nil_append, List.cons_append, skipToVcn, enoentAt]
        rw [if_neg (by omega)]
      | cons e' suf =>
        have hv' : e'.vcn = m + e.length := hrest.1
        simp only [List.nil_append, List.cons_append, skipToVcn]
        rw [if_neg (by omega)]
  | cons e pre ih =>
    obtain ⟨hv, he, hrest⟩ := hpre
    have hpos := he.length_pos
    have hle := hrest.le
    refine Eq.trans ?_ (ih hrest)
    cases pre with
    | nil =>
      cases suf with
      | nil =>
        have hw : w = m := hsuf
        simp only [List.nil_append, List.cons_append, skipToVcn, enoentAt]
        rw [if_pos (by omega)]
      | cons e' suf =>
        have hv' : e'.vcn = m := hsuf.1
        simp only [List.nil_append, List.cons_append, skipToVcn]
        rw [if_pos (by omega)]
    | cons e' pre =>
      have hv' : e'.vcn = v + e.length := hrest.1
      simp only [List.cons_append, skipToVcn]
      rw [if_pos (by omega)]

/-- Built from a boundary on, only the runs behind it are stored. -/
theorem mappingPairsBuild_append
    (mem : Bytes)
    (dstLen : Int)
    (hpre : MappedRuns 0 pre m)
    (hsuf : MappedRuns m suf w) :
    mappingPairsBuild vol mem dstLen (some (pre ++ (suf ++ [enoentAt w]))) m =
      mappingPairsBuildRuns vol (dstLen - 1) (suf ++ [enoentAt w]) mem 0 0 := by
  have hm := hpre.le
  unfold mappingPairsBuild
  rw [if_neg (by omega)]
  dsimp only
  rw [skipToVcn_append hpre hsuf]
  cases suf with
  | nil =>
    have hw : w = m := hsuf
    simp [hw, enoentAt]
  | cons e suf =>
    have hv : e.vcn = m := hsuf.1
    simp [hv]

end MappingPairsBuild

end NtfsPlus.Libntfs
