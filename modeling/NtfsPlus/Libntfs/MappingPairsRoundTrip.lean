import NtfsPlus.Libntfs.MappingPairsBuild
import NtfsPlus.Libntfs.MappingPairsDecompress

/-!
# Mapping pairs round trip

The decoder read over the bytes the builder wrote.  One pair decodes to the
run it was written for (`decompressPair_pairBytes`), so by induction over the
runs the decoder emits exactly these runs, carrying the running LCN of the
builder (`decompressPairs_encodeRuns`).

`mappingPairsDecompress_build` is the round trip for one attribute: outside fsck
mode on NTFS 3.x the runlist comes back if and only if it has fewer than 65536
runs.  From 65536 runs on the `u16` index of the decoder starts again at 0 and
the runs before are lost.
-/

namespace NtfsPlus.Libntfs

open SignedBytes

section PairRoundTrip

theorem sigBytes_value
    {n : Int}
    (h : InS64 n) :
    value (sigBytes n) = n :=
  value_significant 7 n h.1 h.2

theorem toNat_pairHeader
    {lenLen lcnLen : Nat}
    (hlen : lenLen ≤ 8)
    (hlcn : lcnLen ≤ 8) :
    (pairHeader lenLen lcnLen).toNat = 16 * lcnLen + lenLen := by
  unfold pairHeader
  rw [← Nat.shiftLeft_add_eq_or_of_lt (by omega),
    UInt8.toNat_ofNat_of_lt' (by simp [UInt8.size]; omega)]
  omega

/-- The state after the pair of a run of the given length. -/
def DecodeState.afterPair (st : DecodeState) (length : Int) (change : Option Int) : DecodeState :=
  let next :=
    { st with
      vcn := st.vcn + length
      buf := st.buf + (pairBytes length change).length }
  match change with
  | none => next.emit ⟨st.vcn, lcnHole, length⟩
  | some d => { next with lcn := st.lcn + d }.emit ⟨st.vcn, st.lcn + d, length⟩

/-- Decoding an encoded pair. -/
theorem decompressPair_pairBytes
    {vol : Volume} {attr : AttrRecord} {st : DecodeState} {length : Int} {change : Option Int}
    (hfsck : vol.onFsck = false)
    (hbytes : HoldsBytes attr.bytes st.buf (pairBytes length change))
    (hend : st.buf + (pairBytes length change).length ≤ attr.length)
    (hpos : 0 < length)
    (hlen : InS64 length)
    (hvcn : InS64 (st.vcn + length))
    (hchange : ∀ d ∈ change, InS64 d ∧ -1 ≤ st.lcn + d ∧ InS64 (st.lcn + d)) :
    decompressPair vol attr st = .ok (st.afterPair length change) := by
  have hlenLe := sigBytes_length_le length
  have hlenPos := sigBytes_length_pos length
  have hlcnLe := changeBytes_length_le change
  have hpairLen := pairBytes_length length change
  rw [pairBytes, holdsBytes_cons, holdsBytes_append] at hbytes
  obtain ⟨hhead, hlenBytes, hlcnBytes⟩ := hbytes
  have hheadNat := congrArg UInt8.toNat hhead
  rw [toNat_pairHeader hlenLe hlcnLe] at hheadNat
  have hlow : (attr.bytes st.buf).toNat % 16 = (sigBytes length).length := by omega
  have hhigh : (attr.bytes st.buf).toNat / 16 = (changeBytes change).length := by
    omega
  have hlenRead : readSigned attr.bytes (st.buf + 1) (sigBytes length).length = length :=
    (readSigned_eq hlenPos hlenLe hlenBytes).trans (sigBytes_value hlen)
  unfold decompressPair
  simp only [hlow, hhigh, hlenRead, if_neg (show ¬(sigBytes length).length = 0
    by omega), s64_of_inS64 hvcn]
  rw [if_neg (by omega), if_neg (by omega)]
  cases change with
  | none =>
    simp [DecodeState.afterPair, hpairLen, changeBytes, Nat.add_assoc]
  | some d =>
    obtain ⟨hd, hnonneg, hlcn⟩ := hchange d rfl
    have hdPos : 0 < (changeBytes (some d)).length := sigBytes_length_pos d
    have hdRead : readSigned attr.bytes (st.buf + 1 + (sigBytes length).length)
        (changeBytes (some d)).length = d :=
      (readSigned_eq hdPos hlcnLe hlcnBytes).trans (sigBytes_value hd)
    simp only [hdRead, hfsck, s64_of_inS64 hlcn, Bool.false_eq_true, false_and, if_false]
    rw [if_neg (by omega), if_neg (by omega), if_neg (by omega), if_neg (by omega)]
    simp [DecodeState.afterPair, hpairLen, Nat.add_assoc]

end PairRoundTrip

section RunsRoundTrip

variable {vol : Volume} {attr : AttrRecord}

/-- The state after a run: the builder's running LCN, and the run emitted. -/
def DecodeState.afterRun (vol : Volume) (st : DecodeState) (e : RunlistElement) : DecodeState :=
  { st with
    vcn := e.vcn + e.length
    lcn := nextLcn vol e.lcn st.lcn
    buf := st.buf +
      (pairBytes e.length (lcnChange vol e.lcn st.lcn)).length }.emit e

variable {st : DecodeState} {e : RunlistElement}

theorem Emitted.afterRun
    {es : List RunlistElement}
    (h : Emitted st es)
    (he : MappedRun e) :
    Emitted (st.afterRun vol e) (es ++ [e]) := by
  have hpos := he.length_pos
  apply Emitted.emit
  · exact h.congr rfl rfl
  · omega

/-- The pair of a run moves the running LCN as the builder does, and emits it. -/
theorem DecodeState.afterPair_run
    (he : MappedRun e)
    (hvcn : st.vcn = e.vcn) :
    st.afterPair e.length (lcnChange vol e.lcn st.lcn) = st.afterRun vol e := by
  have hmapped := he.lcn_mapped
  unfold DecodeState.afterPair DecodeState.afterRun lcnChange nextLcn
  by_cases hstored : e.lcn ≥ 0 ∨ vol.majorVer < 3
  · simp [hstored, hvcn]
  · have hhole : e.lcn = lcnHole := by omega
    rw [if_neg hstored, if_neg hstored, hvcn, ← hhole]

/-- Decoding the pair of a run. -/
theorem decompressPair_run
    (hfsck : vol.onFsck = false)
    (he : MappedRun e)
    (hvcn : st.vcn = e.vcn)
    (hlcn : -1 ≤ st.lcn ∧ st.lcn < 2 ^ 63)
    (hbytes : HoldsBytes attr.bytes st.buf (pairBytes e.length (lcnChange vol e.lcn st.lcn)))
    (hend : st.buf + (pairBytes e.length (lcnChange vol e.lcn st.lcn)).length ≤ attr.length) :
    decompressPair vol attr st = .ok (st.afterRun vol e) := by
  obtain ⟨hpos, hmapped, hvcn0, hvcnEnd, hlcnEnd⟩ := he
  rw [← DecodeState.afterPair_run ⟨hpos, hmapped, hvcn0, hvcnEnd, hlcnEnd⟩ hvcn]
  apply decompressPair_pairBytes hfsck hbytes hend hpos
  · exact ⟨by omega, by omega⟩
  · exact ⟨by omega, by omega⟩
  · intro d hd
    unfold lcnChange at hd
    by_cases hstored : e.lcn ≥ 0 ∨ vol.majorVer < 3
    · have hd' : d = e.lcn - st.lcn := by simpa [hstored, eq_comm] using hd
      unfold lcnHole at hmapped
      exact ⟨⟨by omega, by omega⟩, by omega, ⟨by omega, by omega⟩⟩
    · rw [if_neg hstored] at hd
      simp at hd

theorem nextLcn_bounds
    {prevLcn : Int}
    (he : MappedRun e)
    (hlcn : -1 ≤ prevLcn ∧ prevLcn < 2 ^ 63) :
    -1 ≤ nextLcn vol e.lcn prevLcn ∧ nextLcn vol e.lcn prevLcn < 2 ^ 63 := by
  have hpos := he.length_pos
  have hend := he.lcn_end
  have hmapped := he.lcn_mapped
  unfold lcnHole at hmapped
  unfold nextLcn
  split_ifs with h
  · omega
  · exact hlcn

/-- Decoding encoded runs. -/
theorem decompressPairs_encodeRuns
    (hfsck : vol.onFsck = false)
    {v w : Int} {runs es : List RunlistElement} {fuel : Nat}
    (hruns : MappedRuns v runs w)
    (hvcn : st.vcn = v)
    (hlcn : -1 ≤ st.lcn ∧ st.lcn < 2 ^ 63)
    (hes : Emitted st es)
    (hbytes : HoldsBytes attr.bytes st.buf (encodeRuns vol st.lcn runs ++ [0]))
    (hend : st.buf + (encodeRuns vol st.lcn runs).length < attr.length)
    (hfuel : runs.length ≤ fuel) :
    ∃ st', decompressPairs vol attr fuel st = .ok st' ∧ st'.vcn = w ∧ st'.buf < attr.length ∧
      Emitted st' (es ++ runs) := by
  induction runs generalizing v es st fuel with
  | nil =>
    have hw : w = v := hruns
    have hzero : attr.bytes st.buf = 0 := hbytes.1
    refine ⟨st, ?_, by rw [hvcn, hw], by simpa [encodeRuns] using hend, by simpa using hes⟩
    cases fuel with
    | zero => rfl
    | succ fuel => simp [decompressPairs, hzero]
  | cons e rest ih =>
    obtain ⟨rfl, he, hrest⟩ := hruns
    obtain ⟨fuel, rfl⟩ : ∃ f, fuel = f + 1 :=
      ⟨fuel - 1, by simp at hfuel; omega⟩
    rw [encodeRuns, List.append_assoc, holdsBytes_append] at hbytes
    rw [encodeRuns, List.length_append] at hend
    obtain ⟨hpair, hbytes⟩ := hbytes
    have hstep := decompressPair_run hfsck he hvcn hlcn hpair (by omega)
    have hhead : attr.bytes st.buf ≠ 0 := by
      intro hzero
      have hlen := sigBytes_length_pos e.length
      have hnat := toNat_pairHeader (sigBytes_length_le e.length)
        (changeBytes_length_le (lcnChange vol e.lcn st.lcn))
      rw [← hpair.1, hzero] at hnat
      simp at hnat
      omega
    obtain ⟨st', hok, hw, hbuf, hes'⟩ :=
      ih hrest rfl
        (nextLcn_bounds he hlcn) (hes.afterRun he) hbytes
        (by simp only [DecodeState.afterRun, DecodeState.emit_buf, DecodeState.emit_lcn]; omega)
        (Nat.le_of_succ_le_succ hfuel)
    refine ⟨st', ?_, hw, hbuf, by simpa using hes'⟩
    rw [decompressPairs, if_pos ⟨by omega, hhead⟩, hstep]
    exact hok

end RunsRoundTrip

section AttributeRoundTrip

/--
An attribute record that carries the mapping pairs of the runs from `v` to `w`
of an attribute with `total` clusters.  `pairs` is the buffer they were built
in, `size` its size.
-/
structure CarriesExtent
    (vol : Volume) (attr : AttrRecord) (pairs : Bytes) (size : Nat)
    (v w total : Int) : Prop where
  nonResident : attr.nonResident = true
  lowestVcn : attr.lowestVcn = v
  highestVcn : attr.highestVcn = w - 1
  /-- The first extent tells the size of the whole attribute. -/
  allocatedSize : v = 0 → attr.allocatedSize = total * vol.clusterSize
  allocatedSize_lt : attr.allocatedSize < 2 ^ 63
  inside : attr.mappingPairsOffset + size ≤ attr.length
  bytes : ∀ i, i < size → attr.bytes (attr.mappingPairsOffset + i) = pairs i

/-- The unmapped part before an extent. -/
def extentHead (v : Int) : Runlist :=
  if v = 0 then [] else [⟨0, lcnRlNotMapped, v⟩]

/-- The elements the decoder emits for an extent, before the terminator. -/
def extentElements (v : Int) (runs : List RunlistElement) (w total : Int) : Runlist :=
  extentHead v ++ runs ++ (if v = 0 ∧ w < total then [⟨w, lcnRlNotMapped, total - w⟩] else [])

/-- The terminator of a decoded extent. -/
def extentEnd (v w total : Int) : RunlistElement :=
  if v = 0 then enoentAt total else unmappedAt w

variable {v w total : Int} {runs : List RunlistElement} {vol : Volume} {attr : AttrRecord}

theorem extentElements_length_ne_zero
    (hruns : MappedRuns v runs w) :
    ∀ e ∈ extentElements v runs w total, e.length ≠ 0 := by
  intro e he
  unfold extentElements extentHead at he
  rw [List.mem_append, List.mem_append] at he
  rcases he with (he | he) | he
  · split_ifs at he with hv
    · simp at he
    · rw [List.mem_singleton.mp he]
      exact hv
  · have := (hruns.mappedRun he).length_pos
    omega
  · split_ifs at he with hw
    · rw [List.mem_singleton.mp he]
      show total - w ≠ 0
      omega
    · simp at he

theorem numClusters_eq
    (halloc : attr.allocatedSize = total * vol.clusterSize)
    (hlt : attr.allocatedSize < 2 ^ 63)
    (htotal : 0 ≤ total) :
    numClusters vol attr = total := by
  have hbits : (vol.clusterSize : Int) = 2 ^ vol.clusterSizeBits := by
    rw [vol.clusterSize_eq]
    rfl
  have hpos : (0 : Int) < 2 ^ vol.clusterSizeBits := by positivity
  -- the allocated size is a multiple of the cluster size, so the sum is in range
  have hbound : attr.allocatedSize + vol.clusterSize - 1 < 2 ^ 63 := by
    have hsmall := vol.clusterSizeBits_lt
    obtain ⟨k, hk⟩ : ∃ k, (2 : Int) ^ 63 = k * 2 ^ vol.clusterSizeBits :=
      ⟨2 ^ (63 - vol.clusterSizeBits), by rw [← pow_add]; congr 1; omega⟩
    rw [halloc, hbits, hk] at hlt ⊢
    have hlt' : total < k := lt_of_mul_lt_mul_right hlt hpos.le
    nlinarith
  have hnonneg : 0 ≤ attr.allocatedSize := by
    rw [halloc]
    positivity
  unfold numClusters
  rw [s64_of_inS64 ⟨by omega, hbound⟩, halloc, hbits, add_sub_assoc,
    Int.add_comm, Int.add_mul_ediv_right _ _ (by omega),
    Int.ediv_eq_zero_of_lt (by omega) (by omega), zero_add]

variable (heap : Nat → RunlistElement) (i n : Nat)

theorem emitted_decompressStart
    (hlow : attr.lowestVcn = v) :
    Emitted (decompressStart attr heap) (extentHead v) := by
  have hempty : Emitted
      { vcn := attr.lowestVcn, lcn := 0, rl := heap, rlpos := 0,
        buf := attr.mappingPairsOffset } [] :=
    ⟨rfl, by simp⟩
  unfold decompressStart extentHead
  rw [hlow] at hempty ⊢
  by_cases hv : v = 0
  · simpa [hv] using hempty
  · simp only [hv]
    exact hempty.emit ⟨0, lcnRlNotMapped, v⟩ hv

/-- After the pairs of an extent the decoder adds the tail and the terminator. -/
theorem decompressEnd_extent
    {pairs : Bytes} {size : Nat} {st : DecodeState}
    (hattr : CarriesExtent vol attr pairs size v w total)
    (hruns : MappedRuns v runs w)
    (htotal : w ≤ total)
    (hvcn : st.vcn = w)
    (hbuf : st.buf < attr.length)
    (hes : Emitted st (extentHead v ++ runs)) :
    ∃ st', Emitted st' (extentElements v runs w total) ∧
      decompressEnd vol attr st = .ok (st'.emit (extentEnd v w total)) := by
  have hw := hruns.le
  have hhigh : ¬(attr.highestVcn ≠ 0 ∧ s64 (st.vcn - 1 - attr.highestVcn) ≠ 0) := by
    rw [hattr.highestVcn, hvcn, sub_self]
    exact fun hne => hne.2 rfl
  unfold decompressEnd
  rw [if_neg (by omega : ¬st.buf ≥ attr.length), if_neg hhigh, hattr.lowestVcn, hvcn]
  by_cases hbase : v = 0
  · rw [numClusters_eq (hattr.allocatedSize hbase) hattr.allocatedSize_lt (by omega)]
    by_cases hmore : w < total
    · have hsize : 1 ≤ (vol.clusterSize : Int) := by
        rw [vol.clusterSize_eq]
        exact_mod_cast Nat.one_le_two_pow
      have hlt := hattr.allocatedSize_lt
      rw [hattr.allocatedSize hbase] at hlt
      have hrest : s64 (total - w) = total - w := by
        apply s64_of_inS64
        exact ⟨by omega, by nlinarith⟩
      have htail := hes.emit ⟨w, lcnRlNotMapped, total - w⟩ (show total - w ≠ 0 by omega)
      refine ⟨{ st.emit ⟨w, lcnRlNotMapped, total - w⟩ with vcn := total }, ?_, ?_⟩
      · simp only [extentElements, hbase, hmore] at htail ⊢
        exact htail.congr rfl rfl
      · simp [hmore, extentEnd, hbase, enoentAt, hrest]
    · have htotal' : total = w := by omega
      refine ⟨st, ?_, ?_⟩
      · simpa [extentElements, hmore] using hes
      · simp [htotal', extentEnd, hbase, enoentAt]
  · refine ⟨st, ?_, ?_⟩
    · simpa [extentElements, hbase] using hes
    · simp [hbase, extentEnd, unmappedAt]

/--
Decoding one extent alone, outside fsck mode: the unmapped part before it, its
runs, the unmapped rest if it is the first extent, and the terminator; of more
than 65535 elements before the terminator only the last ones are left.
-/
theorem mappingPairsDecompress_extent
    {pairs : Bytes} {size : Nat}
    (hfsck : vol.onFsck = false)
    (hattr : CarriesExtent vol attr pairs size v w total)
    (hruns : MappedRuns v runs w)
    (hv : 0 ≤ v)
    (htotal : w ≤ total)
    (hpairs : HoldsBytes pairs 0 (encodeRuns vol 0 runs ++ [0]))
    (hsize : (encodeRuns vol 0 runs).length < size) :
    (mappingPairsDecompress vol attr none heap).rl = .ok ((extentElements v runs w total).drop
          ((extentElements v runs w total).length / rlposRange * rlposRange) ++
        [extentEnd v w total]) := by
  have hinside := hattr.inside
  have hbytes : HoldsBytes attr.bytes attr.mappingPairsOffset (encodeRuns vol 0 runs ++ [0]) := by
    apply holdsBytes_of_getElem
    intro i hi
    rw [hattr.bytes i (by simp at hi; omega), ← hpairs.getElem hi, Nat.zero_add]
  have hstart := emitted_decompressStart heap hattr.lowestVcn
  have hstartVcn : (decompressStart attr heap).vcn = v := by
    unfold decompressStart
    split_ifs <;> exact hattr.lowestVcn
  have hstartLcn : (decompressStart attr heap).lcn = 0 := by
    unfold decompressStart
    split_ifs <;> rfl
  have hstartBuf : (decompressStart attr heap).buf = attr.mappingPairsOffset := by
    unfold decompressStart
    split_ifs <;> rfl
  have hlen := length_le_encodeRuns vol 0 runs
  have hloop : ∃ st, decompressPairs vol attr attr.length (decompressStart attr heap) = .ok st ∧
        st.vcn = w ∧ st.buf < attr.length ∧
        Emitted st (extentHead v ++ runs) := by
    apply decompressPairs_encodeRuns hfsck hruns hstartVcn _ hstart
    · rw [hstartBuf, hstartLcn]
      exact hbytes
    · rw [hstartLcn]
      omega
    · omega
    · omega
  obtain ⟨st, hloop, hvcn, hbuf, hes⟩ := hloop
  obtain ⟨st', hes', hfinish⟩ :=
    decompressEnd_extent hattr hruns htotal hvcn hbuf hes
  have hnonres := hattr.nonResident
  have hlow := hattr.lowestVcn
  unfold mappingPairsDecompress
  rw [if_neg (by simp [hnonres]; omega), if_neg (by omega), hloop]
  dsimp only
  rw [hfinish]
  dsimp only [decompressMerge]
  rw [hes'.value_emit (extentElements_length_ne_zero hruns)]
  unfold extentEnd
  split_ifs <;> rfl

/-- With room for them, the builder stores the pairs of all runs. -/
theorem mappingPairsBuild_room
    (vol : Volume)
    (mem : Bytes)
    (dstLen : Nat)
    (hruns : MappedRuns 0 runs w)
    (hroom : (encodeRuns vol 0 runs).length < dstLen) :
    (mappingPairsBuild vol mem dstLen (some (runs ++ [enoentAt w])) 0).errno = none ∧
      HoldsBytes
        (mappingPairsBuild vol mem dstLen (some (runs ++ [enoentAt w])) 0).dst 0
        (encodeRuns vol 0 runs ++ [0]) := by
  have hbuild := mappingPairsBuild_append vol mem dstLen (show MappedRuns 0 [] 0 from rfl) hruns
  rw [List.nil_append] at hbuild
  have herr := mappingPairsBuildRuns_room vol (dstLen - 1) runs (enoentAt w) mem 0
    0 hruns.storable rfl (by push_cast; omega)
  obtain ⟨stored, left, hsplit, hcode, -, -, hpairs, -⟩ :=
    mappingPairsBuildRuns_spec vol (dstLen - 1) runs (enoentAt w) mem 0 0 hruns.storable rfl
  have hleft : left = [] := by
    by_contra hne
    rw [hcode, if_neg hne] at herr
    cases herr
  rw [hleft, List.append_nil] at hsplit
  rw [hbuild]
  exact ⟨herr, hsplit ▸ hpairs⟩

/-- Decoding what was built gives the runs back. -/
theorem mappingPairsDecompress_build
    {mem : Bytes} {dstLen : Nat}
    (hfsck : vol.onFsck = false)
    (hruns : MappedRuns 0 runs w)
    (hroom : (encodeRuns vol 0 runs).length < dstLen)
    (hattr : CarriesExtent vol attr
      (mappingPairsBuild vol mem dstLen (some (runs ++ [enoentAt w])) 0).dst
      dstLen 0 w w) :
    (mappingPairsDecompress vol attr none heap).rl =
      .ok (runs.drop (runs.length / 65536 * 65536) ++ [enoentAt w]) := by
  obtain ⟨-, hpairs⟩ := mappingPairsBuild_room vol mem dstLen hruns hroom
  have hdecode := mappingPairsDecompress_extent heap hfsck hattr hruns le_rfl le_rfl hpairs hroom
  simpa only [extentElements, extentHead, extentEnd, lt_irrefl, and_false,
    if_true, if_false, List.nil_append, List.append_nil, rlposRange] using hdecode

/-- An attribute record with its mapping pairs at offset 64. -/
def extentAttr
    (vol : Volume) (pairs : Bytes) (size : Nat) (v w total : Int) :
    AttrRecord where
  nonResident := true
  length := 64 + size
  mappingPairsOffset := 64
  lowestVcn := v
  highestVcn := w - 1
  allocatedSize := total * vol.clusterSize
  bytes := fun i => pairs (i - 64)

theorem carriesExtent_extentAttr
    (vol : Volume)
    (pairs : Bytes)
    (size : Nat)
    (v w total : Int)
    (h : total * vol.clusterSize < 2 ^ 63) :
    CarriesExtent vol (extentAttr vol pairs size v w total) pairs size v w total where
  nonResident := rfl
  lowestVcn := rfl
  highestVcn := rfl
  allocatedSize := fun _ => rfl
  allocatedSize_lt := h
  inside := le_rfl
  bytes := fun i _ => congrArg pairs (Nat.add_sub_cancel_left 64 i)

/-- An NTFS 3.1 volume with clusters of 4096 bytes. -/
def volume31 : Volume where
  majorVer := 3
  clusterSizeBits := 12
  clusterSize := 4096
  clusterSize_eq := rfl
  clusterSizeBits_lt := by decide
  onFsck := false

/-- Runs of one cluster with a free cluster between any two. -/
def spacedRuns : Nat → Nat → List RunlistElement
  | _, 0 => []
  | i, n + 1 => ⟨i, 2 * i, 1⟩ :: spacedRuns (i + 1) n

theorem spacedRuns_succ : spacedRuns i (n + 1) = ⟨i, 2 * i, 1⟩ :: spacedRuns (i + 1) n :=
  rfl

theorem spacedRuns_length : (spacedRuns i n).length = n := by
  induction n generalizing i with
  | zero => rfl
  | succ n ih => simp [spacedRuns_succ, ih]

theorem mappedRuns_spacedRuns
    (h : i + n < 2 ^ 60) :
    MappedRuns i (spacedRuns i n) (i + n : Nat) := by
  induction n generalizing i with
  | zero => rfl
  | succ n ih =>
    refine ⟨rfl, ⟨by simp, Or.inl (by simp), by simp, ?_, ?_⟩, ?_⟩
    · dsimp only
      omega
    · dsimp only
      omega
    · have hrest := ih (i + 1) (by omega)
      have hadd : i + 1 + n = i + (n + 1) := by omega
      rw [hadd] at hrest
      exact_mod_cast hrest

theorem wellFormed_spacedRuns
    (h : n < 2 ^ 60) :
    WellFormed (spacedRuns 0 n) n := by
  refine ⟨by simpa using mappedRuns_spacedRuns 0 n (by omega), ?_⟩
  generalize 0 = i
  induction n generalizing i with
  | zero => exact List.isChain_nil
  | succ n ih =>
    cases n with
    | zero => exact List.isChain_singleton _
    | succ n =>
      refine List.isChain_cons_cons.mpr ⟨?_, ih (by omega) (i + 1)⟩
      simp [rlAreMergeable]
      omega

/--
Building the mapping pairs of a well-formed runlist into a large enough buffer
and decoding the attribute that carries them gives the runlist back exactly
when its runs have distinct positions in the decoder's array, whose index is a
`u16`.
-/
theorem mappingPairsDecompress_build_iff
    (vol : Volume)
    (mem : Bytes)
    (dstLen : Nat)
    (attr : AttrRecord)
    (heap : Nat → RunlistElement)
    (runs : List RunlistElement)
    (w : Int)
    (_hvol : 3 ≤ vol.majorVer)
    (hfsck : vol.onFsck = false)
    (hrl : WellFormed runs w)
    (hroom : (encodeRuns vol 0 runs).length < dstLen)
    (hattr : CarriesExtent vol attr
      (mappingPairsBuild vol mem dstLen (some (runs ++ [enoentAt w])) 0).dst
      dstLen 0 w w) :
    ((mappingPairsBuild vol mem dstLen (some (runs ++ [enoentAt w])) 0).errno = none ∧
      (mappingPairsDecompress vol attr none heap).rl = .ok (runs ++ [enoentAt w])) ↔
      runs.length < 65536 := by
  obtain ⟨herr, -⟩ := mappingPairsBuild_room vol mem dstLen hrl.mapped hroom
  rw [mappingPairsDecompress_build heap hfsck hrl.mapped hroom hattr]
  constructor
  · rintro ⟨-, hrl'⟩
    have hlen := congrArg List.length (Except.ok.inj hrl')
    simp only [List.length_append, List.length_drop] at hlen
    omega
  · intro hlt
    refine ⟨herr, ?_⟩
    rw [Nat.div_eq_of_lt hlt]
    simp

theorem mappingPairsDecompress_build_three :
    (mappingPairsBuild volume31 (fun _ => 0) (64 : Nat)
        (some (spacedRuns 0 3 ++ [enoentAt 3])) 0).errno = none ∧
      (mappingPairsDecompress volume31 (extentAttr volume31
            (mappingPairsBuild volume31 (fun _ => 0) (64 : Nat)
              (some (spacedRuns 0 3 ++ [enoentAt 3])) 0).dst 64 0 3 3)
          none (fun _ => blank)).rl =
        .ok (spacedRuns 0 3 ++ [enoentAt 3]) :=
  (mappingPairsDecompress_build_iff volume31 (fun _ => 0) 64 _ (fun _ => blank)
    (spacedRuns 0 3) 3 le_rfl rfl (wellFormed_spacedRuns 3 (by norm_num))
    (Nat.lt_of_le_of_lt (encodeRuns_length_le volume31 0 (spacedRuns 0 3)) (by decide))
    (carriesExtent_extentAttr volume31 _ 64 0 3 3 (by norm_num [volume31]))).mpr
    (by decide)

/-- Of 65536 runs nothing but the terminator comes back. -/
theorem mappingPairsDecompress_build_spacedRuns :
    WellFormed (spacedRuns 0 65536) 65536 ∧
      (encodeRuns volume31 0 (spacedRuns 0 65536)).length < 2000000 ∧
      (∀ mem : Bytes, ∀ heap : Nat → RunlistElement, (mappingPairsDecompress volume31
            (extentAttr volume31 (mappingPairsBuild volume31 mem (2000000 : Nat)
                (some (spacedRuns 0 65536 ++ [enoentAt 65536])) 0).dst
              2000000 0 65536 65536)
            none heap).rl =
          .ok [enoentAt 65536]) ∧
      [enoentAt 65536] ≠ spacedRuns 0 65536 ++ [enoentAt 65536] := by
  have hwf := wellFormed_spacedRuns 65536 (by norm_num)
  have hlen := spacedRuns_length 0 65536
  have hroom : (encodeRuns volume31 0 (spacedRuns 0 65536)).length < 2000000 := by
    have := encodeRuns_length_le volume31 0 (spacedRuns 0 65536)
    omega
  refine ⟨hwf, hroom, ?_, ?_⟩
  · intro mem heap
    have hback := mappingPairsDecompress_build heap rfl hwf.mapped hroom
      (carriesExtent_extentAttr volume31 (mappingPairsBuild volume31 mem (2000000 : Nat)
          (some (spacedRuns 0 65536 ++ [enoentAt 65536])) 0).dst
        2000000 0 65536 65536 (by norm_num [volume31]))
    rw [hlen] at hback
    rw [List.drop_of_length_le (by omega)] at hback
    exact hback
  · intro heq
    have := congrArg List.length heq
    rw [List.length_append, hlen] at this
    simp at this

end AttributeRoundTrip

end NtfsPlus.Libntfs
