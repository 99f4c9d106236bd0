import NtfsPlus.Libntfs.MappingPairsRoundTrip
import NtfsPlus.Libntfs.RunlistMergeSpec

/-!
# Mapping pairs of any content

`ntfs_mapping_pairs_decompress_i` on arbitrary bytes.  `decompressRounds` are the
states in which the loop is entered, so a fact about every pair that is met is a
fact about the rounds.

The first result is about the bytes that are read: `decompressReads` lists their
offsets from the start of the record, and they are all inside of it exactly when
no pair that is met reaches behind its end.  The second result is about the
runlist: it is contiguous from VCN 0 on exactly when no sum leaves the 64-bit
range, no run is cut in fsck mode after its clusters have been counted, and there
are fewer than 65536 elements.
-/

namespace NtfsPlus.Libntfs

open SignedBytes

section Rounds

/-- `*buf & 0xf`: the number of bytes of the length. -/
def lenBytes (attr : AttrRecord) (st : DecodeState) : Nat :=
  (attr.bytes st.buf).toNat % 16

/-- `*buf >> 4`: the number of bytes of the change in LCN. -/
def lcnBytes (attr : AttrRecord) (st : DecodeState) : Nat :=
  (attr.bytes st.buf).toNat / 16

/-- The length that a pair tells. -/
def pairLength (attr : AttrRecord) (st : DecodeState) : Int :=
  if lenBytes attr st = 0 then -1 else readSigned attr.bytes (st.buf + 1) (lenBytes attr st)

/-- The change in LCN that a pair tells. -/
def pairDelta (attr : AttrRecord) (st : DecodeState) : Int :=
  readSigned attr.bytes (st.buf + 1 + lenBytes attr st) (lcnBytes attr st)

/-- In fsck mode a run whose LCN does not change is cut to nothing. -/
def PairCut (vol : Volume) (attr : AttrRecord) (st : DecodeState) : Prop :=
  lcnBytes attr st ≠ 0 ∧ vol.onFsck ∧ pairDelta attr st = 0 ∧ st.rlpos ≠ 0

instance (vol : Volume) (attr : AttrRecord) (st : DecodeState) :
    Decidable (PairCut vol attr st) :=
  inferInstanceAs (Decidable (_ ∧ _))

/-- The element that is made of a pair. -/
def pairElement (vol : Volume) (attr : AttrRecord) (st : DecodeState) : RunlistElement :=
  ⟨st.vcn,
    if lcnBytes attr st = 0 then lcnHole else s64 (st.lcn + pairDelta attr st),
    if PairCut vol attr st then 0 else pairLength attr st⟩

/-- The state behind a pair. -/
def pairNext (vol : Volume) (attr : AttrRecord) (st : DecodeState) : DecodeState :=
  { st with
    vcn := s64 (st.vcn + pairLength attr st)
    lcn := if lcnBytes attr st = 0 then st.lcn else s64 (st.lcn + pairDelta attr st)
    buf := st.buf + lenBytes attr st + lcnBytes attr st + 1 }.emit (pairElement vol attr st)

/-- Whether the loop is entered. -/
def InLoop (attr : AttrRecord) (st : DecodeState) : Prop :=
  st.buf < attr.length ∧ attr.bytes st.buf ≠ 0

instance (attr : AttrRecord) (st : DecodeState) : Decidable (InLoop attr st) :=
  inferInstanceAs (Decidable (_ ∧ _))

/-- The states in which the loop is entered. -/
def decompressRounds (vol : Volume) (attr : AttrRecord) :
    Nat → DecodeState → List DecodeState
  | 0, _ => []
  | fuel + 1, st =>
    if InLoop attr st then
      st :: match decompressPair vol attr st with
        | .error _ => []
        | .ok st' => decompressRounds vol attr fuel st'
    else
      []

variable {vol : Volume} {attr : AttrRecord} {st st' : DecodeState}

/-- One turn as the sequence of its tests. -/
theorem decompressPair_eq
    (vol : Volume)
    (attr : AttrRecord)
    (st : DecodeState) :
    decompressPair vol attr st =
      if lenBytes attr st ≠ 0 ∧ st.buf + lenBytes attr st > attr.length then
        .error st
      else if pairLength attr st < 0 then
        .error st
      else if lcnBytes attr st = 0 then
        .ok (pairNext vol attr st)
      else if st.buf + (lenBytes attr st + lcnBytes attr st) > attr.length then
        .error st
      else if s64 (st.lcn + pairDelta attr st) < -1 then
        .error st
      else if s64 (st.lcn + pairDelta attr st) ≠ -1 ∧ (pairElement vol attr st).length = 0 then
        .error st
      else
        .ok (pairNext vol attr st) := by
  by_cases hlcn : lcnBytes attr st = 0
  · have hcut : ¬PairCut vol attr st := fun hc => hc.1 hlcn
    have hlcn' : (attr.bytes st.buf).toNat / 16 = 0 := hlcn
    simp only [pairNext, pairElement, hlcn, hcut]
    unfold decompressPair
    simp only [hlcn']
    rfl
  · have hcut : (vol.onFsck ∧ pairDelta attr st = 0 ∧ st.rlpos ≠ 0) ↔ PairCut vol attr st :=
      ⟨fun hc => ⟨hlcn, hc⟩, fun hc => hc.2⟩
    have hlcn' : ¬(attr.bytes st.buf).toNat / 16 = 0 := hlcn
    simp only [pairNext, pairElement, hlcn, ← hcut]
    unfold decompressPair
    simp only [hlcn']
    rfl

/-- What a pair has to be for the loop to go on, and what it does then. -/
theorem decompressPair_ok
    (h : decompressPair vol attr st = .ok st') :
    0 ≤ pairLength attr st ∧ lcnHole ≤ (pairElement vol attr st).lcn ∧
      st' = pairNext vol attr st := by
  rw [decompressPair_eq] at h
  split_ifs at h with hlen hneg hlcn hover hlow hempty
  · cases h
    refine ⟨not_lt.mp hneg, ?_, rfl⟩
    simp [pairElement, hlcn]
  · cases h
    refine ⟨not_lt.mp hneg, ?_, rfl⟩
    simp only [pairElement, hlcn]
    exact not_lt.mp hlow

end Rounds

section Reads

/-- The offsets of the bytes read for one pair. -/
def pairReads (attr : AttrRecord) (st : DecodeState) : List Nat :=
  st.buf ::
    if lenBytes attr st ≠ 0 ∧ st.buf + lenBytes attr st ≤ attr.length then
      List.range' (st.buf + 1) (lenBytes attr st) ++
        if 0 ≤ pairLength attr st ∧ lcnBytes attr st ≠ 0 ∧
            st.buf + (lenBytes attr st + lcnBytes attr st) ≤ attr.length then
          List.range' (st.buf + 1 + lenBytes attr st) (lcnBytes attr st)
        else
          []
    else
      []

/-- The offsets of the bytes read by the loop. -/
def loopReads (vol : Volume) (attr : AttrRecord) : Nat → DecodeState → List Nat
  | 0, _ => []
  | fuel + 1, st =>
    if st.buf < attr.length then
      st.buf ::
        if attr.bytes st.buf ≠ 0 then
          pairReads attr st ++
            match decompressPair vol attr st with
            | .error _ => []
            | .ok st' => loopReads vol attr fuel st'
        else
          []
    else
      []

/-- The offsets read behind the loop: `highest_vcn`, `lowest_vcn`, `allocated_size`. -/
def endReads (attr : AttrRecord) (st : DecodeState) : List Nat :=
  if st.buf ≥ attr.length then
    []
  else
    List.range' 24 8 ++
      if attr.highestVcn ≠ 0 ∧ s64 (st.vcn - 1 - attr.highestVcn) ≠ 0 then
        []
      else
        List.range' 16 8 ++ if attr.lowestVcn = 0 then List.range' 40 8 else []

/--
The offsets of all bytes of the record that are read: `non_resident`, `lowest_vcn`,
`mapping_pairs_offset` and `length`, and then what the mapping pairs need.
-/
def decompressReads (vol : Volume) (attr : AttrRecord) (heap : Nat → RunlistElement) : List Nat :=
  List.range' 8 1 ++
    if ¬attr.nonResident then
      []
    else
      List.range' 16 8 ++
        if attr.lowestVcn < 0 then
          []
        else
          List.range' 32 2 ++ List.range' 4 4 ++
            if attr.mappingPairsOffset > attr.length then
              []
            else
              loopReads vol attr attr.length (decompressStart attr heap) ++
                match decompressPairs vol attr attr.length (decompressStart attr heap) with
                | .error _ => []
                | .ok st => endReads attr st

variable {vol : Volume} {attr : AttrRecord} {st : DecodeState} {bytes : Bytes}

/-- A field of the pair ends with the first byte behind the record. -/
def FieldAtEnd (attr : AttrRecord) (st : DecodeState) : Prop :=
  lenBytes attr st ≠ 0 ∧ (st.buf + lenBytes attr st = attr.length ∨
      0 ≤ pairLength attr st ∧ lcnBytes attr st ≠ 0 ∧
        st.buf + (lenBytes attr st + lcnBytes attr st) = attr.length)

instance (attr : AttrRecord) (st : DecodeState) : Decidable (FieldAtEnd attr st) :=
  inferInstanceAs (Decidable (_ ∧ _))

/-- When one turn reads inside the record. -/
theorem pairReads_iff
    (hbuf : st.buf < attr.length) :
    (∀ i ∈ pairReads attr st, i < attr.length) ↔ ¬FieldAtEnd attr st := by
  unfold pairReads FieldAtEnd
  constructor
  · rintro h ⟨hlen, hend | ⟨hnonneg, hlcn, hend⟩⟩
    · have hcond : lenBytes attr st ≠ 0 ∧ st.buf + lenBytes attr st ≤ attr.length :=
        ⟨hlen, hend.le⟩
      have := h (st.buf + lenBytes attr st) (by
        simp only [if_pos hcond, List.mem_cons, List.mem_append, List.mem_range'_1]
        omega)
      omega
    · have hcond : lenBytes attr st ≠ 0 ∧ st.buf + lenBytes attr st ≤ attr.length :=
        ⟨hlen, by omega⟩
      have hcond' : 0 ≤ pairLength attr st ∧ lcnBytes attr st ≠ 0 ∧
          st.buf + (lenBytes attr st + lcnBytes attr st) ≤ attr.length :=
        ⟨hnonneg, hlcn, hend.le⟩
      have := h (st.buf + (lenBytes attr st + lcnBytes attr st)) (by
        simp only [if_pos hcond, if_pos hcond', List.mem_cons, List.mem_append, List.mem_range'_1]
        omega)
      omega
  · intro h i hi
    split_ifs at hi with hcond hcond'
    · simp only [List.mem_cons, List.mem_append, List.mem_range'_1] at hi
      omega
    · simp only [List.mem_cons, List.mem_append, List.mem_range'_1, List.not_mem_nil,
        or_false] at hi
      omega
    · simp only [List.mem_cons, List.not_mem_nil, or_false] at hi
      omega

/-- When the loop reads inside the record. -/
theorem loopReads_iff
    {fuel : Nat} :
    (∀ i ∈ loopReads vol attr fuel st, i < attr.length) ↔
      ∀ st' ∈ decompressRounds vol attr fuel st, ¬FieldAtEnd attr st' := by
  induction fuel generalizing st with
  | zero => simp [loopReads, decompressRounds]
  | succ fuel ih =>
    rw [loopReads, decompressRounds]
    by_cases hbuf : st.buf < attr.length
    · by_cases hbyte : attr.bytes st.buf ≠ 0
      · rw [if_pos hbuf, if_pos hbyte, if_pos ⟨hbuf, hbyte⟩]
        simp only [List.forall_mem_cons, List.forall_mem_append, hbuf, true_and, pairReads_iff hbuf]
        cases decompressPair vol attr st with
        | error st' => simp
        | ok st' => simp only [ih]
      · rw [if_pos hbuf, if_neg hbyte, if_neg (fun hc => hbyte hc.2)]
        simp [hbuf]
    · rw [if_neg hbuf, if_neg (fun hc => hbuf hc.1)]
      simp

/-- When every byte that is read belongs to the record. -/
structure ReadsInside (vol : Volume) (attr : AttrRecord) (heap : Nat → RunlistElement) :
    Prop where
  /-- `lowest_vcn` is in the record. -/
  lowest : 24 ≤ attr.length
  /-- `mapping_pairs_offset` is, where it is used. -/
  offset : 0 ≤ attr.lowestVcn → 34 ≤ attr.length
  /-- No pair that is met has a field that reaches the first byte behind the record. -/
  pairs : 0 ≤ attr.lowestVcn →
    ∀ st ∈ decompressRounds vol attr attr.length (decompressStart attr heap), ¬FieldAtEnd attr st
  /-- `allocated_size` is in the record, where it is used. -/
  allocated : attr.lowestVcn = 0 → ∀ st,
    decompressPairs vol attr attr.length (decompressStart attr heap) = .ok st →
      st.buf < attr.length →
      ¬(attr.highestVcn ≠ 0 ∧ s64 (st.vcn - 1 - attr.highestVcn) ≠ 0) → 48 ≤ attr.length

theorem forall_mem_range'
    {n m k : Nat} :
    (∀ i ∈ List.range' n (k + 1), i < m) ↔ n + k < m := by
  constructor
  · intro h
    exact h _ (List.mem_range'_1.mpr ⟨by omega, by omega⟩)
  · intro h i hi
    have := (List.mem_range'_1.mp hi).2
    omega

theorem decompressRounds_behind
    {fuel : Nat}
    (h : attr.length ≤ st.buf) :
    decompressRounds vol attr fuel st = [] ∧ decompressPairs vol attr fuel st = .ok st := by
  cases fuel with
  | zero => exact ⟨rfl, rfl⟩
  | succ fuel =>
    have hno : ¬(st.buf < attr.length ∧ attr.bytes st.buf ≠ 0) := fun hc => by omega
    exact ⟨if_neg hno, if_neg hno⟩

/--
A decoder that has been given a non-resident attribute record reads no byte at or
behind its end exactly when the header fields it needs are in the record and no
pair has a field that ends with the first byte behind it.
-/
theorem decompressReads_iff
    (vol : Volume)
    (attr : AttrRecord)
    (heap : Nat → RunlistElement)
    (hres : attr.nonResident = true) :
    (∀ i ∈ decompressReads vol attr heap, i < attr.length) ↔ ReadsInside vol attr heap := by
  have hstart : (decompressStart attr heap).buf = attr.mappingPairsOffset := by
    unfold decompressStart
    split_ifs <;> rfl
  unfold decompressReads
  rw [if_neg (fun hc => hc hres), List.forall_mem_append, List.forall_mem_append,
    forall_mem_range', forall_mem_range']
  by_cases hlow : attr.lowestVcn < 0
  · rw [if_pos hlow]
    constructor
    · rintro ⟨-, hlen, -⟩
      exact ⟨by omega, by omega, by omega, by omega⟩
    · intro h
      have := h.lowest
      exact ⟨by omega, by omega, by simp⟩
  rw [if_neg hlow, List.forall_mem_append, List.forall_mem_append, forall_mem_range',
    forall_mem_range']
  by_cases hofs : attr.mappingPairsOffset > attr.length
  · obtain ⟨hnone, hpairs⟩ := @decompressRounds_behind vol attr (decompressStart attr heap)
      attr.length (by omega)
    rw [if_pos hofs]
    constructor
    · rintro ⟨-, hlen, ⟨hhead, -⟩, -⟩
      refine ⟨by omega, by omega, ?_, ?_⟩
      · rw [hnone]
        simp
      · intro _ st hst hbuf
        rw [hpairs] at hst
        cases hst
        omega
    · intro h
      have := h.offset (by omega)
      exact ⟨by omega, by omega, ⟨by omega, by omega⟩, by simp⟩
  rw [if_neg hofs, List.forall_mem_append, loopReads_iff]
  cases hpairs : decompressPairs vol attr attr.length (decompressStart attr heap) with
  | error st =>
    constructor
    · rintro ⟨-, hlen, ⟨hhead, -⟩, hrounds, -⟩
      refine ⟨by omega, by omega, fun _ => hrounds, ?_⟩
      intro _ st' hst'
      rw [hpairs] at hst'
      cases hst'
    · intro h
      have := h.offset (by omega)
      exact ⟨by omega, by omega, ⟨by omega, by omega⟩, h.pairs (by omega), by simp⟩
  | ok st =>
    constructor
    · rintro ⟨-, hlen, ⟨hhead, -⟩, hrounds, hend⟩
      refine ⟨by omega, by omega, fun _ => hrounds, ?_⟩
      intro hzero st' hst' hbuf hhigh
      rw [hpairs] at hst'
      cases hst'
      dsimp only at hend
      rw [endReads, if_neg (by omega), if_neg hhigh, if_pos hzero, List.forall_mem_append,
        List.forall_mem_append, forall_mem_range', forall_mem_range',
        forall_mem_range'] at hend
      omega
    · intro h
      have hoffset := h.offset (by omega)
      refine ⟨by omega, by omega, ⟨by omega, by omega⟩, h.pairs (by omega), ?_⟩
      dsimp only
      unfold endReads
      split_ifs with hbuf hhigh hzero
      · simp
      · rw [List.append_nil, forall_mem_range']
        omega
      · have := h.allocated hzero st hpairs (by omega) hhigh
        rw [List.forall_mem_append, List.forall_mem_append, forall_mem_range',
          forall_mem_range', forall_mem_range']
        omega
      · rw [List.append_nil, List.forall_mem_append, forall_mem_range', forall_mem_range']
        omega

/-- A record with the given bytes in place of its mapping pairs. -/
def pairsRecord (length : Nat) (allocatedSize : Int) (pairs : List UInt8) : AttrRecord where
  nonResident := true
  length := length
  mappingPairsOffset := 64
  lowestVcn := 0
  highestVcn := 0
  allocatedSize := allocatedSize
  bytes := fun i => pairs.getD (i - 64) 0

/-- A record of 72 bytes whose only pair has a length of eight bytes. -/
def widePair : AttrRecord :=
  pairsRecord 72 0 [8]

/-- The first byte behind the record is read. -/
theorem widePair_read :
    widePair.length = 72 ∧ 72 ∈ decompressReads volume31 widePair fun _ => blank := by
  decide +kernel

/-- A record of 72 bytes with one run, which is inside. -/
def narrowPair : AttrRecord :=
  pairsRecord 72 4096 [17, 1, 5]

/-- The condition and the bytes read, for a record with one run. -/
theorem narrowPair_reads :
    narrowPair.nonResident = true ∧ ∀ i ∈ decompressReads volume31 narrowPair fun _ => blank,
        i < narrowPair.length := by
  refine ⟨rfl, (decompressReads_iff _ _ _ rfl).mpr ⟨by decide, fun _ => by decide, ?_, ?_⟩⟩
  · decide +kernel
  · exact fun _ _ _ _ _ => by decide

end Reads

section Decoded

variable {vol : Volume} {attr : AttrRecord} {st st' : DecodeState}

variable {fuel : Nat} {v w : Int} {L : Runlist} {rounds : List DecodeState}

/-- A walk over pairs that are accepted, with the rounds that it takes. -/
inductive Decodes (vol : Volume) (attr : AttrRecord) :
    DecodeState → List DecodeState → DecodeState → Prop
  | done (st : DecodeState) : Decodes vol attr st [] st
  | pair {st st' : DecodeState} {rounds : List DecodeState} (hlen : 0 ≤ pairLength attr st)
      (hlcn : lcnHole ≤ (pairElement vol attr st).lcn)
      (rest : Decodes vol attr (pairNext vol attr st) rounds st') :
      Decodes vol attr st (st :: rounds) st'

/-- The turns of a decoding that succeeds. -/
theorem decompressPairs_decodes
    (h : decompressPairs vol attr fuel st = .ok st') :
    Decodes vol attr st (decompressRounds vol attr fuel st) st' := by
  induction fuel generalizing st with
  | zero =>
    cases h
    exact .done _
  | succ fuel ih =>
    rw [decompressPairs] at h
    split_ifs at h with hin
    · rw [decompressRounds, if_pos (show InLoop attr st from hin)]
      cases hnext : decompressPair vol attr st with
      | error st₁ =>
        rw [hnext] at h
        cases h
      | ok st₁ =>
        rw [hnext] at h
        obtain ⟨hlen, hlcn, rfl⟩ := decompressPair_ok hnext
        exact .pair hlen hlcn (ih h)
    · rw [decompressRounds, if_neg (show ¬InLoop attr st from hin)]
      cases h
      exact .done _

theorem readSigned_inS64
    (mem : Bytes)
    (pos n : Nat) :
    InS64 (readSigned mem pos n) := by
  have hloop : ∀ k d, InS64 d → InS64 (readSignedLoop mem pos k d) := by
    intro k
    induction k with
    | zero => exact fun d hd => hd
    | succ k ih => exact fun d _ => ih _ (s64_inS64 _)
  apply hloop
  have := signedByte_bounds (mem (pos + (n - 1)))
  exact ⟨by omega, by omega⟩

/-- The runs of the rounds, without those of no length. -/
def decodedRuns (vol : Volume) (attr : AttrRecord) (rounds : List DecodeState) : Runlist :=
  (rounds.map (pairElement vol attr)).filter fun e => e.length ≠ 0

/-- The clusters that the pairs of the rounds count. -/
def roundsLength (attr : AttrRecord) (rounds : List DecodeState) : Int :=
  (rounds.map (pairLength attr)).sum

theorem decodedRuns_cons
    (st : DecodeState)
    (rounds : List DecodeState) :
    decodedRuns vol attr (st :: rounds) =
      if (pairElement vol attr st).length = 0 then
        decodedRuns vol attr rounds
      else
        pairElement vol attr st :: decodedRuns vol attr rounds := by
  unfold decodedRuns
  split_ifs <;> simp_all

theorem roundsLength_cons
    (st : DecodeState)
    (rounds : List DecodeState) :
    roundsLength attr (st :: rounds) = pairLength attr st + roundsLength attr rounds := by
  simp [roundsLength]

variable {es : List RunlistElement} {e : RunlistElement} {K : Runlist}

theorem Emitted.emit_zero
    (h : Emitted st es)
    (he : e.length = 0) :
    Emitted (st.emit e) es := by
  constructor
  · simpa [DecodeState.emit, he] using h.rlpos_eq
  · intro i hi
    simp only [DecodeState.emit, he, if_true] at hi ⊢
    rw [setCell_of_ne _ _ (by omega)]
    exact h.cells i hi

/-- The elements that the turns emit. -/
theorem Decodes.emitted
    (h : Decodes vol attr st rounds st')
    (hes : Emitted st es) :
    Emitted st' (es ++ decodedRuns vol attr rounds) := by
  induction h generalizing es with
  | done st => simpa [decodedRuns] using hes
  | @pair st st' rounds _ _ _ ih =>
    rw [decodedRuns_cons]
    split_ifs with hzero
    · have hnext : Emitted (pairNext vol attr st) es := by
        apply Emitted.emit_zero
        · exact hes.congr rfl rfl
        · exact hzero
      exact ih hnext
    · have hnext : Emitted (pairNext vol attr st) (es ++ [pairElement vol attr st]) := by
        apply Emitted.emit
        · exact hes.congr rfl rfl
        · exact hzero
      simpa using ih hnext

/-- Every round that is accepted has a length and a run or a hole. -/
theorem Decodes.accepted
    (h : Decodes vol attr st rounds st') :
    ∀ s ∈ rounds, 0 ≤ pairLength attr s ∧ lcnHole ≤ (pairElement vol attr s).lcn := by
  induction h with
  | done st => simp
  | pair hlen hlcn _ ih => exact List.forall_mem_cons.mpr ⟨⟨hlen, hlcn⟩, ih⟩

/-- The LCN stays in range. -/
theorem Decodes.lcns
    (h : Decodes vol attr st rounds st')
    (hlcn : lcnHole ≤ st.lcn ∧ st.lcn < 2 ^ 63) :
    ∀ s ∈ rounds, lcnHole ≤ s.lcn ∧ s.lcn < 2 ^ 63 := by
  induction h with
  | done st => simp
  | @pair st st' rounds _ helem _ ih =>
    refine List.forall_mem_cons.mpr ⟨hlcn, ih ?_⟩
    unfold pairNext
    unfold pairElement at helem
    split_ifs with hno
    · exact hlcn
    · simp only [if_neg hno] at helem
      exact ⟨helem, (s64_inS64 _).2⟩

/-- When adding a delta does not overflow. -/
theorem Decodes.lcn_inS64_iff
    (h : Decodes vol attr st rounds st')
    (hlcn : lcnHole ≤ st.lcn ∧ st.lcn < 2 ^ 63)
    {s : DecodeState}
    (hs : s ∈ rounds)
    (hbytes : lcnBytes attr s ≠ 0) :
    InS64 (s.lcn + pairDelta attr s) ↔ ¬(s.lcn = -1 ∧ pairDelta attr s = -2 ^ 63) := by
  have hst := h.lcns hlcn s hs
  have helem := (h.accepted s hs).2
  have hdelta : InS64 (pairDelta attr s) := readSigned_inS64 _ _ _
  simp only [pairElement] at helem
  unfold lcnHole at hst helem
  unfold InS64 at hdelta ⊢
  constructor
  · omega
  · intro hno
    refine ⟨by omega, ?_⟩
    -- a sum that is too large wraps to less than -1 and is not accepted
    by_contra hbig
    rw [s64_of_ge (by omega) (by omega)] at helem
    omega

/-- Runs in order, with room between them. -/
def Spaced (v : Int) : Runlist → Int → Prop
  | [], w => v ≤ w
  | e :: rest, w => v ≤ e.vcn ∧ 0 < e.length ∧ Spaced (e.vcn + e.length) rest w

theorem Spaced.mono
    {u : Int}
    (h : Spaced v L w)
    (hle : u ≤ v) :
    Spaced u L w := by
  cases L with
  | nil => exact le_trans hle h
  | cons e L => exact ⟨le_trans hle h.1, h.2⟩

theorem Spaced.append
    {m : Int}
    (hK : Spaced v K m)
    (hL : Spaced m L w) :
    Spaced v (K ++ L) w := by
  induction K generalizing v with
  | nil => exact hL.mono hK
  | cons e K ih => exact ⟨hK.1, hK.2.1, ih hK.2.2⟩

theorem Spaced.length_pos
    (h : Spaced v L w)
    (he : e ∈ L) :
    0 < e.length := by
  induction L generalizing v with
  | nil => simp at he
  | cons f L ih =>
    rcases List.mem_cons.mp he with rfl | he
    · exact h.2.1
    · exact ih h.2.2 he

theorem Tiles.spaced
    (h : Tiles v L w) :
    Spaced v L w := by
  induction L generalizing v with
  | nil => exact le_of_eq h.symm
  | cons e L ih =>
    refine ⟨h.1.ge, h.2.1, ?_⟩
    rw [h.1]
    exact ih h.2.2

theorem Spaced.split
    (h : Spaced v (K ++ L) w) :
    ∃ m, v + K.length ≤ m ∧ Spaced m L w := by
  induction K generalizing v with
  | nil => exact ⟨v, by simp, h⟩
  | cons e K ih =>
    obtain ⟨hv, hpos, hrest⟩ := h
    obtain ⟨m, hm, hL⟩ := ih hrest
    exact ⟨m, by push_cast [List.length_cons]; omega, hL⟩

theorem Spaced.not_tiles_drop
    {n : Nat}
    (h : Spaced 0 L w)
    (hn : 0 < n)
    (hlen : n ≤ L.length) :
    ¬Tiles 0 (L.drop n) w := by
  rw [← List.take_append_drop n L] at h
  obtain ⟨m, hm, hrest⟩ := h.split
  have htake : (L.take n).length = n := by simp [hlen]
  cases hdrop : L.drop n with
  | nil =>
    rw [hdrop] at hrest
    have hle : m ≤ w := hrest
    intro hw
    have hw' : w = 0 := hw
    omega
  | cons e K =>
    rw [hdrop] at hrest
    have hle := hrest.1
    intro htiles
    have := htiles.1
    omega

theorem Tiles.sum_length
    (h : Tiles v L w) :
    v + (L.map RunlistElement.length).sum = w := by
  induction L generalizing v with
  | nil =>
    have hw : w = v := h
    simp [hw]
  | cons e L ih =>
    have hrest := ih h.2.2
    rw [List.map_cons, List.sum_cons]
    omega

/-- The lengths add up. -/
theorem Decodes.length
    (h : Decodes vol attr st rounds st') :
    0 ≤ roundsLength attr rounds ∧
      ((decodedRuns vol attr rounds).map RunlistElement.length).sum ≤ roundsLength attr rounds ∧
      (((decodedRuns vol attr rounds).map RunlistElement.length).sum = roundsLength attr rounds →
        ∀ s ∈ rounds, PairCut vol attr s → pairLength attr s = 0) := by
  induction h with
  | done st => simp [roundsLength, decodedRuns]
  | @pair st st' rounds hlen _ _ ih =>
    obtain ⟨hpos, hle, heq⟩ := ih
    have hsum : ((decodedRuns vol attr (st :: rounds)).map RunlistElement.length).sum =
        (pairElement vol attr st).length +
          ((decodedRuns vol attr rounds).map RunlistElement.length).sum := by
      rw [decodedRuns_cons]
      split_ifs with hzero
      · rw [hzero, zero_add]
      · simp
    have helem : (pairElement vol attr st).length =
        if PairCut vol attr st then 0 else pairLength attr st := rfl
    rw [hsum, roundsLength_cons, helem, List.forall_mem_cons]
    split_ifs with hcut
    · exact ⟨by omega, by omega, fun hall => ⟨fun _ => by omega, heq (by omega)⟩⟩
    · exact ⟨by omega, by omega, fun hall => ⟨fun hc => absurd hc hcut, heq (by omega)⟩⟩

/-- When no VCN overflows. -/
theorem Decodes.vcn_inS64_iff
    (h : Decodes vol attr st rounds st')
    (hvcn : 0 ≤ st.vcn ∧ st.vcn < 2 ^ 63) :
    (∀ s ∈ rounds, InS64 (s.vcn + pairLength attr s)) ↔
      st.vcn + roundsLength attr rounds < 2 ^ 63 := by
  induction h with
  | done st =>
    simp [roundsLength]
    exact hvcn.2
  | @pair st st' rounds hlen _ rest ih =>
    have hpos := rest.length.1
    rw [List.forall_mem_cons, roundsLength_cons]
    by_cases hin : InS64 (st.vcn + pairLength attr st)
    · have hnext : (pairNext vol attr st).vcn = st.vcn + pairLength attr st :=
        s64_of_inS64 hin
      have hrest := ih (by rw [hnext]; exact ⟨by omega, hin.2⟩)
      rw [hnext] at hrest
      simp only [hin, true_and, hrest, add_assoc]
    · simp only [hin, false_and, false_iff]
      unfold InS64 at hin
      omega

/-- The decoded runs follow one another. -/
theorem Decodes.runs
    (h : Decodes vol attr st rounds st')
    (hvcn : 0 ≤ st.vcn)
    (hend : st.vcn + roundsLength attr rounds < 2 ^ 63) :
    st'.vcn = st.vcn + roundsLength attr rounds ∧
      Spaced st.vcn (decodedRuns vol attr rounds) st'.vcn ∧
      ((∀ s ∈ rounds, PairCut vol attr s → pairLength attr s = 0) →
        Tiles st.vcn (decodedRuns vol attr rounds) st'.vcn) := by
  induction h with
  | done st => exact ⟨by simp [roundsLength], le_rfl, fun _ => rfl⟩
  | @pair st st' rounds hlen _ rest ih =>
    have hpos := rest.length.1
    rw [roundsLength_cons] at hend ⊢
    have hnext : (pairNext vol attr st).vcn = st.vcn + pairLength attr st :=
      s64_of_inS64 ⟨by omega, by omega⟩
    rw [hnext] at ih
    obtain ⟨hvcn', hspaced, htiles⟩ := ih (by omega) (by omega)
    have helem : (pairElement vol attr st).length =
        if PairCut vol attr st then 0 else pairLength attr st := rfl
    refine ⟨by omega, ?_, fun hcut => ?_⟩
    · rw [decodedRuns_cons]
      split_ifs with hzero
      · exact hspaced.mono (by omega)
      · refine ⟨le_rfl, ?_, ?_⟩
        · rw [helem] at hzero ⊢
          split_ifs at hzero ⊢
          · omega
          · omega
        · rw [helem]
          refine hspaced.mono ?_
          have hstart : (pairElement vol attr st).vcn = st.vcn := rfl
          split_ifs <;> omega
    · have hsame : (pairElement vol attr st).length = pairLength attr st := by
        rw [helem]
        split_ifs with hc
        · exact (hcut st (by simp) hc).symm
        · rfl
      have hrest := htiles fun s hs => hcut s (by simp [hs])
      rw [decodedRuns_cons]
      split_ifs with hzero
      · have hnone : pairLength attr st = 0 := by omega
        rwa [hnone, add_zero] at hrest
      · refine ⟨rfl, by omega, ?_⟩
        rw [hsame]
        exact hrest

end Decoded

section Contiguous

variable {vol : Volume} {attr : AttrRecord} {heap : Nat → RunlistElement} {st st' : DecodeState}

/-- The rounds of a whole attribute record. -/
def attrRounds (vol : Volume) (attr : AttrRecord) (heap : Nat → RunlistElement) :
    List DecodeState :=
  decompressRounds vol attr attr.length (decompressStart attr heap)

/--
What a decoded runlist has to be: contiguous from VCN 0 on, with positive lengths,
with clusters, holes or unmapped elements, and without a sum that has wrapped.
-/
structure DecodedWell
    (vol : Volume) (attr : AttrRecord) (heap : Nat → RunlistElement) (rl : Runlist) : Prop where
  contiguous : ∃ runs t, rl = runs ++ [t] ∧ Tiles 0 runs t.vcn ∧ t.length = 0 ∧
    ∀ e ∈ runs, 0 ≤ e.lcn ∨ e.lcn = lcnHole ∨ e.lcn = lcnRlNotMapped
  vcns : ∀ st ∈ attrRounds vol attr heap, InS64 (st.vcn + pairLength attr st)
  lcns : ∀ st ∈ attrRounds vol attr heap, lcnBytes attr st ≠ 0 → InS64 (st.lcn + pairDelta attr st)
  clusters : attr.lowestVcn = 0 → InS64 (attr.allocatedSize + vol.clusterSize - 1)

/-- The elements that the decoder assigns before the terminator. -/
def decodedElements (vol : Volume) (attr : AttrRecord) (heap : Nat → RunlistElement) : Runlist :=
  extentElements attr.lowestVcn (decodedRuns vol attr (attrRounds vol attr heap))
    (attr.lowestVcn + roundsLength attr (attrRounds vol attr heap)) (numClusters vol attr)

/-- When mapping pairs are decoded as they should be. -/
structure DecodesWithin
    (vol : Volume) (attr : AttrRecord) (heap : Nat → RunlistElement) : Prop where
  /-- The lengths do not add up to more than a 64-bit number. -/
  total : attr.lowestVcn + roundsLength attr (attrRounds vol attr heap) < 2 ^ 63
  /-- The smallest change does not follow a hole that is told by its LCN. -/
  change : ∀ st ∈ attrRounds vol attr heap, lcnBytes attr st ≠ 0 →
    ¬(st.lcn = -1 ∧ pairDelta attr st = -2 ^ 63)
  /-- No run with clusters is cut. -/
  uncut : ∀ st ∈ attrRounds vol attr heap, PairCut vol attr st → pairLength attr st = 0
  /-- The index of the elements does not wrap. -/
  count : (decodedElements vol attr heap).length < rlposRange

variable {runs : Runlist} {v w total : Int}

/-- What the end of a decoding adds. -/
theorem decompressEnd_ok
    (h : decompressEnd vol attr st = .ok st')
    (hvcn : 0 ≤ st.vcn ∧ st.vcn < 2 ^ 63)
    (hes : Emitted st (extentHead attr.lowestVcn ++ runs)) :
    (attr.lowestVcn = 0 → st.vcn ≤ numClusters vol attr) ∧
      ∃ st₁, Emitted st₁ (extentElements attr.lowestVcn runs st.vcn (numClusters vol attr)) ∧
        st' = st₁.emit (extentEnd attr.lowestVcn st.vcn (numClusters vol attr)) := by
  have hnum : numClusters vol attr < 2 ^ 63 := by
    unfold numClusters
    have hs := (s64_inS64 (attr.allocatedSize + vol.clusterSize - 1)).2
    have hpos : (0 : Int) < 2 ^ vol.clusterSizeBits := by positivity
    rcases le_or_gt 0 (s64 (attr.allocatedSize + vol.clusterSize - 1)) with hle | hgt
    · exact lt_of_le_of_lt (Int.ediv_le_self _ hle) hs
    · have := Int.ediv_neg_of_neg_of_pos hgt hpos
      omega
  unfold decompressEnd at h
  split_ifs at h with hbuf hhigh hlow
  · dsimp only at h
    split_ifs at h with hmore hless
    · cases h
      have hrest : s64 (numClusters vol attr - st.vcn) = numClusters vol attr - st.vcn :=
        s64_of_inS64 ⟨by omega, by omega⟩
      have htail := hes.emit ⟨st.vcn, lcnRlNotMapped, numClusters vol attr - st.vcn⟩
        (show numClusters vol attr - st.vcn ≠ 0 by omega)
      refine ⟨fun _ => by omega,
        { st.emit ⟨st.vcn, lcnRlNotMapped, numClusters vol attr - st.vcn⟩ with
          vcn := numClusters vol attr }, ?_, ?_⟩
      · simp only [extentElements, hlow, show st.vcn < numClusters vol attr from hmore] at htail ⊢
        exact htail.congr rfl rfl
      · simp [extentEnd, hlow, enoentAt, hrest]
    · cases h
      have hsame : numClusters vol attr = st.vcn := by omega
      refine ⟨fun _ => by omega, st, ?_, ?_⟩
      · simpa [extentElements, hsame] using hes
      · simp [extentEnd, hlow, enoentAt, hsame]
  · cases h
    refine ⟨fun hc => absurd hc hlow, st, ?_, ?_⟩
    · simpa [extentElements, hlow] using hes
    · simp [extentEnd, hlow, unmappedAt]

theorem mappingPairsDecompress_ok
    {rl : Runlist}
    (h : (mappingPairsDecompress vol attr none heap).rl = .ok rl) :
    0 ≤ attr.lowestVcn ∧ ∃ st st',
      decompressPairs vol attr attr.length (decompressStart attr heap) = .ok st ∧
      decompressEnd vol attr st = .ok st' ∧ rl = st'.value := by
  have herror : ∀ st, (decompressError vol none st).rl = .error .eio := by
    intro st
    unfold decompressError
    split_ifs <;> rfl
  unfold mappingPairsDecompress at h
  split_ifs at h with hbad hofs
  · cases hpairs : decompressPairs vol attr attr.length (decompressStart attr heap) with
    | error st =>
      rw [hpairs] at h
      rw [herror] at h
      cases h
    | ok st =>
      rw [hpairs] at h
      dsimp only at h
      cases hend : decompressEnd vol attr st with
      | error st' =>
        rw [hend] at h
        rw [herror] at h
        cases h
      | ok st' =>
        rw [hend] at h
        refine ⟨by omega, st, st', rfl, hend, ?_⟩
        exact (Except.ok.inj h).symm

theorem decompressStart_vcn
    (attr : AttrRecord)
    (heap : Nat → RunlistElement) :
    (decompressStart attr heap).vcn = attr.lowestVcn ∧ (decompressStart attr heap).lcn = 0 := by
  unfold decompressStart
  split_ifs <;> exact ⟨rfl, rfl⟩

theorem extentElements_around
    (hv : 0 ≤ v)
    (htotal : v = 0 → w ≤ total) :
    (Spaced v runs w → Spaced 0 (extentElements v runs w total) (extentEnd v w total).vcn) ∧
      (Tiles v runs w → Tiles 0 (extentElements v runs w total) (extentEnd v w total).vcn) := by
  have hhead : Tiles 0 (extentHead v) v := by
    unfold extentHead
    split_ifs with hzero
    · exact hzero
    · exact ⟨rfl, show 0 < v by omega, show v = 0 + v by omega⟩
  have htail : Tiles w (if v = 0 ∧ w < total then [⟨w, lcnRlNotMapped, total - w⟩] else [])
      (extentEnd v w total).vcn := by
    unfold extentEnd
    split_ifs with hmore hzero hzero
    · exact ⟨rfl, show 0 < total - w by omega, show total = w + (total - w) by omega⟩
    · exact absurd hmore.1 hzero
    · show total = w
      omega
    · rfl
  constructor
  · intro hruns
    exact (hhead.spaced.append hruns).append htail.spaced
  · intro hruns
    exact tiles_append_iff.mpr ⟨w, tiles_append_iff.mpr ⟨v, hhead, hruns⟩, htail⟩

/-- The lengths of the elements add up to the end if those of the runs do. -/
theorem sum_extentElements
    (htotal : v = 0 → w ≤ total) :
    ((extentElements v runs w total).map RunlistElement.length).sum = (extentEnd v w total).vcn ↔
      v + (runs.map RunlistElement.length).sum = w := by
  unfold extentElements extentHead extentEnd
  by_cases hv : v = 0
  · by_cases hmore : w < total
    · simp [hv, hmore, enoentAt]
      omega
    · simp [hv, hmore, enoentAt]
      omega
  · simp [hv, unmappedAt]

/-- A number of clusters that is not negative comes from a sum that did not wrap. -/
theorem inS64_of_numClusters
    (halloc : InS64 attr.allocatedSize)
    (hnum : 0 ≤ numClusters vol attr) :
    InS64 (attr.allocatedSize + vol.clusterSize - 1) := by
  have hpos : (0 : Int) < 2 ^ vol.clusterSizeBits := by positivity
  have hsize : 1 ≤ vol.clusterSize ∧ vol.clusterSize ≤ 2 ^ 31 := by
    rw [vol.clusterSize_eq]
    exact ⟨Nat.one_le_two_pow, Nat.pow_le_pow_right (by decide)
      (Nat.le_of_lt_succ vol.clusterSizeBits_lt)⟩
  unfold numClusters at hnum
  rw [Int.ediv_nonneg_iff_of_pos hpos] at hnum
  unfold InS64 at halloc ⊢
  by_contra hbig
  rw [s64_of_ge (by omega) (by omega)] at hnum
  omega

theorem extentElements_lcn
    (hruns : ∀ e ∈ runs, lcnHole ≤ e.lcn) :
    ∀ e ∈ extentElements v runs w total, 0 ≤ e.lcn ∨ e.lcn = lcnHole ∨ e.lcn = lcnRlNotMapped := by
  intro e he
  unfold extentElements extentHead at he
  rw [List.mem_append, List.mem_append] at he
  rcases he with (he | he) | he
  · split_ifs at he
    · simp at he
    · rw [List.mem_singleton.mp he]
      exact Or.inr (Or.inr rfl)
  · have := hruns e he
    unfold lcnHole at *
    omega
  · split_ifs at he
    · rw [List.mem_singleton.mp he]
      exact Or.inr (Or.inr rfl)
    · simp at he

theorem decodedRuns_mem
    {rounds : List DecodeState} {e : RunlistElement}
    (he : e ∈ decodedRuns vol attr rounds) :
    e.length ≠ 0 ∧ ∃ st ∈ rounds, e = pairElement vol attr st := by
  unfold decodedRuns at he
  rw [List.mem_filter, List.mem_map] at he
  obtain ⟨⟨st, hst, rfl⟩, hlen⟩ := he
  exact ⟨by simpa using hlen, st, hst, rfl⟩

/-- The runlist of pairs whose VCNs do not wrap: its last elements, if they are many. -/
theorem mappingPairsDecompress_value
    {rl : Runlist}
    (h : (mappingPairsDecompress vol attr none heap).rl = .ok rl)
    (htotal : attr.lowestVcn + roundsLength attr (attrRounds vol attr heap) < 2 ^ 63) :
    (attr.lowestVcn = 0 → attr.lowestVcn + roundsLength attr (attrRounds vol attr heap) ≤
          numClusters vol attr) ∧
      Spaced attr.lowestVcn (decodedRuns vol attr (attrRounds vol attr heap))
        (attr.lowestVcn + roundsLength attr (attrRounds vol attr heap)) ∧
      ((∀ s ∈ attrRounds vol attr heap, PairCut vol attr s → pairLength attr s = 0) →
        Tiles attr.lowestVcn (decodedRuns vol attr (attrRounds vol attr heap))
          (attr.lowestVcn + roundsLength attr (attrRounds vol attr heap))) ∧
      rl = (decodedElements vol attr heap).drop
          ((decodedElements vol attr heap).length / rlposRange * rlposRange) ++
        [extentEnd attr.lowestVcn (attr.lowestVcn + roundsLength attr (attrRounds vol attr heap))
          (numClusters vol attr)] := by
  obtain ⟨hnonneg, st, st', hpairs, hend, rfl⟩ := mappingPairsDecompress_ok h
  obtain ⟨hstart, -⟩ := decompressStart_vcn attr heap
  have hdecodes := decompressPairs_decodes hpairs
  have hlen := hdecodes.length.1
  have hruns := hdecodes.runs (by rw [hstart]; exact hnonneg) (by rw [hstart]; exact htotal)
  have hemitted := hdecodes.emitted (emitted_decompressStart heap rfl)
  rw [hstart] at hruns
  obtain ⟨hvcn, hspaced, htiles⟩ := hruns
  have hbounds : 0 ≤ st.vcn ∧ st.vcn < 2 ^ 63 := by
    rw [hvcn]
    exact ⟨by omega, htotal⟩
  obtain ⟨hle, st₁, hes, rfl⟩ := decompressEnd_ok hend hbounds hemitted
  rw [hvcn] at hle hspaced htiles hes
  refine ⟨hle, hspaced, htiles, ?_⟩
  · rw [hvcn]
    have hnz : ∀ e ∈ extentElements attr.lowestVcn
        (decodedRuns vol attr (decompressRounds vol attr attr.length (decompressStart attr heap)))
        (attr.lowestVcn + roundsLength attr
          (decompressRounds vol attr attr.length (decompressStart attr heap)))
        (numClusters vol attr), e.length ≠ 0 := by
      intro e he
      have := ((extentElements_around hnonneg hle).1 hspaced).length_pos he
      omega
    refine hes.value_emit hnz _ ?_
    unfold extentEnd
    split_ifs <;> rfl

/--
For every content of a record: what the decoder returns is a runlist as it should
be exactly when the pairs keep within the conditions.
-/
theorem mappingPairsDecompress_decoded_iff
    (vol : Volume)
    (attr : AttrRecord)
    (heap : Nat → RunlistElement)
    (hlow : attr.lowestVcn < 2 ^ 63)
    (halloc : InS64 attr.allocatedSize) :
    (∀ rl, (mappingPairsDecompress vol attr none heap).rl = .ok rl → DecodedWell vol attr heap rl) ↔
      ∀ rl, (mappingPairsDecompress vol attr none heap).rl = .ok rl →
        DecodesWithin vol attr heap := by
  refine forall₂_congr fun rl h => ?_
  obtain ⟨hnonneg, st, st', hpairs, hend, -⟩ := mappingPairsDecompress_ok h
  obtain ⟨hvcn, hlcn⟩ := decompressStart_vcn attr heap
  have hdecodes := decompressPairs_decodes hpairs
  have hvcns := hdecodes.vcn_inS64_iff (by rw [hvcn]; exact ⟨hnonneg, hlow⟩)
  rw [hvcn] at hvcns
  have hzero : lcnHole ≤ (decompressStart attr heap).lcn ∧
      (decompressStart attr heap).lcn < 2 ^ 63 := by
    rw [hlcn]
    exact ⟨by decide, by norm_num⟩
  have hlcns : (∀ s ∈ attrRounds vol attr heap, lcnBytes attr s ≠ 0 →
      InS64 (s.lcn + pairDelta attr s)) ↔
      ∀ s ∈ attrRounds vol attr heap, lcnBytes attr s ≠ 0 →
        ¬(s.lcn = -1 ∧ pairDelta attr s = -2 ^ 63) :=
    forall₃_congr fun s hs hbytes => hdecodes.lcn_inS64_iff hzero hs hbytes
  constructor
  · intro hwell
    have htotal := hvcns.mp hwell.vcns
    obtain ⟨hnum, hspaced, -, hvalue⟩ := mappingPairsDecompress_value h htotal
    obtain ⟨runs, t, hrl, htiles, -, -⟩ := hwell.contiguous
    rw [hvalue] at hrl
    obtain ⟨rfl, ht⟩ := List.append_inj' hrl rfl
    obtain rfl : _ = t := by simpa using ht
    have hall := (extentElements_around hnonneg hnum).1 hspaced
    -- the first elements are there
    have hcount : (decodedElements vol attr heap).length < rlposRange := by
      by_contra hbig
      have hpos : 0 < (decodedElements vol attr heap).length / rlposRange * rlposRange :=
        Nat.mul_pos (Nat.div_pos (not_lt.mp hbig) (by decide)) (by decide)
      exact Spaced.not_tiles_drop hall hpos (Nat.div_mul_le_self _ _) htiles
    refine ⟨htotal, hlcns.mp hwell.lcns, ?_, hcount⟩
    -- the lengths of the elements add up to the clusters that were counted
    rw [Nat.div_eq_of_lt hcount, Nat.zero_mul, List.drop_zero] at htiles
    have hsum := htiles.sum_length
    rw [zero_add, decodedElements, sum_extentElements hnum] at hsum
    refine hdecodes.length.2.2 ?_
    unfold attrRounds at hsum
    omega
  · intro hwithin
    obtain ⟨hnum, hspaced, htiles, hvalue⟩ := mappingPairsDecompress_value h hwithin.total
    have hall := (extentElements_around hnonneg hnum).2 (htiles hwithin.uncut)
    refine ⟨⟨_, _, hvalue, ?_, ?_, ?_⟩, hvcns.mpr hwithin.total, hlcns.mpr hwithin.change, ?_⟩
    · rw [Nat.div_eq_of_lt hwithin.count]
      exact hall
    · unfold extentEnd
      split_ifs <;> rfl
    · intro e he
      refine extentElements_lcn ?_ e (List.mem_of_mem_drop he)
      intro e he
      obtain ⟨-, s, hs, rfl⟩ := decodedRuns_mem he
      exact (hdecodes.accepted s hs).2
    · intro hbase
      have hpos : 0 ≤ roundsLength attr (attrRounds vol attr heap) :=
        hdecodes.length.1
      exact inS64_of_numClusters halloc (by omega)

/-- Four holes of `2 ^ 62` clusters, in an attribute of no size. -/
def wrappingPairs : AttrRecord :=
  pairsRecord 104 0 ([8, 0, 0, 0, 0, 0, 0, 0, 64] ++ [8, 0, 0, 0, 0, 0, 0, 0, 64] ++
    [8, 0, 0, 0, 0, 0, 0, 0, 64] ++ [8, 0, 0, 0, 0, 0, 0, 0, 64])

/-- A hole told by its LCN, two clusters that do not change it, and a run. -/
def cutPairs : AttrRecord :=
  pairsRecord 80 16384 [17, 1, 255, 17, 2, 0, 17, 1, 6]

/--
The VCNs of the holes wrap and end at 0 again; in fsck mode the run behind the
clusters that were cut does not follow the hole.
-/
theorem mappingPairsDecompress_wrapped :
    ((mappingPairsDecompress volume31 wrappingPairs none fun _ => blank).rl =
        .ok [⟨0, lcnHole, 2 ^ 62⟩, ⟨2 ^ 62, lcnHole, 2 ^ 62⟩, ⟨-2 ^ 63, lcnHole, 2 ^ 62⟩,
          ⟨-2 ^ 62, lcnHole, 2 ^ 62⟩, enoentAt 0] ∧
      ∀ rl, ¬DecodedWell volume31 wrappingPairs (fun _ => blank) rl) ∧
    (mappingPairsDecompress { volume31 with onFsck := true } cutPairs none fun _ => blank).rl =
        .ok [⟨0, lcnHole, 1⟩, ⟨3, 5, 1⟩, enoentAt 4] ∧
      ¬DecodedWell { volume31 with onFsck := true } cutPairs (fun _ => blank)
        [⟨0, lcnHole, 1⟩, ⟨3, 5, 1⟩, enoentAt 4] := by
  refine ⟨⟨by decide +kernel, ?_⟩, by decide +kernel, ?_⟩
  · intro rl hwell
    exact absurd hwell.vcns (by decide +kernel)
  · rintro ⟨⟨runs, t, hrl, htiles, -⟩, -⟩
    obtain ⟨rfl, -⟩ := List.append_inj'
      (show [(⟨0, lcnHole, 1⟩ : RunlistElement), ⟨3, 5, 1⟩] ++ [enoentAt 4] = runs ++ [t] from hrl)
      rfl
    exact absurd htiles.2.2.1 (by decide)

/-- One run of one cluster. -/
theorem mappingPairsDecompress_narrow :
    narrowPair.lowestVcn < 2 ^ 63 ∧ InS64 narrowPair.allocatedSize ∧
      ∀ rl, (mappingPairsDecompress volume31 narrowPair none fun _ => blank).rl =
        .ok rl → DecodedWell volume31 narrowPair (fun _ => blank) rl := by
  have hlow : narrowPair.lowestVcn < 2 ^ 63 := by decide
  have halloc : InS64 narrowPair.allocatedSize := by decide
  refine ⟨hlow, halloc, (mappingPairsDecompress_decoded_iff _ _ _ hlow halloc).mpr ?_⟩
  intro rl _
  exact ⟨by decide +kernel, by decide +kernel, by decide +kernel, by decide +kernel⟩

end Contiguous

end NtfsPlus.Libntfs
