import NtfsPlus.Libntfs.RunlistMerge

/-!
# Decompressing the mapping pairs array

`ntfs_mapping_pairs_decompress_i` of `libntfs/runlist.c`.  The elements are
assigned by index into cells, and the index `rlpos` is a `u16`: the element
after index 65535 goes to index 0 again.  What the heap held before is an
argument.

`Emitted` is the invariant of that array: after a list of elements has been
assigned one after the other, the cells before `rlpos` hold its last
`length % 65536` elements.  From it follows what the returned pointer shows,
for any number of elements.
-/

namespace NtfsPlus.Libntfs

open SignedBytes

section MappingPairsDecompress

/-- The fields of a non-resident attribute record that the decoder reads. -/
structure AttrRecord where
  nonResident : Bool
  /-- `length`, a `u32`. -/
  length : Nat
  /-- `mapping_pairs_offset`, a `u16`. -/
  mappingPairsOffset : Nat
  lowestVcn : Int
  highestVcn : Int
  allocatedSize : Int
  /-- The memory from the first byte of the record on. -/
  bytes : Bytes

/-- The remaining bytes of a number, from the second most significant one down. -/
def readSignedLoop (mem : Bytes) (pos : Nat) : Nat → Int → Int
  | 0, d => d
  | k + 1, d => readSignedLoop mem pos k (s64 (d * 256 + (mem (pos + k)).toNat))

/-- The little-endian signed number of `n` bytes at `pos`. -/
def readSigned (mem : Bytes) (pos n : Nat) : Int :=
  readSignedLoop mem pos (n - 1) (signedByte (mem (pos + (n - 1))))

/-- The variables of the decoder. -/
structure DecodeState where
  vcn : Int
  lcn : Int
  rl : Nat → RunlistElement
  rlpos : Nat
  buf : Nat

/-- The number of values of `rlpos`, a `u16`. -/
def rlposRange : Nat := 65536

/-- Assign an element at `rlpos` and step over it unless its length is zero. -/
def DecodeState.emit (st : DecodeState) (e : RunlistElement) : DecodeState :=
  { st with
    rl := setCell st.rl st.rlpos e
    rlpos := if e.length = 0 then st.rlpos else (st.rlpos + 1) % rlposRange }

@[simp] theorem DecodeState.emit_vcn
    (st : DecodeState)
    (e : RunlistElement) :
    (st.emit e).vcn = st.vcn :=
  rfl

@[simp] theorem DecodeState.emit_lcn
    (st : DecodeState)
    (e : RunlistElement) :
    (st.emit e).lcn = st.lcn :=
  rfl

@[simp] theorem DecodeState.emit_buf
    (st : DecodeState)
    (e : RunlistElement) :
    (st.emit e).buf = st.buf :=
  rfl

/-- The body of the decoder's loop; an error keeps the state of `err_out`. -/
def decompressPair (vol : Volume) (attr : AttrRecord) (st : DecodeState) :
    Except DecodeState DecodeState :=
  let head := (attr.bytes st.buf).toNat
  let lenLen := head % 16
  let lcnLen := head / 16
  if lenLen ≠ 0 ∧ st.buf + lenLen > attr.length then
    .error st
  else
    let length :=
      if lenLen = 0 then -1 else readSigned attr.bytes (st.buf + 1) lenLen
    if length < 0 then
      .error st
    else
      let next :=
        { st with
          vcn := s64 (st.vcn + length)
          buf := st.buf + lenLen + lcnLen + 1 }
      if lcnLen = 0 then
        .ok (next.emit ⟨st.vcn, lcnHole, length⟩)
      else if st.buf + (lenLen + lcnLen) > attr.length then
        .error st
      else
        let delta := readSigned attr.bytes (st.buf + 1 + lenLen) lcnLen
        let length :=
          if vol.onFsck ∧ delta = 0 ∧ st.rlpos ≠ 0 then 0 else length
        let lcn := s64 (st.lcn + delta)
        if lcn < -1 then
          .error st
        else if lcn ≠ -1 ∧ length = 0 then
          .error st
        else
          .ok ({ next with lcn }.emit ⟨st.vcn, lcn, length⟩)

/-- The decoder's loop; every round moves `buf` on, so `length` rounds do. -/
def decompressPairs (vol : Volume) (attr : AttrRecord) :
    Nat → DecodeState → Except DecodeState DecodeState
  | 0, st => .ok st
  | fuel + 1, st =>
    if st.buf < attr.length ∧ attr.bytes st.buf ≠ 0 then
      match decompressPair vol attr st with
      | .error st' => .error st'
      | .ok st' => decompressPairs vol attr fuel st'
    else
      .ok st

/-- The number of clusters of the whole attribute. -/
def numClusters (vol : Volume) (attr : AttrRecord) : Int :=
  s64 (attr.allocatedSize + vol.clusterSize - 1) / 2 ^ vol.clusterSizeBits

/--
From the loop to the terminating element.  `vcn - 1` and `highest_vcn` are 64-bit
numbers and compared by their difference.
-/
def decompressEnd (vol : Volume) (attr : AttrRecord) (st : DecodeState) :
    Except DecodeState DecodeState :=
  if st.buf ≥ attr.length then
    .error st
  else if attr.highestVcn ≠ 0 ∧ s64 (st.vcn - 1 - attr.highestVcn) ≠ 0 then
    .error st
  else if attr.lowestVcn = 0 then
    let num := numClusters vol attr
    if num > st.vcn then
      let st :=
        { st.emit ⟨st.vcn, lcnRlNotMapped, s64 (num - st.vcn)⟩ with vcn := num }
      .ok (st.emit ⟨st.vcn, lcnEnoent, 0⟩)
    else if st.vcn > num then
      .error st
    else
      .ok (st.emit ⟨st.vcn, lcnEnoent, 0⟩)
  else
    .ok (st.emit ⟨st.vcn, lcnRlNotMapped, 0⟩)

/-- The state before the loop, with the unmapped starting element if needed. -/
def decompressStart (attr : AttrRecord) (heap : Nat → RunlistElement) : DecodeState :=
  let st : DecodeState :=
    { vcn := attr.lowestVcn, lcn := 0, rl := heap, rlpos := 0,
      buf := attr.mappingPairsOffset }
  if attr.lowestVcn = 0 then
    st
  else
    st.emit ⟨0, lcnRlNotMapped, attr.lowestVcn⟩

/-- What the decoder returns, and what it leaves in `*part_rl`. -/
structure DecompressResult where
  rl : Except Errno Runlist
  partRl : Option Runlist

/-- The runlist behind the pointer `rl`. -/
def DecodeState.value (st : DecodeState) : Runlist :=
  readRunlist st.rl rlposRange 0

/-- The label `err_out`: in fsck mode the part decoded so far is kept. -/
def decompressError (vol : Volume) (oldRl : Option Runlist) (st : DecodeState) : DecompressResult :=
  if vol.onFsck then
    let prev := st.rl (st.rlpos - 1)
    let vcn := if st.rlpos = 0 then 0 else prev.vcn + prev.length
    let rl := (st.emit ⟨vcn, lcnEnoent, 0⟩).value
    match oldRl with
    | none => ⟨.error .eio, some rl⟩
    | some old =>
      if (elemAt old 0).length ≠ 0 ∧ (elemAt rl 0).length ≠ 0 then
        match runlistsMerge (some old) (some rl) with
        | .ok merged => ⟨.error .eio, merged⟩
        | .error _ => ⟨.error .eio, some old⟩
      else
        ⟨.error .eio, some rl⟩
  else
    ⟨.error .eio, none⟩

/-- Combine the decoded runlist with the old one. -/
def decompressMerge (vol : Volume) (oldRl : Option Runlist) (rl : Runlist) : DecompressResult :=
  match oldRl with
  | none => ⟨.ok rl, none⟩
  | some old =>
    if (elemAt old 0).length = 0 then
      ⟨.ok rl, none⟩
    else if (elemAt rl 0).length = 0 then
      ⟨.ok old, none⟩
    else
      match runlistsMerge (some old) (some rl) with
      | .ok merged => ⟨.ok (merged.getD []), none⟩
      | .error err => if vol.onFsck then ⟨.error .eio, some old⟩ else ⟨.error err, none⟩

/-- `ntfs_mapping_pairs_decompress_i`. -/
def mappingPairsDecompress
    (vol : Volume) (attr : AttrRecord) (oldRl : Option Runlist)
    (heap : Nat → RunlistElement) :
    DecompressResult :=
  if ¬attr.nonResident ∨ attr.lowestVcn < 0 then
    ⟨.error .einval, none⟩
  else if attr.mappingPairsOffset > attr.length then
    ⟨.error .eio, none⟩
  else
    match decompressPairs vol attr attr.length (decompressStart attr heap) with
    | .error st => decompressError vol oldRl st
    | .ok st =>
      match decompressEnd vol attr st with
      | .error st => decompressError vol oldRl st
      | .ok st => decompressMerge vol oldRl st.value

/-- The loop prefixes the bytes it reads to the value read before. -/
theorem readSignedLoop_eq
    {mem : Bytes} {pos : Nat}
    (pre suf : List UInt8)
    (hsuf : suf ≠ [])
    (hlen : (pre ++ suf).length ≤ 8)
    (hpre : HoldsBytes mem pos pre) :
    readSignedLoop mem pos pre.length (value suf) = value (pre ++ suf) := by
  induction pre using List.reverseRecOn generalizing suf with
  | nil => rfl
  | append_singleton pre b ih =>
    obtain ⟨hpre, hb, -⟩ := (holdsBytes_append mem pos pre [b]).mp hpre
    have hval : s64 (value suf * 256 + b.toNat) = value (b :: suf) := by
      rw [mul_comm, add_comm, ← value_cons b hsuf]
      refine s64_of_inS64 (value_inS64 (by simp) ?_)
      simp at hlen ⊢
      omega
    rw [List.length_append, List.length_singleton, readSignedLoop, hb, hval,
      ih (b :: suf) (by simp) (by simpa [Nat.add_comm] using hlen) hpre]
    simp

theorem readSigned_eq
    {mem : Bytes} {pos : Nat} {l : List UInt8}
    (hpos : 0 < l.length)
    (hle : l.length ≤ 8)
    (h : HoldsBytes mem pos l) :
    readSigned mem pos l.length = value l := by
  obtain ⟨pre, b, rfl⟩ : ∃ pre b, l = pre ++ [b] :=
    ⟨l.dropLast, l.getLast (List.length_pos_iff.mp hpos), (List.dropLast_append_getLast _).symm⟩
  obtain ⟨hpre, hb, -⟩ := (holdsBytes_append mem pos pre [b]).mp h
  have hloop := readSignedLoop_eq pre [b] (by simp) hle hpre
  simpa [readSigned, hb] using hloop

/-- The array after the elements `es` have been assigned one after the other. -/
structure Emitted (st : DecodeState) (es : List RunlistElement) : Prop where
  rlpos_eq : st.rlpos = es.length % rlposRange
  cells : ∀ i, i < st.rlpos → st.rl i = elemAt es (es.length / rlposRange * rlposRange + i)

variable {st : DecodeState} {es : List RunlistElement}

theorem Emitted.congr
    {st' : DecodeState}
    (h : Emitted st es)
    (hrl : st'.rl = st.rl)
    (hpos : st'.rlpos = st.rlpos) :
    Emitted st' es :=
  ⟨by rw [hpos, h.rlpos_eq], by rw [hpos, hrl]; exact h.cells⟩

theorem Emitted.emit
    (h : Emitted st es)
    (e : RunlistElement)
    (he : e.length ≠ 0) :
    Emitted (st.emit e) (es ++ [e]) := by
  have hpos := h.rlpos_eq
  have hcells := h.cells
  constructor
  · simp only [DecodeState.emit, he, if_false, List.length_append,
      List.length_singleton, rlposRange] at hpos ⊢
    omega
  · intro i hi
    simp only [DecodeState.emit, he, if_false, rlposRange] at hpos hcells hi ⊢
    have hnowrap : (st.rlpos + 1) % 65536 = st.rlpos + 1 := by omega
    have hbase : (es ++ [e]).length / 65536 = es.length / 65536 := by
      rw [List.length_append, List.length_singleton]
      omega
    rw [hbase]
    by_cases hlast : i = st.rlpos
    · have hidx : es.length / 65536 * 65536 + i = es.length := by
        omega
      rw [hlast, ← hlast, hidx]
      simp [elemAt]
    · rw [setCell_of_ne _ _ hlast, hcells i (by omega), elemAt_append_left]
      omega

/--
What the pointer shows after the terminator: the elements since `rlpos` was
last zero.
-/
theorem Emitted.value_emit
    (h : Emitted st es)
    (hes : ∀ e ∈ es, e.length ≠ 0)
    (t : RunlistElement)
    (ht : t.length = 0) :
    (st.emit t).value = es.drop (es.length / rlposRange * rlposRange) ++ [t] := by
  have hpos := h.rlpos_eq
  have hcells := h.cells
  unfold DecodeState.value
  simp only [rlposRange] at hpos hcells ⊢
  have hlen : (es.drop (es.length / 65536 * 65536)).length = st.rlpos := by
    rw [List.length_drop]
    omega
  apply readRunlist_eq
  · intro j hj
    rw [List.length_append, List.length_singleton] at hj
    simp only [DecodeState.emit, Nat.zero_add]
    by_cases hlast : j = st.rlpos
    · subst hlast
      simp [hlen]
    · rw [setCell_of_ne _ _ hlast, hcells j (by omega)]
      have hj' : j < (es.drop (es.length / 65536 * 65536)).length := by omega
      rw [List.getD_eq_getElem?_getD, List.getElem?_append_left hj']
      have hidx : es.length / 65536 * 65536 + j < es.length := by omega
      simp [elemAt, List.getElem?_eq_getElem hidx]
  · exact fun e he => hes e (List.mem_of_mem_drop he)
  · exact ht
  · omega

end MappingPairsDecompress

end NtfsPlus.Libntfs
