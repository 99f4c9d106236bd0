import NtfsPlus.Lib.ByteMemory

/-!
# Decompression of a compression block

`ntfs_decompress` of `libntfs/compress.c` with two cursors, one in the compressed block
and one in the destination.  Every access to one of the two buffers is noted in a trace.
The compressed block lies in a memory that goes on behind it, so a read behind the block
gives some byte.

Most accesses are checked before they are made.  Three are not: the header of a sub-block
and a phrase token have two bytes and only one is checked, and a symbol token may be
stored when the destination is full (`decompress_inside_iff`).
-/

namespace NtfsPlus.Libntfs

section Model

/-- `NTFS_SB_SIZE`. -/
def ntfsSbSize : Nat := 4096

/-- An access of `ntfs_decompress` to its buffers, with the positions it is made at. -/
inductive DecAccess where
  /-- Read the two bytes of a header. -/
  | header (cb : Nat)
  /-- Copy an uncompressed sub-block. -/
  | raw (cb dest : Nat)
  /-- Set bytes of the destination to zero. -/
  | zero (dest len : Nat)
  /-- Read a tag. -/
  | tag (cb : Nat)
  /-- Copy a symbol. -/
  | symbol (cb dest : Nat)
  /-- Read the two bytes of a phrase token. -/
  | phrase (cb : Nat)
  /-- Copy bytes of the destination to a later place. -/
  | back (src dest len : Nat)
deriving DecidableEq, Repr

/-- The cursors, the destination, and the accesses so far. -/
structure DecState where
  cb : Nat
  dest : Nat
  out : Bytes
  trace : List DecAccess

/-- Note an access. -/
def DecState.note (s : DecState) (a : DecAccess) : DecState :=
  { s with trace := s.trace ++ [a] }

/-- `memset` of the destination up to `stop`, if there is anything left. -/
def DecState.zeroTo (s : DecState) (stop : Nat) : DecState :=
  if s.dest < stop then
    { s.note (.zero s.dest (stop - s.dest)) with
      dest := stop
      out := fun j => if s.dest ≤ j ∧ j < stop then 0 else s.out j }
  else
    s

/-- `for (i = x; i >= 0x10; i >>= 1) lg++;` -/
def lgFrom : Nat → Nat → Nat
  | 0, _ => 0
  | n + 1, i => if i ≥ 0x10 then lgFrom n (i / 2) + 1 else 0

/-- Copy bytes of the destination one by one.  The `memcpy` of the part in front of `dest`
does the same. -/
def copyBack (out : Bytes) (src dest : Nat) : Nat → Bytes
  | 0 => out
  | n + 1 =>
    let m := copyBack out src dest n
    setByte m (dest + n) (m (src + n))

/-- A symbol token. -/
def DecState.symbol (m : Bytes) (s : DecState) : DecState :=
  { s.note (.symbol s.cb s.dest) with
    cb := s.cb + 1
    dest := s.dest + 1
    out := setByte s.out s.dest (m s.cb) }

/-- A phrase token; `false` is `return_overflow`. -/
def DecState.phrase (m : Bytes) (destSbStart destSbEnd : Nat) (s : DecState) : Bool × DecState :=
  if s.dest = destSbStart then
    (false, s)
  else
    let lg := lgFrom 16 (s.dest - destSbStart - 1)
    let pt := le16 m s.cb
    let s := s.note (.phrase s.cb)
    let distance := pt >>> (12 - lg) + 1
    if s.dest < destSbStart + distance then
      (false, s)
    else
      let length := (pt &&& 0xfff >>> lg) + 3
      if s.dest + length > destSbEnd then
        (false, s)
      else
        (true, { s.note (.back (s.dest - distance) s.dest length) with
          cb := s.cb + 2
          dest := s.dest + length
          out := copyBack s.out (s.dest - distance) s.dest length })

/-- The loop over the tokens of a tag. -/
def decTokens (m : Bytes) (cbSbEnd destSbStart destSbEnd : Nat) :
    Nat → Nat → DecState → Bool × DecState
  | 0, _, s => (true, s)
  | n + 1, tag, s =>
    if s.cb ≥ cbSbEnd ∨ s.dest > destSbEnd then
      (true, s)
    else if tag % 2 = 0 then
      decTokens m cbSbEnd destSbStart destSbEnd n (tag / 2) (s.symbol m)
    else
      match s.phrase m destSbStart destSbEnd with
      | (false, s') => (false, s')
      | (true, s') => decTokens m cbSbEnd destSbStart destSbEnd n (tag / 2) s'

/-- From `do_next_tag`: the rest of a compressed sub-block. -/
def decTags (m : Bytes) (cbSbEnd destSbStart destSbEnd : Nat) :
    Nat → DecState → Option (Bool × DecState)
  | 0, _ => none
  | n + 1, s =>
    if s.cb = cbSbEnd then
      some (true, s.zeroTo destSbEnd)
    else if s.cb > cbSbEnd ∨ s.dest > destSbEnd then
      some (false, s)
    else
      match decTokens m cbSbEnd destSbStart destSbEnd 8 (m s.cb).toNat
          { s.note (.tag s.cb) with cb := s.cb + 1 } with
      | (false, s') => some (false, s')
      | (true, s') => decTags m cbSbEnd destSbStart destSbEnd n s'

/-- An uncompressed sub-block. -/
def DecState.raw (m : Bytes) (s : DecState) : DecState :=
  { s.note (.raw (s.cb + 2) s.dest) with
    cb := s.cb + 2 + ntfsSbSize
    dest := s.dest + ntfsSbSize
    out := fun j =>
      if s.dest ≤ j ∧ j < s.dest + ntfsSbSize then m (s.cb + 2 + (j - s.dest)) else s.out j }

/-- From `do_next_sb`: the rest of a compression block. -/
def decBlocks (m : Bytes) (cbSize destSize : Nat) : Nat → DecState → Option (Bool × DecState)
  | 0, _ => none
  | n + 1, s =>
    if s.cb = cbSize then
      some (true, s.zeroTo destSize)
    else
      let header := le16 m s.cb
      let s := s.note (.header s.cb)
      let cbSbEnd := s.cb + header % 4096 + 3
      if header = 0 ∨ s.dest = destSize then
        some (true, s.zeroTo destSize)
      else if s.dest + ntfsSbSize > destSize then
        some (false, s)
      else if s.cb + 6 > cbSize then
        some (false, s)
      else if cbSbEnd > cbSize then
        some (false, s)
      else if header < 0x8000 then
        if cbSbEnd - (s.cb + 2) ≠ ntfsSbSize then
          some (false, s)
        else
          decBlocks m cbSize destSize n (s.raw m)
      else
        match decTags m cbSbEnd s.dest (s.dest + ntfsSbSize) (cbSize + 1)
            { s with cb := s.cb + 2 } with
        | none => none
        | some (false, s') => some (false, s')
        | some (true, s') => decBlocks m cbSize destSize n s'

/--
`ntfs_decompress` of the `cbSize` bytes at the beginning of `m`: whether it succeeds, and
the destination with the accesses.  `none` if it does not come to an end.
-/
def ntfsDecompress (m : Bytes) (cbSize : Nat) (dest : Bytes) (destSize : Nat) :
    Option (Bool × DecState) :=
  decBlocks m cbSize destSize (cbSize + 1) ⟨0, 0, dest, []⟩

end Model

section Bounds

/-- The bytes of the compressed block that an access reads. -/
def DecAccess.ReadsCb : DecAccess → Nat → Prop
  | .header cb, i => cb ≤ i ∧ i < cb + 2
  | .raw cb _, i => cb ≤ i ∧ i < cb + ntfsSbSize
  | .tag cb, i => i = cb
  | .symbol cb _, i => i = cb
  | .phrase cb, i => cb ≤ i ∧ i < cb + 2
  | _, _ => False

/-- The bytes of the destination that an access reads or writes. -/
def DecAccess.UsesDest : DecAccess → Nat → Prop
  | .raw _ dest, i => dest ≤ i ∧ i < dest + ntfsSbSize
  | .zero dest len, i => dest ≤ i ∧ i < dest + len
  | .symbol _ dest, i => i = dest
  | .back src dest len, i => src ≤ i ∧ i < src + len ∨ dest ≤ i ∧ i < dest + len
  | _, _ => False

/-- An access stays inside both buffers. -/
def DecAccess.Inside (cbSize destSize : Nat) (a : DecAccess) : Prop :=
  (∀ i, a.ReadsCb i → i < cbSize) ∧ ∀ i, a.UsesDest i → i < destSize

/-- No two-byte field begins with the last byte of the block, and no symbol is stored at the
end of the destination. -/
def DecAccess.OffEdge (cbSize destSize : Nat) : DecAccess → Prop
  | .header cb => cb + 1 ≠ cbSize
  | .phrase cb => cb + 1 ≠ cbSize
  | .symbol _ dest => dest ≠ destSize
  | _ => True

/-- Every access so far is inside unless it is one of those at the edge. -/
def DecState.Checked (cbSize destSize : Nat) (s : DecState) : Prop :=
  ∀ a ∈ s.trace, a.Inside cbSize destSize ↔ a.OffEdge cbSize destSize

variable {s : DecState} {cb : Nat}

/-- An access that is checked keeps the record of accesses right. -/
theorem DecState.Checked.note
    {cbSize destSize : Nat}
    (h : s.Checked cbSize destSize)
    {a : DecAccess}
    (ha : a.Inside cbSize destSize ↔ a.OffEdge cbSize destSize) :
    (s.note a).Checked cbSize destSize := by
  intro b hb
  rcases List.mem_append.mp hb with hb | hb
  · exact h b hb
  · rw [List.mem_singleton.mp hb]
    exact ha

variable {cbSize destSize : Nat}

theorem header_inside_iff
    (hcb : cb < cbSize) :
    (DecAccess.header cb).Inside cbSize destSize ↔
      (DecAccess.header cb).OffEdge cbSize destSize := by
  simp only [DecAccess.Inside, DecAccess.ReadsCb, DecAccess.OffEdge]
  constructor
  · intro h
    have := h.1 (cb + 1) (by omega)
    omega
  · intro h
    exact ⟨fun i hi => by omega, fun i hi => hi.elim⟩

theorem phrase_inside_iff
    (hcb : cb < cbSize) :
    (DecAccess.phrase cb).Inside cbSize destSize ↔ (DecAccess.phrase cb).OffEdge cbSize destSize :=
  header_inside_iff hcb

theorem symbol_inside_iff
    {dest : Nat}
    (hcb : cb < cbSize)
    (hdest : dest ≤ destSize) :
    (DecAccess.symbol cb dest).Inside cbSize destSize ↔
      (DecAccess.symbol cb dest).OffEdge cbSize destSize := by
  simp only [DecAccess.Inside, DecAccess.ReadsCb, DecAccess.UsesDest, DecAccess.OffEdge]
  constructor
  · intro h
    have := h.2 dest rfl
    omega
  · intro h
    exact ⟨fun i hi => by omega, fun i hi => by omega⟩

theorem zeroTo_checked
    {stop : Nat}
    (h : s.Checked cbSize destSize)
    (hstop : stop ≤ destSize) :
    (s.zeroTo stop).Checked cbSize destSize := by
  rw [DecState.zeroTo]
  split_ifs
  · refine h.note (iff_of_true ⟨fun i hi => hi.elim, fun i hi => ?_⟩ trivial)
    simp only [DecAccess.UsesDest] at hi
    omega
  · exact h

/-- What holds of the cursors inside a compressed sub-block. -/
structure InSubBlock (cbSize destSize cbSbEnd destSbStart destSbEnd : Nat) (s : DecState) :
    Prop where
  checked : s.Checked cbSize destSize
  block : cbSbEnd ≤ cbSize
  room : destSbEnd ≤ destSize
  begun : destSbStart ≤ s.dest
  near : s.dest ≤ destSbEnd + 1

variable {m : Bytes} {cbSbEnd destSbStart destSbEnd : Nat}

/-- Copying a symbol stays inside the sub-block. -/
theorem InSubBlock.symbol
    (h : InSubBlock cbSize destSize cbSbEnd destSbStart destSbEnd s)
    (hcb : s.cb < cbSbEnd)
    (hdest : s.dest ≤ destSbEnd) :
    InSubBlock cbSize destSize cbSbEnd destSbStart destSbEnd (s.symbol m) := by
  have h1 := h.block
  have h2 := h.room
  have h3 := h.begun
  refine ⟨h.checked.note (symbol_inside_iff (by omega) (by omega)), h1, h2, ?_, ?_⟩
  · exact Nat.le_succ_of_le h3
  · exact Nat.succ_le_succ hdest

/-- A phrase token keeps to the sub-block, whether it is refused or not. -/
theorem InSubBlock.phrase
    {s' : DecState} {ret : Bool}
    (h : InSubBlock cbSize destSize cbSbEnd destSbStart destSbEnd s)
    (hcb : s.cb < cbSbEnd)
    (hphrase : s.phrase m destSbStart destSbEnd = (ret, s')) :
    InSubBlock cbSize destSize cbSbEnd destSbStart destSbEnd s' ∧ s.cb ≤ s'.cb := by
  have h1 := h.block
  have h2 := h.room
  have h3 := h.begun
  have h4 := h.near
  rw [DecState.phrase] at hphrase
  by_cases hstart : s.dest = destSbStart
  · rw [if_pos hstart] at hphrase
    cases hphrase
    exact ⟨h, Nat.le_refl _⟩
  rw [if_neg hstart] at hphrase
  have hnote : InSubBlock cbSize destSize cbSbEnd destSbStart destSbEnd (s.note (.phrase s.cb)) :=
    ⟨h.checked.note (phrase_inside_iff (by omega)), h1, h2, h3, h4⟩
  dsimp only at hphrase
  generalize le16 m s.cb >>> (12 - lgFrom 16 (s.dest - destSbStart - 1)) + 1 = distance at hphrase
  generalize (le16 m s.cb &&& 0xfff >>> lgFrom 16 (s.dest - destSbStart - 1)) + 3 = length
    at hphrase
  by_cases hback : (s.note (.phrase s.cb)).dest < destSbStart + distance
  · rw [if_pos hback] at hphrase
    cases hphrase
    exact ⟨hnote, Nat.le_refl _⟩
  rw [if_neg hback] at hphrase
  by_cases hlong : (s.note (.phrase s.cb)).dest + length > destSbEnd
  · rw [if_pos hlong] at hphrase
    cases hphrase
    exact ⟨hnote, Nat.le_refl _⟩
  rw [if_neg hlong] at hphrase
  cases hphrase
  simp only [DecState.note] at hback hlong
  refine ⟨⟨hnote.checked.note (iff_of_true ⟨fun i hi => hi.elim, fun i hi => ?_⟩ trivial),
    h1, h2, ?_, ?_⟩, ?_⟩
  · simp only [DecAccess.UsesDest, DecState.note] at hi
    omega
  · exact Nat.le_trans h3 (Nat.le_add_right _ _)
  · simp only [DecState.note]
    omega
  · exact Nat.le_add_right _ _

/-- So do all tokens of a tag. -/
theorem decTokens_inSubBlock
    {n tag : Nat} {s' : DecState} {ret : Bool}
    (h : InSubBlock cbSize destSize cbSbEnd destSbStart destSbEnd s)
    (hrun : decTokens m cbSbEnd destSbStart destSbEnd n tag s = (ret, s')) :
    InSubBlock cbSize destSize cbSbEnd destSbStart destSbEnd s' ∧ s.cb ≤ s'.cb := by
  induction n generalizing tag s with
  | zero =>
    cases hrun
    exact ⟨h, Nat.le_refl _⟩
  | succ n ih =>
    rw [decTokens] at hrun
    by_cases hend : s.cb ≥ cbSbEnd ∨ s.dest > destSbEnd
    · rw [if_pos hend] at hrun
      cases hrun
      exact ⟨h, Nat.le_refl _⟩
    rw [if_neg hend] at hrun
    split_ifs at hrun
    · obtain ⟨hin, hle⟩ := ih (h.symbol (by omega) (by omega)) hrun
      exact ⟨hin, Nat.le_of_succ_le hle⟩
    · rcases hphrase : s.phrase m destSbStart destSbEnd with ⟨r, s₁⟩
      obtain ⟨hin₁, hle₁⟩ := h.phrase (by omega) hphrase
      rw [hphrase] at hrun
      cases r with
      | false =>
        cases hrun
        exact ⟨hin₁, hle₁⟩
      | true =>
        obtain ⟨hin, hle⟩ := ih hin₁ hrun
        exact ⟨hin, Nat.le_trans hle₁ hle⟩

/-- A compressed sub-block comes to an end, and its accesses are checked. -/
theorem decTags_checked
    {n : Nat}
    (h : InSubBlock cbSize destSize cbSbEnd destSbStart destSbEnd s)
    (hpos : 0 < n)
    (hn : cbSbEnd < s.cb + n) :
    ∃ ret s', decTags m cbSbEnd destSbStart destSbEnd n s = some (ret, s') ∧
      s'.Checked cbSize destSize ∧
      (ret = true → s'.cb = cbSbEnd ∧ s'.dest ≤ destSbEnd + 1) := by
  induction n generalizing s with
  | zero => omega
  | succ n ih =>
    rw [decTags]
    by_cases hend : s.cb = cbSbEnd
    · rw [if_pos hend]
      refine ⟨true, _, rfl, zeroTo_checked h.checked h.room, fun _ => ?_⟩
      rw [DecState.zeroTo]
      split_ifs
      · exact ⟨hend, Nat.le_succ destSbEnd⟩
      · exact ⟨hend, h.near⟩
    rw [if_neg hend]
    by_cases hout : s.cb > cbSbEnd ∨ s.dest > destSbEnd
    · rw [if_pos hout]
      exact ⟨false, s, rfl, h.checked, fun hret => by cases hret⟩
    rw [if_neg hout]
    have hblock := h.block
    have htag : InSubBlock cbSize destSize cbSbEnd destSbStart destSbEnd
        { s.note (.tag s.cb) with cb := s.cb + 1 } := by
      refine ⟨h.checked.note (iff_of_true ⟨fun i hi => ?_, fun i hi => hi.elim⟩ trivial),
        h.block, h.room, h.begun, h.near⟩
      simp only [DecAccess.ReadsCb] at hi
      omega
    rcases hrun : decTokens m cbSbEnd destSbStart destSbEnd 8 (m s.cb).toNat
      { s.note (.tag s.cb) with cb := s.cb + 1 } with ⟨ret, s₁⟩
    obtain ⟨hin, hle⟩ := decTokens_inSubBlock htag hrun
    dsimp only at hle
    cases ret with
    | false => exact ⟨false, s₁, rfl, hin.checked, fun hret => by cases hret⟩
    | true => exact ih hin (by omega) (by omega)

/-- The rest of a compression block comes to an end, and its accesses are checked. -/
theorem decBlocks_checked
    {n : Nat} {s : DecState}
    (h : s.Checked cbSize destSize)
    (hcb : s.cb ≤ cbSize)
    (hdest : s.dest ≤ destSize + 1)
    (hn : cbSize < s.cb + n) :
    ∃ ret s', decBlocks m cbSize destSize n s = some (ret, s') ∧ s'.Checked cbSize destSize := by
  induction n generalizing s with
  | zero => omega
  | succ n ih =>
    rw [decBlocks]
    by_cases hend : s.cb = cbSize
    · rw [if_pos hend]
      exact ⟨true, _, rfl, zeroTo_checked h (Nat.le_refl _)⟩
    rw [if_neg hend]
    have hnote : (s.note (.header s.cb)).Checked cbSize destSize :=
      h.note (header_inside_iff (by omega))
    generalize le16 m s.cb = header
    by_cases hdone : header = 0 ∨ (s.note (.header s.cb)).dest = destSize
    · rw [if_pos hdone]
      exact ⟨true, _, rfl, zeroTo_checked hnote (Nat.le_refl _)⟩
    rw [if_neg hdone]
    by_cases hroom : (s.note (.header s.cb)).dest + ntfsSbSize > destSize
    · rw [if_pos hroom]
      exact ⟨false, _, rfl, hnote⟩
    rw [if_neg hroom]
    by_cases hmin : (s.note (.header s.cb)).cb + 6 > cbSize
    · rw [if_pos hmin]
      exact ⟨false, _, rfl, hnote⟩
    rw [if_neg hmin]
    by_cases hblock : (s.note (.header s.cb)).cb + header % 4096 + 3 > cbSize
    · rw [if_pos hblock]
      exact ⟨false, _, rfl, hnote⟩
    rw [if_neg hblock]
    split
    · by_cases hsize : (s.note (.header s.cb)).cb + header % 4096 + 3 -
          ((s.note (.header s.cb)).cb + 2) ≠ ntfsSbSize
      · rw [if_pos hsize]
        exact ⟨false, _, rfl, hnote⟩
      rw [if_neg hsize]
      simp only [DecState.note, ntfsSbSize] at hroom hblock hsize
      apply ih
      · refine hnote.note (iff_of_true ⟨fun i hi => ?_, fun i hi => ?_⟩ trivial)
        · simp only [DecAccess.ReadsCb, DecState.note, ntfsSbSize] at hi
          omega
        · simp only [DecAccess.UsesDest, DecState.note, ntfsSbSize] at hi
          omega
      · simp only [DecState.raw, DecState.note, ntfsSbSize]
        omega
      · simp only [DecState.raw, DecState.note, ntfsSbSize]
        omega
      · simp only [DecState.raw, DecState.note]
        omega
    · simp only [DecState.note] at hroom hblock
      have hsub : InSubBlock cbSize destSize (s.cb + header % 4096 + 3) s.dest
          (s.dest + ntfsSbSize) { s.note (.header s.cb) with cb := s.cb + 2 } :=
        ⟨hnote, by omega, by omega, Nat.le_refl _, by dsimp only [DecState.note]; omega⟩
      obtain ⟨ret, s₁, hrun, hchecked, hret⟩ := decTags_checked hsub
        (show 0 < cbSize + 1 by omega) (by dsimp only; omega)
      simp only [DecState.note] at hrun ⊢
      rw [hrun]
      cases ret with
      | false => exact ⟨false, s₁, rfl, hchecked⟩
      | true =>
        obtain ⟨hcb₁, hdest₁⟩ := hret rfl
        exact ih hchecked (by omega) (by omega) (by omega)

/--
For every byte string and every destination size `ntfs_decompress` comes to an end, and
all its accesses stay inside the two buffers if and only if it meets no header and no
phrase token that begins with the last byte of the block, and no symbol token when the
destination is full.
-/
theorem decompress_inside_iff
    (m : Bytes)
    (cbSize : Nat)
    (dest : Bytes)
    (destSize : Nat) :
    ∃ ret s, ntfsDecompress m cbSize dest destSize = some (ret, s) ∧
      ((∀ a ∈ s.trace, a.Inside cbSize destSize) ↔
        ∀ a ∈ s.trace, a.OffEdge cbSize destSize) := by
  have hstart : (⟨0, 0, dest, []⟩ : DecState).Checked cbSize destSize := by
    intro a ha
    cases ha
  obtain ⟨ret, s, hrun, hchecked⟩ := @decBlocks_checked cbSize destSize m (cbSize + 1) _ hstart
    (Nat.zero_le _) (Nat.zero_le _) (by dsimp only; omega)
  exact ⟨ret, s, hrun, forall₂_congr hchecked⟩

/-- A symbol, a phrase that fills the destination, and one more symbol. -/
def overfullBlock : Bytes :=
  patch (fun _ => 0) 0 [0x04, 0xb0, 0x02, 0x41, 0xfc, 0x0f, 0x42]

/-- The symbol behind the phrase is stored behind the destination. -/
theorem decompress_overfull :
    ∃ s, ntfsDecompress overfullBlock 7 (fun _ => 0) 4096 = some (true, s) ∧
      DecAccess.symbol 6 4096 ∈ s.trace ∧
      ¬ (DecAccess.symbol 6 4096).Inside 7 4096 := by
  have hrun : (ntfsDecompress overfullBlock 7 (fun _ => 0) 4096).map
      (fun r => (r.1, r.2.trace)) = some (true,
        [.header 0, .tag 2, .symbol 3 0, .phrase 4, .back 0 1 4095, .symbol 6 4096]) := by
    decide +kernel
  obtain ⟨⟨ret, s⟩, hs, heq⟩ := Option.map_eq_some_iff.mp hrun
  obtain ⟨rfl, htrace⟩ := Prod.mk.inj heq
  refine ⟨s, hs, ?_, fun h => ?_⟩
  · rw [htrace]
    decide
  · exact absurd (h.2 4096 rfl) (by decide)

end Bounds

end NtfsPlus.Libntfs
