import NtfsPlus.Libntfs.Decompress

/-!
# Compression of a compression block

`ntfs_comp_set` of `libntfs/compress.c` compresses the sub-blocks of a compression block
one after the other into one output buffer.  A sub-block may grow while
`ntfs_compress_block` compresses it; this is noticed after at most 4099 bytes, and the
sub-block is stored as it is in 4098 bytes.  The output buffer has two bytes for the
header of each sub-block and two more, and this is just enough
(`compSet_writes_inside`).

The match finder with its hash chains is modelled as it is, although where the output
goes does not depend on which matches it finds.  Every store into the output buffer is
noted.  Allocation is taken to succeed.
-/

namespace NtfsPlus
namespace Libntfs

section MatchFinder

/-- `NICE_MATCH_LEN`. -/
def niceMatchLen : Nat := 18

/-- `MAX_SEARCH_DEPTH`. -/
def maxSearchDepth : Nat := 24

/-- `ntfs_hash` of the three bytes at `p`. -/
def ntfsHash (inbuf : Bytes) (p : Nat) : Nat :=
  let str := (inbuf p).toNat + (inbuf (p + 1)).toNat * 2 ^ 8 + (inbuf (p + 2)).toNat * 2 ^ 16
  str * 0x1E35A7BD % 2 ^ 32 / 2 ^ 18

/-- `struct COMPRESS_CONTEXT` without the input; -1 ends a hash chain. -/
structure CompressContext where
  size : Nat
  rel : Int
  mxsz : Nat
  head : Nat → Int
  prev : Nat → Int

/-- `while (best_len < max_len && best_matchptr[best_len] == strptr[best_len])`. -/
def extendMatch (inbuf : Bytes) (mat str maxLen : Nat) : Nat → Nat → Nat
  | 0, bestLen => bestLen
  | n + 1, bestLen =>
    if bestLen < maxLen ∧ inbuf (mat + bestLen) = inbuf (str + bestLen) then
      extendMatch inbuf mat str maxLen n (bestLen + 1)
    else
      bestLen

/-- The `do` loop that makes a match longer; `true` when `nice_len` is reached. -/
def growMatch (inbuf : Bytes) (mat str niceLen maxLen : Nat) : Nat → Nat → Nat × Bool
  | 0, bestLen => (bestLen, true)
  | n + 1, bestLen =>
    if bestLen + 1 ≥ niceLen then
      (extendMatch inbuf mat str maxLen maxLen (bestLen + 1), true)
    else if inbuf (mat + (bestLen + 1)) = inbuf (str + (bestLen + 1)) then
      growMatch inbuf mat str niceLen maxLen n (bestLen + 1)
    else
      (bestLen + 1, false)

/-- The bytes before `bestLen`, and the one at it, agree. -/
def matchesLonger (inbuf : Bytes) (mat str bestLen : Nat) : Bool :=
  inbuf (mat + bestLen) = inbuf (str + bestLen) &&
    inbuf (mat + (bestLen - 1)) = inbuf (str + (bestLen - 1)) &&
    inbuf mat = inbuf str &&
    (List.range (bestLen - 1)).all (fun len => len = 0 || inbuf (mat + len) = inbuf (str + len))

/-- The search of a hash chain: the length and the place of the best match. -/
def searchChain (inbuf : Bytes) (prev : Nat → Int) (str niceLen maxLen : Nat) :
    Nat → Int → Nat → Nat → Nat × Nat
  | 0, _, bestLen, best => (bestLen, best)
  | depth + 1, cur, bestLen, best =>
    if cur < 0 then
      (bestLen, best)
    else if matchesLonger inbuf cur.toNat str bestLen then
      let r := growMatch inbuf cur.toNat str niceLen maxLen maxLen bestLen
      if r.2 then
        (r.1, cur.toNat)
      else
        searchChain inbuf prev str niceLen maxLen depth (prev cur.toNat) r.1 cur.toNat
    else
      searchChain inbuf prev str niceLen maxLen depth (prev cur.toNat) bestLen best

/-- `ntfs_best_match`. -/
def bestMatch (inbuf : Bytes) (bufsize : Nat) (ctx : CompressContext) (i bestLen : Nat) :
    CompressContext :=
  let maxLen := min (bufsize - i) ctx.mxsz
  let niceLen := min niceMatchLen maxLen
  if maxLen < 4 then
    { ctx with size := bestLen, rel := 0 }
  else
    let hash := ntfsHash inbuf i
    let cur := ctx.head hash
    let prev := Function.update ctx.prev i cur
    let ctx := { ctx with prev := prev, head := Function.update ctx.head hash (i : Int) }
    if bestLen ≥ maxLen then
      { ctx with size := bestLen, rel := 0 }
    else
      let r := searchChain inbuf prev i niceLen maxLen maxSearchDepth cur bestLen i
      { ctx with size := r.1, rel := (r.2 : Int) - i }

/-- `ntfs_skip_position`. -/
def skipPosition (inbuf : Bytes) (bufsize : Nat) (ctx : CompressContext) (i : Nat) :
    CompressContext :=
  if bufsize - i < 4 then
    ctx
  else
    let hash := ntfsHash inbuf i
    { ctx with
      prev := Function.update ctx.prev i (ctx.head hash)
      head := Function.update ctx.head hash (i : Int) }

/-- `do { ntfs_skip_position(pctx, i); } while (++i != j);` for `n` positions. -/
def skipPositions (inbuf : Bytes) (bufsize : Nat) :
    Nat → Nat → CompressContext → CompressContext
  | 0, _, ctx => ctx
  | n + 1, i, ctx => skipPositions inbuf bufsize n (i + 1) (skipPosition inbuf bufsize ctx i)

end MatchFinder

section Blocks

/-- The output buffer, and the stores into it as first position and length. -/
structure OutBuf where
  bytes : Bytes
  writes : List (Nat × Nat)

def OutBuf.put (o : OutBuf) (pos : Nat) (b : UInt8) : OutBuf :=
  ⟨setByte o.bytes pos b, o.writes ++ [(pos, 1)]⟩

/-- `memcpy` or `memset`. -/
def OutBuf.copy (o : OutBuf) (pos len : Nat) (src : Nat → UInt8) : OutBuf :=
  ⟨fun j => if pos ≤ j ∧ j < pos + len then src (j - pos) else o.bytes j, o.writes ++ [(pos, len)]⟩

/-- The variables of `ntfs_compress_block`. -/
structure BlockVars where
  ctx : CompressContext
  i : Nat
  xout : Nat
  bp : Nat
  mxoff : Nat
  haveMatch : Bool
  tag : Nat
  ntag : Nat
  ptag : Nat
  out : OutBuf

/-- `while (mxoff < i)`: one bit more for the offset, one bit less for the length. -/
def adjustOffset (i : Nat) : Nat → BlockVars → BlockVars
  | 0, v => v
  | n + 1, v =>
    if v.mxoff < i then
      adjustOffset i n { v with
        bp := v.bp + 1
        mxoff := v.mxoff * 2
        ctx := { v.ctx with mxsz := (v.ctx.mxsz + 2) / 2 } }
    else
      v

/-- A literal. -/
def BlockVars.literal (inbuf : Bytes) (base : Nat) (haveMatch : Bool) (v : BlockVars) : BlockVars :=
  { v with
    out := v.out.put (base + v.xout) (inbuf v.i)
    xout := v.xout + 1
    i := v.i + 1
    haveMatch := haveMatch }

/-- The two bytes of a match of length `size` at `offs`, and its bit of the tag. -/
def BlockVars.storeMatch (base : Nat) (offs : Int) (bpCur size : Nat) (v : BlockVars) : BlockVars :=
  let q := (((-offs - 1) * 2 ^ (16 - bpCur) + (size - 3)) % 2 ^ 32).toNat
  { v with
    out := (v.out.put (base + v.xout) (UInt8.ofNat q)).put (base + v.xout + 1)
      (UInt8.ofNat (q / 256))
    xout := v.xout + 2
    tag := v.tag ||| 1 <<< (8 - v.ntag) }

/-- Store the tag if it is fully used. -/
def BlockVars.nextToken (base : Nat) (v : BlockVars) : BlockVars :=
  if v.ntag - 1 = 0 then
    { v with
      out := v.out.put (base + v.ptag) (UInt8.ofNat v.tag)
      ntag := 8
      ptag := v.xout
      xout := v.xout + 1
      tag := 0 }
  else
    { v with ntag := v.ntag - 1 }

/-- The longest match at the current position, if it is not known yet. -/
def BlockVars.findMatch (inbuf : Bytes) (bufsize : Nat) (v : BlockVars) : BlockVars :=
  if v.haveMatch then
    v
  else
    let v := adjustOffset v.i v.i v
    { v with ctx := bestMatch inbuf bufsize v.ctx v.i 2 }

/-- The longest match at the next position. -/
def BlockVars.lookAhead (inbuf : Bytes) (bufsize : Nat) (v : BlockVars) : BlockVars :=
  let w := adjustOffset (v.i + 1) 1 v
  { w with ctx := bestMatch inbuf bufsize w.ctx (w.i + 1) v.ctx.size }

/-- Output a literal or a match; `true` is the `break`. -/
def BlockVars.emit (inbuf : Bytes) (bufsize base : Nat) (v : BlockVars) : BlockVars × Bool :=
  if v.ctx.size ≥ 3 then
    let size := v.ctx.size
    let j := v.i + size
    let offs := v.ctx.rel
    if size ≥ niceMatchLen then
      let s := v.storeMatch base offs v.bp size
      if j = bufsize then
        ({ s with i := j, ntag := s.ntag - 1 }, true)
      else
        (BlockVars.nextToken base { s with
          ctx := skipPositions inbuf bufsize (size - 1) (v.i + 1) s.ctx
          i := j
          haveMatch := false }, false)
    else
      let w := v.lookAhead inbuf bufsize
      if w.i + 1 + w.ctx.size > j + 1 then
        ((w.literal inbuf base true).nextToken base, false)
      else
        let s := w.storeMatch base offs v.bp size
        (BlockVars.nextToken base { s with
          ctx := skipPositions inbuf bufsize (size - 2) (v.i + 2) s.ctx
          i := j
          haveMatch := false }, false)
  else
    ((v.literal inbuf base false).nextToken base, false)

/-- One turn of the loop of `ntfs_compress_block`. -/
def compressTurn (inbuf : Bytes) (bufsize base : Nat) (v : BlockVars) : BlockVars × Bool :=
  (v.findMatch inbuf bufsize).emit inbuf bufsize base

/-- The loop of `ntfs_compress_block`; every turn moves `i` on. -/
def compressTurns (inbuf : Bytes) (bufsize base : Nat) : Nat → BlockVars → BlockVars
  | 0, v => v
  | n + 1, v =>
    if v.i < bufsize ∧ v.xout < ntfsSbSize + 2 then
      let r := compressTurn inbuf bufsize base v
      if r.2 then r.1 else compressTurns inbuf bufsize base n r.1
    else
      v

/-- The variables with which `ntfs_compress_block` begins. -/
def compressStart (out : OutBuf) : BlockVars where
  ctx := ⟨0, 0, 2 ^ (16 - 4) + 2, fun _ => -1, fun _ => 0⟩
  i := 0
  xout := 3
  bp := 4
  mxoff := 2 ^ 4
  haveMatch := false
  tag := 0
  ntag := 8
  ptag := 2
  out := out

/-- `ntfs_compress_block` into the output buffer at `base`: the size, and the buffer. -/
def compressBlock (inbuf : Bytes) (bufsize base : Nat) (out : OutBuf) : Nat × OutBuf :=
  let v := compressTurns inbuf bufsize base bufsize (compressStart out)
  let xout := if v.ntag = 8 then v.xout - 1 else v.xout
  let o := if v.ntag = 8 then v.out else v.out.put (base + v.ptag) (UInt8.ofNat v.tag)
  if v.i ≥ bufsize ∧ xout < ntfsSbSize + 2 then
    (xout, (o.put base (UInt8.ofNat (xout - 3))).put (base + 1)
      (UInt8.ofNat (0xb0 + (xout - 3) / 256 % 16)))
  else
    let o := o.copy (base + 2) bufsize inbuf
    let o :=
      if bufsize < ntfsSbSize then
        o.copy (base + bufsize + 2) (ntfsSbSize - bufsize) (fun _ => 0)
      else
        o
    (ntfsSbSize + 2, (o.put base 0xff).put (base + 1) 0x3f)

end Blocks

section Sets

/-- A compressed attribute: `compression_block_size` is a power of two and, as the callers
check, not smaller than a sub-block. -/
structure CompressedAttr where
  clusterSizeBits : Nat
  compressionUnit : Nat
  large : 12 ≤ clusterSizeBits + compressionUnit

/-- `vol->cluster_size`. -/
def CompressedAttr.clsz (na : CompressedAttr) : Nat :=
  2 ^ na.clusterSizeBits

/-- `na->compression_block_size`. -/
def CompressedAttr.blockSize (na : CompressedAttr) : Nat :=
  2 ^ (na.clusterSizeBits + na.compressionUnit)

/-- The size of the output buffer. -/
def CompressedAttr.outSize (na : CompressedAttr) : Nat :=
  na.blockSize + 2 * (na.blockSize / ntfsSbSize) + 2

/-- The variables of `ntfs_comp_set`. -/
structure SetVars where
  compsz : Nat
  fail : Bool
  allzeroes : Bool
  out : OutBuf

/-- `!memcmp(pbuf, bytes, ...)`. -/
def sameBytes (m : Bytes) (pos : Nat) (l : List UInt8) : Bool :=
  bytesAt m pos l.length = l

/-- Whether a compressed sub-block of `sz` bytes holds zeroes only. -/
def isZeroBlock (m : Bytes) (pos sz : Nat) : Bool :=
  if sz = 4 then sameBytes m pos [0x01, 0xb0, 0x00, 0x00]
  else if sz = 5 then sameBytes m pos [0x02, 0xb0, 0x00, 0x00, 0x00]
  else if sz = 6 then sameBytes m pos [0x03, 0xb0, 0x02, 0x00]
  else false

/-- The body of the loop of `ntfs_comp_set` for the sub-block at `p`. -/
def compSetTurn (na : CompressedAttr) (inbuf : Bytes) (insz p : Nat) (v : SetVars) : SetVars :=
  let bsz := if p + ntfsSbSize < insz then ntfsSbSize else insz - p
  let r := compressBlock (fun j => inbuf (p + j)) bsz v.compsz v.out
  if v.compsz + r.1 + na.clsz + 2 > na.blockSize then
    { v with fail := true, out := r.2 }
  else
    { v with
      allzeroes := v.allzeroes && isZeroBlock r.2.bytes v.compsz r.1
      compsz := v.compsz + r.1
      out := r.2 }

/-- The loop of `ntfs_comp_set`, with `n` sub-blocks at most to come. -/
def compSetTurns (na : CompressedAttr) (inbuf : Bytes) (insz : Nat) :
    Nat → Nat → SetVars → SetVars
  | 0, _, v => v
  | n + 1, p, v =>
    if p < insz ∧ v.fail = false then
      compSetTurns na inbuf insz n (p + ntfsSbSize) (compSetTurn na inbuf insz p v)
    else
      v

/--
`ntfs_comp_set` of `insz` bytes: its result, and the output buffer.  `writeClusters` is
the result of `write_clusters` for the number of bytes it is to write.
-/
def compSet (na : CompressedAttr) (writeClusters : Nat → Int) (insz : Nat) (inbuf : Bytes) :
    Int × OutBuf :=
  let v := compSetTurns na inbuf insz (insz / ntfsSbSize + 1) 0 ⟨0, false, true, ⟨fun _ => 0, []⟩⟩
  if v.fail = false ∧ v.allzeroes = false then
    let compsz := v.compsz + 2
    let rounded := (compsz - 1 ||| na.clsz - 1) + 1
    let o := ((v.out.put v.compsz 0).put (v.compsz + 1) 0).copy compsz (rounded - compsz)
      (fun _ => 0)
    let written := writeClusters rounded
    (if written ≠ rounded then -2 else written, o)
  else if v.fail then
    (-1, v.out)
  else
    (0, v.out)

end Sets

section Bounds

/-- Every store lies in front of `limit`. -/
def OutBuf.Within (limit : Nat) (o : OutBuf) : Prop :=
  ∀ w ∈ o.writes, w.1 + w.2 ≤ limit

/-- Storing a byte below the limit stays below it. -/
theorem OutBuf.Within.put
    {limit : Nat} {o : OutBuf}
    (h : o.Within limit)
    {pos : Nat}
    (hpos : pos < limit)
    (b : UInt8) :
    (o.put pos b).Within limit := by
  intro w hw
  rcases List.mem_append.mp hw with hw | hw
  · exact h w hw
  · rw [List.mem_singleton.mp hw]
    exact hpos

/-- So does copying. -/
theorem OutBuf.Within.copy
    {limit : Nat} {o : OutBuf}
    (h : o.Within limit)
    {pos len : Nat}
    (hpos : pos + len ≤ limit)
    (src : Nat → UInt8) :
    (o.copy pos len src).Within limit := by
  intro w hw
  rcases List.mem_append.mp hw with hw | hw
  · exact h w hw
  · rw [List.mem_singleton.mp hw]
    exact hpos

/--
What holds at the head of the loop of `ntfs_compress_block`.  The place of a tag is
reserved when the tag begins, and may then lie behind the sub-block; it is not used
before the next turn.
-/
structure BlockRoom (limit : Nat) (v : BlockVars) : Prop where
  within : v.out.Within limit
  ntag : 0 < v.ntag ∧ v.ntag ≤ 8
  ptag : v.ptag < v.xout
  tagged : v.ntag = 8 ∨ v.ptag < ntfsSbSize + 2

/-- What of the variables the bounds depend on. -/
structure SameOutput (v w : BlockVars) : Prop where
  out : w.out = v.out
  xout : w.xout = v.xout
  ntag : w.ntag = v.ntag
  ptag : w.ptag = v.ptag
  i : w.i = v.i

/-- The search for a match stores nothing. -/
theorem adjustOffset_sameOutput
    (i n : Nat)
    (v : BlockVars) :
    SameOutput v (adjustOffset i n v) := by
  induction n generalizing v with
  | zero => exact ⟨rfl, rfl, rfl, rfl, rfl⟩
  | succ n ih =>
    rw [adjustOffset]
    split_ifs
    · obtain ⟨h1, h2, h3, h4, h5⟩ := ih { v with
        bp := v.bp + 1
        mxoff := v.mxoff * 2
        ctx := { v.ctx with mxsz := (v.ctx.mxsz + 2) / 2 } }
      exact ⟨h1, h2, h3, h4, h5⟩
    · exact ⟨rfl, rfl, rfl, rfl, rfl⟩

/-- A turn has written its literal or its match, and the tag is still to be counted. -/
structure TokenStored (limit : Nat) (v : BlockVars) : Prop where
  within : v.out.Within limit
  ntag : 0 < v.ntag ∧ v.ntag ≤ 8
  ptag : v.ptag < v.xout
  tagged : v.ptag < ntfsSbSize + 2

variable {limit base : Nat} {v w : BlockVars}

theorem BlockRoom.congr
    (h : BlockRoom limit v)
    (hs : SameOutput v w) :
    BlockRoom limit w := by
  obtain ⟨hout, hxout, hntag, hptag, -⟩ := hs
  exact ⟨hout ▸ h.within, hntag ▸ h.ntag, by rw [hptag, hxout]; exact h.ptag,
    by rw [hntag, hptag]; exact h.tagged⟩

variable (inbuf : Bytes) (bufsize : Nat)

theorem findMatch_sameOutput
    (v : BlockVars) :
    SameOutput v (v.findMatch inbuf bufsize) := by
  rw [BlockVars.findMatch]
  split_ifs
  · exact ⟨rfl, rfl, rfl, rfl, rfl⟩
  · obtain ⟨h1, h2, h3, h4, h5⟩ := adjustOffset_sameOutput v.i v.i v
    exact ⟨h1, h2, h3, h4, h5⟩

theorem lookAhead_sameOutput
    (v : BlockVars) :
    SameOutput v (v.lookAhead inbuf bufsize) := by
  obtain ⟨h1, h2, h3, h4, h5⟩ := adjustOffset_sameOutput (v.i + 1) 1 v
  exact ⟨h1, h2, h3, h4, h5⟩

/-- A literal fits into the block. -/
theorem BlockRoom.literal
    (hlimit : base + (ntfsSbSize + 3) ≤ limit)
    (h : BlockRoom limit v)
    (hroom : v.xout < ntfsSbSize + 2)
    (inbuf : Bytes)
    (haveMatch : Bool) :
    TokenStored limit (v.literal inbuf base haveMatch) := by
  have hptag := h.ptag
  refine ⟨h.within.put (by omega) _, h.ntag, ?_, ?_⟩
  · exact Nat.lt_succ_of_lt hptag
  · exact Nat.lt_trans hptag hroom

/-- A match fits into the block. -/
theorem BlockRoom.storeMatch
    (hlimit : base + (ntfsSbSize + 3) ≤ limit)
    (h : BlockRoom limit v)
    (hroom : v.xout < ntfsSbSize + 2)
    (offs : Int)
    (bpCur size : Nat) :
    TokenStored limit (v.storeMatch base offs bpCur size) := by
  have hptag := h.ptag
  refine ⟨(h.within.put (by omega) _).put (by omega) _, h.ntag, ?_, ?_⟩
  · exact Nat.lt_add_right 2 hptag
  · exact Nat.lt_trans hptag hroom

/-- So does the tag byte of the next tokens. -/
theorem TokenStored.nextToken
    (hlimit : base + (ntfsSbSize + 3) ≤ limit)
    (h : TokenStored limit v) :
    BlockRoom limit (v.nextToken base) := by
  have hntag := h.ntag
  have hptag := h.ptag
  have htagged := h.tagged
  rw [BlockVars.nextToken]
  split_ifs
  · exact ⟨h.within.put (by omega) _, by simp, Nat.lt_succ_self _, .inl rfl⟩
  · exact ⟨h.within, by dsimp only; omega, hptag, .inr htagged⟩

theorem nextToken_i
    (base : Nat)
    (v : BlockVars) :
    (v.nextToken base).i = v.i := by
  rw [BlockVars.nextToken]
  split_ifs <;> rfl

/-- What is left of the invariant when the loop has ended. -/
structure BlockEnd (limit : Nat) (v : BlockVars) : Prop where
  within : v.out.Within limit
  tagged : v.ntag = 8 ∨ v.ptag < ntfsSbSize + 2

/-- Where a turn ends: it has moved on in the input and kept to the room of the sub-block. -/
structure TurnEnd (limit bufsize : Nat) (v : BlockVars) (r : BlockVars × Bool) : Prop where
  moves : v.i < r.1.i
  stays : r.2 = false → BlockRoom limit r.1
  leaves : r.2 = true → BlockEnd limit r.1 ∧ r.1.i = bufsize

/-- What a turn emits fits. -/
theorem emit_turnEnd
    (hlimit : base + (ntfsSbSize + 3) ≤ limit)
    (h : BlockRoom limit v)
    (hroom : v.xout < ntfsSbSize + 2) :
    TurnEnd limit bufsize v (v.emit inbuf bufsize base) := by
  rw [BlockVars.emit]
  by_cases hmatch : v.ctx.size ≥ 3
  swap
  · rw [if_neg hmatch]
    refine ⟨?_, fun _ => (h.literal hlimit hroom inbuf false).nextToken hlimit,
      fun hret => by cases hret⟩
    rw [nextToken_i]
    exact Nat.lt_succ_self v.i
  rw [if_pos hmatch]
  by_cases hnice : v.ctx.size ≥ niceMatchLen
  · rw [if_pos hnice]
    have hstored := h.storeMatch hlimit hroom v.ctx.rel v.bp v.ctx.size
    split_ifs with hend
    · refine ⟨?_, fun hret => (by cases hret), fun _ => ⟨⟨hstored.within, ?_⟩, hend⟩⟩
      · dsimp only
        omega
      · exact .inr hstored.tagged
    · refine ⟨?_, fun _ => ?_, fun hret => by cases hret⟩
      · rw [nextToken_i]
        dsimp only
        omega
      · exact TokenStored.nextToken hlimit
          ⟨hstored.within, hstored.ntag, hstored.ptag, hstored.tagged⟩
  · rw [if_neg hnice]
    have hs := lookAhead_sameOutput inbuf bufsize v
    have h' := h.congr hs
    rw [← hs.xout] at hroom
    by_cases hlonger : (v.lookAhead inbuf bufsize).i + 1 + (v.lookAhead inbuf bufsize).ctx.size >
        v.i + v.ctx.size + 1
    · rw [if_pos hlonger]
      refine ⟨?_, fun _ => (h'.literal hlimit hroom inbuf true).nextToken hlimit,
        fun hret => by cases hret⟩
      rw [nextToken_i, BlockVars.literal, hs.i]
      exact Nat.lt_succ_self v.i
    · rw [if_neg hlonger]
      have hstored := h'.storeMatch hlimit hroom v.ctx.rel v.bp v.ctx.size
      refine ⟨?_, fun _ => ?_, fun hret => by cases hret⟩
      · rw [nextToken_i]
        dsimp only
        omega
      · exact TokenStored.nextToken hlimit
          ⟨hstored.within, hstored.ntag, hstored.ptag, hstored.tagged⟩

/-- One turn of the loop keeps to the buffer. -/
theorem compressTurn_turnEnd
    (hlimit : base + (ntfsSbSize + 3) ≤ limit)
    (h : BlockRoom limit v)
    (hroom : v.xout < ntfsSbSize + 2) :
    TurnEnd limit bufsize v (compressTurn inbuf bufsize base v) := by
  have hs := findMatch_sameOutput inbuf bufsize v
  rw [← hs.xout] at hroom
  have hend := emit_turnEnd inbuf bufsize hlimit (h.congr hs) hroom
  exact ⟨hs.i ▸ hend.moves, hend.stays, hend.leaves⟩

/-- The loop ends as the source does, and within the room of the sub-block. -/
theorem compressTurns_end
    (n : Nat)
    (hlimit : base + (ntfsSbSize + 3) ≤ limit)
    (h : BlockRoom limit v)
    (hn : bufsize ≤ v.i + n) :
    BlockEnd limit (compressTurns inbuf bufsize base n v) ∧
    ¬ ((compressTurns inbuf bufsize base n v).i < bufsize ∧
      (compressTurns inbuf bufsize base n v).xout < ntfsSbSize + 2) := by
  induction n generalizing v with
  | zero => exact ⟨⟨h.within, h.tagged⟩, fun hgo => by rw [compressTurns] at hgo; omega⟩
  | succ n ih =>
    rw [compressTurns]
    split_ifs with hgo
    · have hend := compressTurn_turnEnd inbuf bufsize hlimit h hgo.2
      dsimp only
      cases hret : (compressTurn inbuf bufsize base v).2 with
      | true =>
        obtain ⟨hlast, hi⟩ := hend.leaves hret
        rw [if_pos rfl]
        exact ⟨hlast, fun hlt => by omega⟩
      | false =>
        have hmoves := hend.moves
        exact ih (hend.stays hret) (by omega)
    · exact ⟨⟨h.within, h.tagged⟩, hgo⟩

/-- A sub-block takes at most 4098 bytes, and 4099 while it is compressed. -/
theorem compressBlock_spec
    {bufsize : Nat}
    (hsize : bufsize ≤ ntfsSbSize)
    (hlimit : base + (ntfsSbSize + 3) ≤ limit)
    {out : OutBuf}
    (h : out.Within limit) :
    (compressBlock inbuf bufsize base out).1 ≤ ntfsSbSize + 2 ∧
    (compressBlock inbuf bufsize base out).2.Within limit := by
  have hstart : BlockRoom limit (compressStart out) :=
    ⟨h, ⟨Nat.succ_pos 7, Nat.le_refl 8⟩, Nat.lt_succ_self 2, .inl rfl⟩
  obtain ⟨hend, -⟩ := compressTurns_end inbuf bufsize bufsize hlimit hstart (Nat.le_add_left _ _)
  rw [compressBlock]
  generalize compressTurns inbuf bufsize base bufsize (compressStart out) = v at hend
  have hout : (if v.ntag = 8 then v.out
      else v.out.put (base + v.ptag) (UInt8.ofNat v.tag)).Within limit := by
    split_ifs with hntag
    · exact hend.within
    · have hptag := hend.tagged.resolve_left hntag
      exact hend.within.put (by omega) _
  generalize (if v.ntag = 8 then v.out else v.out.put (base + v.ptag) (UInt8.ofNat v.tag)) = o
    at hout
  generalize (if v.ntag = 8 then v.xout - 1 else v.xout) = xout
  split
  · rename_i hcomp
    exact ⟨Nat.le_of_lt hcomp.2, (hout.put (by omega) _).put (by omega) _⟩
  · refine ⟨Nat.le_refl _, OutBuf.Within.put (OutBuf.Within.put ?_ (by omega) _) (by omega) _⟩
    split_ifs
    · exact (hout.copy (by omega) _).copy (by omega) _
    · exact hout.copy (by omega) _

end Bounds

section Result

variable {na : CompressedAttr}

theorem blockSize_eq
    (na : CompressedAttr) :
    na.blockSize = ntfsSbSize * (na.blockSize / ntfsSbSize) := by
  have hdvd : ntfsSbSize ∣ na.blockSize := by
    exact Nat.pow_dvd_pow 2 na.large
  exact (Nat.mul_div_cancel' hdvd).symm

/-- What holds at the head of the loop of `ntfs_comp_set` for the sub-block number `k`. -/
structure SetRoom (na : CompressedAttr) (k : Nat) (v : SetVars) : Prop where
  within : v.out.Within na.outSize
  compsz : v.compsz ≤ (ntfsSbSize + 2) * k
  checked : v.fail = false → v.allzeroes = true ∨ v.compsz + na.clsz + 2 ≤ na.blockSize

/-- One block of a compression set keeps to the buffer. -/
theorem compSetTurn_room
    (inbuf : Bytes)
    {insz k : Nat} {v : SetVars}
    (h : SetRoom na k v)
    (hinsz : insz ≤ na.blockSize)
    (hk : k * ntfsSbSize < insz) :
    SetRoom na (k + 1) (compSetTurn na inbuf insz (k * ntfsSbSize) v) := by
  have hcompsz := h.compsz
  have hblock := blockSize_eq na
  -- this sub-block and all before it at full length fit into the buffer
  have hfit : v.compsz + (ntfsSbSize + 3) ≤ na.outSize := by
    rw [CompressedAttr.outSize]
    simp only [ntfsSbSize] at *
    omega
  have hbsz : (if k * ntfsSbSize + ntfsSbSize < insz then ntfsSbSize
      else insz - k * ntfsSbSize) ≤ ntfsSbSize := by
    split_ifs <;> omega
  obtain ⟨hsz, hwithin⟩ := compressBlock_spec (fun j => inbuf (k * ntfsSbSize + j)) hbsz hfit
    h.within
  rw [compSetTurn]
  generalize compressBlock (fun j => inbuf (k * ntfsSbSize + j)) _ v.compsz v.out = r
    at hsz hwithin ⊢
  have hnext : (ntfsSbSize + 2) * (k + 1) = (ntfsSbSize + 2) * k + (ntfsSbSize + 2) :=
    Nat.mul_succ _ _
  split_ifs
  · exact ⟨hwithin, by dsimp only; omega, fun hfail => by cases hfail⟩
  · exact ⟨hwithin, by dsimp only; omega, fun _ => .inr (by dsimp only; omega)⟩

/-- The loop of `ntfs_comp_set` has gone through the input, or has given up. -/
theorem compSetTurns_room
    (inbuf : Bytes)
    {insz n k : Nat} {v : SetVars}
    (h : SetRoom na k v)
    (hinsz : insz ≤ na.blockSize)
    (hn : insz ≤ (k + n) * ntfsSbSize) :
    ∃ k', SetRoom na k' (compSetTurns na inbuf insz n (k * ntfsSbSize) v) ∧
      ((compSetTurns na inbuf insz n (k * ntfsSbSize) v).fail = true ∨
        insz ≤ k' * ntfsSbSize) := by
  induction n generalizing k v with
  | zero => exact ⟨k, h, .inr hn⟩
  | succ n ih =>
    rw [compSetTurns]
    split_ifs with hgo
    · rw [← Nat.succ_mul]
      exact ih (compSetTurn_room inbuf h hinsz hgo.1) (by rwa [Nat.succ_add_eq_add_succ])
    · refine ⟨k, h, ?_⟩
      cases hfail : v.fail with
      | true => exact .inl rfl
      | false => exact .inr (Nat.le_of_not_lt fun hlt => hgo ⟨hlt, hfail⟩)

theorem rounded_le
    (x k : Nat) :
    (x ||| 2 ^ k - 1) + 1 ≤ x + 2 ^ k := by
  have hpos : 0 < 2 ^ k := Nat.two_pow_pos k
  have hdiv : (x ||| 2 ^ k - 1) / 2 ^ k = x / 2 ^ k := by
    rw [Nat.or_div_two_pow, Nat.div_eq_of_lt (Nat.sub_lt hpos Nat.one_pos), Nat.or_zero]
  have hlt := Nat.lt_mul_div_succ (x ||| 2 ^ k - 1) hpos
  have hle := Nat.mul_div_le x (2 ^ k)
  rw [hdiv, Nat.mul_succ] at hlt
  omega

/--
For every input that fits into a compression block, every byte that `ntfs_comp_set` stores
lies inside its output buffer: the sub-blocks while they are compressed, those that are
stored as they are, the final zero header and the padding up to a whole cluster.
-/
theorem compSet_writes_inside
    (na : CompressedAttr)
    (writeClusters : Nat → Int)
    {insz : Nat}
    (hinsz : insz ≤ na.blockSize)
    (inbuf : Bytes) :
    ∀ w ∈ (compSet na writeClusters insz inbuf).2.writes, w.1 + w.2 ≤ na.outSize := by
  have hstart : SetRoom na 0 ⟨0, false, true, ⟨fun _ => 0, []⟩⟩ :=
    ⟨fun w hw => (by cases hw), Nat.zero_le _, fun _ => .inl rfl⟩
  have hturns : insz ≤ (0 + (insz / ntfsSbSize + 1)) * ntfsSbSize := by
    simp only [ntfsSbSize]
    omega
  obtain ⟨k, hroom, -⟩ := compSetTurns_room inbuf hstart hinsz hturns
  rw [Nat.zero_mul] at hroom
  rw [compSet]
  generalize compSetTurns na inbuf insz (insz / ntfsSbSize + 1) 0
    ⟨0, false, true, ⟨fun _ => 0, []⟩⟩ = v at hroom
  by_cases hwrite : v.fail = false ∧ v.allzeroes = false
  · rw [if_pos hwrite]
    have hchecked : v.compsz + na.clsz + 2 ≤ na.blockSize := by
      rcases hroom.checked hwrite.1 with hzero | hchecked
      · rw [hwrite.2] at hzero
        cases hzero
      · exact hchecked
    have hround := rounded_le (v.compsz + 2 - 1) na.clusterSizeBits
    have hpos := Nat.two_pow_pos na.clusterSizeBits
    have hout : na.blockSize + 2 ≤ na.outSize := by
      rw [CompressedAttr.outSize]
      omega
    rw [CompressedAttr.clsz] at hchecked ⊢
    refine OutBuf.Within.copy (OutBuf.Within.put (hroom.within.put ?_ _) ?_ _) ?_ _
    · omega
    · omega
    · omega
  · split_ifs
    · exact hroom.within
    · exact hroom.within

/-- Two sub-blocks and clusters of 512 bytes. -/
theorem compSet_writes_inside_two :
    let na : CompressedAttr := ⟨9, 4, by decide⟩
    8192 ≤ na.blockSize ∧
      ∀ w ∈ (compSet na (fun n => n) 8192 (fun j => UInt8.ofNat (j * j))).2.writes,
        w.1 + w.2 ≤ 8198 := by
  intro na
  have hinsz : 8192 ≤ na.blockSize := by decide
  have hout : na.outSize = 8198 := by decide
  refine ⟨hinsz, fun w hw => ?_⟩
  have hw' := compSet_writes_inside na _ hinsz _ w hw
  rwa [hout] at hw'

end Result

end Libntfs

end NtfsPlus
