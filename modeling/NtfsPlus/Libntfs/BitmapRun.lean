import NtfsPlus.Lib.BitField

/-!
# Runs of bits in a bitmap attribute

`ntfs_bitmap_set_bits_in_run` of `libntfs/bitmap.c`, which `ntfs_bitmap_set_run` and
`ntfs_bitmap_clear_run` call.  A run is written through a buffer of at most 8192 bytes.
The first byte is read if the run begins inside it, and so is the last one if the run
ends inside it, which may be in the same buffer or in a later one.

The attribute is a file of bytes (`BitmapFile`): a read of one byte gives the byte or
fails, and a write that returns the requested length has stored these bytes and no
others.  A write that fails may leave anything.  `lastbyte_pos` is an `int`; a run is
`unsound` if it points in front of the buffer.  That both callers repeat the run in the
MFT bitmap of fsck, which is no part of the attribute, is left out.
-/

namespace NtfsPlus.Libntfs

section Model

/-- A bitmap attribute with states `σ`, as `ntfs_attr_pread` and `ntfs_attr_pwrite` see it. -/
structure BitmapFile (σ : Type) where
  bytes : σ → Bytes
  /-- Read one byte; `none` when the result is not 1. -/
  pread : σ → Nat → Option UInt8
  pread_bytes : ∀ {s pos b}, pread s pos = some b → bytes s pos = b
  /-- Write a buffer; `true` when the result is the length of the buffer. -/
  pwrite : σ → Nat → Nat → Bytes → σ × Bool
  pwrite_bytes : ∀ {s pos n buf s'}, pwrite s pos n buf = (s', true) →
    ∀ j, bytes s' j = if pos ≤ j ∧ j < pos + n then buf (j - pos) else bytes s j

/-- How a run of bits ends. -/
inductive RunOutcome (σ : Type) where
  | done (s : σ)
  | failed (s : σ)
  | unsound

/-- Set or clear one bit of a byte. -/
def putBit (b : UInt8) (k : Nat) (value : Bool) : UInt8 :=
  if value then b ||| (1 <<< UInt8.ofNat k) else b &&& ~~~(1 <<< UInt8.ofNat k)

/-- The byte of which every bit has the value. -/
def fillByte (value : Bool) : UInt8 :=
  if value then 0xff else 0

/-- `while ((bit & 7) && count--)`: the count and the first byte after it. -/
def setFirstBits (value : Bool) : Nat → Nat → Int → UInt8 → Int × UInt8
  | 0, _, count, b => (count, b)
  | n + 1, bit, count, b =>
    if bit % 8 = 0 then
      (count, b)
    else if count = 0 then
      (count - 1, b)
    else
      setFirstBits value n (bit + 1) (count - 1) (putBit b bit value)

/-- `while (bit && count--)`: the count and the last byte after it. -/
def setLastBits (value : Bool) : Nat → Int → UInt8 → Int × UInt8
  | 0, count, b => (count, b)
  | bit + 1, count, b =>
    if count = 0 then
      (count - 1, b)
    else
      setLastBits value bit (count - 1) (putBit b bit value)

/-- The variables of the loop over the buffers. -/
structure RunCursor where
  buf : Bytes
  bufsize : Nat
  firstbyte : Nat
  startBit : Nat
  count : Int
  bit : Nat

/-- What becomes of the last partial byte in one turn of the loop. -/
inductive LastByte where
  | handled (c : RunCursor)
  | notHere
  | error
  | unsound

variable {σ : Type}

/-- The part of the loop body that looks for the last partial byte. -/
def handleLastByte (F : BitmapFile σ) (s : σ) (value : Bool) (c : RunCursor) : LastByte :=
  if c.count > 0 ∧ c.bit ≠ 0 then
    let lastbytePos := Int.bmod ((c.count + 7) / 8 + c.firstbyte) (2 ^ 32)
    if lastbytePos = 0 then
      .error
    else if lastbytePos ≤ c.bufsize then
      if lastbytePos < 0 then
        .unsound
      else
        match F.pread s ((c.startBit + c.count) / 8).toNat with
        | none => .error
        | some b =>
          let r := setLastBits value c.bit c.count b
          .handled { c with
            buf := setByte c.buf (lastbytePos.toNat - 1) r.2
            count := r.1
            bit := 0 }
    else
      .notHere
  else
    .notHere

/-- Write the prepared buffer, and the counters after it. -/
def writeWindow (F : BitmapFile σ) (s : σ) (value : Bool) (lastbyte : Nat) (c : RunCursor) :
    Except σ (σ × RunCursor) :=
  match F.pwrite s (c.startBit / 8 - c.firstbyte) c.bufsize c.buf with
  | (s', false) => .error s'
  | (s', true) =>
    let tmp := (c.bufsize - c.firstbyte - lastbyte) * 8
    let count := c.count - tmp
    let next : RunCursor :=
      { buf := if c.firstbyte ≠ 0 then setByte c.buf 0 (fillByte value) else c.buf
        bufsize := min c.bufsize ((count + 7) / 8).toNat
        firstbyte := 0
        startBit := c.startBit + tmp
        count := count
        bit := c.bit }
    if lastbyte ≠ 0 ∧ count ≠ 0 then
      .error s'
    else
      .ok (s', next)

/-- The loop over the buffers.  The count falls in every turn but the last. -/
def runWindows (F : BitmapFile σ) (value : Bool) : Nat → σ → RunCursor → RunOutcome σ
  | 0, s, _ => .failed s
  | n + 1, s, c =>
    let turn (lastbyte : Nat) (c : RunCursor) : RunOutcome σ :=
      match writeWindow F s value lastbyte c with
      | .error s' => .failed s'
      | .ok (s', c') => if c'.count > 0 then runWindows F value n s' c' else .done s'
    match handleLastByte F s value c with
    | .error => .failed s
    | .unsound => .unsound
    | .notHere => turn 0 c
    | .handled c' => turn 1 c'

/-- `ntfs_bitmap_set_bits_in_run`. -/
def setBitsInRun (F : BitmapFile σ) (s : σ) (startBit count : Int) (value : Bool) : RunOutcome σ :=
  if startBit < 0 ∨ count < 0 then
    .failed s
  else
    let bit := (startBit % 8).toNat
    let firstbyte : Nat := if bit ≠ 0 then 1 else 0
    let bufsize :=
      min 8192 ((count - (if bit ≠ 0 then 8 - bit else 0) + 7) / 8 + firstbyte).toNat
    let buf : Bytes := fun _ => fillByte value
    let windows (buf : Bytes) (startBit : Nat) (count : Int) : RunOutcome σ :=
      runWindows F value (count.toNat + 1) s
        ⟨buf, bufsize, firstbyte, startBit, count, (count % 8).toNat⟩
    if bit ≠ 0 then
      match F.pread s (startBit / 8).toNat with
      | none => .failed s
      | some b =>
        let r := setFirstBits value 8 bit count b
        windows (setByte buf 0 r.2) ((startBit + 7) / 8 * 8).toNat r.1
    else
      windows buf startBit.toNat count

/-- `ntfs_bitmap_set_run`. -/
def bitmapSetRun (F : BitmapFile σ) (s : σ) (startBit count : Int) : RunOutcome σ :=
  setBitsInRun F s startBit count true

/-- `ntfs_bitmap_clear_run`. -/
def bitmapClearRun (F : BitmapFile σ) (s : σ) (startBit count : Int) : RunOutcome σ :=
  setBitsInRun F s startBit count false

end Model

section PartialBytes

theorem testBit_putBit
    (b : UInt8)
    (value : Bool)
    {k j : Nat}
    (hk : k < 8)
    (hj : j < 8) :
    (putBit b k value).toNat.testBit j = if j = k then value else b.toNat.testBit j := by
  cases value with
  | false => exact testBit_and_not b hk hj
  | true => exact testBit_or_one b hk j

theorem testBit_fillByte
    (value : Bool)
    {j : Nat}
    (hj : j < 8) :
    (fillByte value).toNat.testBit j = value := by
  cases value with
  | false => simp [fillByte]
  | true =>
    rw [fillByte, if_pos rfl, show (0xff : UInt8).toNat = 2 ^ 8 - 1 from rfl,
      Nat.testBit_two_pow_sub_one, decide_eq_true hj]

/-- The first byte: the bits of the run from `bit` on, and what is left to do. -/
theorem setFirstBits_spec
    (value : Bool)
    (n bit : Nat)
    (count : Int)
    (b : UInt8)
    (hn : 8 ≤ bit + n)
    (hbit : 0 < bit)
    (hbit8 : bit ≤ 8)
    (hcount : 0 ≤ count) :
    (setFirstBits value n bit count b).1 =
      (if count < 8 - (bit : Int) then -1 else count - (8 - bit)) ∧
    ∀ j < 8, (setFirstBits value n bit count b).2.toNat.testBit j =
      if bit ≤ j ∧ (j : Int) < bit + count then value else b.toNat.testBit j := by
  induction n generalizing bit count b with
  | zero =>
    have : bit = 8 := by omega
    subst this
    refine ⟨by rw [setFirstBits, if_neg (by omega)]; simp, fun j hj => ?_⟩
    rw [setFirstBits, if_neg (by omega)]
  | succ n ih =>
    rw [setFirstBits]
    by_cases hend : bit = 8
    · subst hend
      rw [if_pos (by decide)]
      refine ⟨by rw [if_neg (by omega)]; simp, fun j hj => ?_⟩
      rw [if_neg (by omega)]
    · rw [if_neg (by omega)]
      split
      · rename_i hzero
        refine ⟨by rw [if_pos (by omega), hzero]; rfl, fun j hj => ?_⟩
        rw [if_neg (by omega)]
      · obtain ⟨hleft, hbits⟩ := ih (bit + 1) (count - 1) (putBit b bit value)
          (by omega) (by omega) (by omega) (by omega)
        refine ⟨?_, fun j hj => ?_⟩
        · split_ifs <;> omega
        · rw [hbits j hj, testBit_putBit b value (by omega) hj]
          split_ifs <;> first | rfl | omega

/-- The low bits of the last byte get the value. -/
theorem setLastBits_spec
    (value : Bool)
    (bit : Nat)
    (count : Int)
    (b : UInt8)
    (hbit : bit ≤ 8)
    (hcount : (bit : Int) ≤ count) :
    (setLastBits value bit count b).1 = count - bit ∧
    ∀ j < 8, (setLastBits value bit count b).2.toNat.testBit j =
      if j < bit then value else b.toNat.testBit j := by
  induction bit generalizing count b with
  | zero =>
    refine ⟨by rw [setLastBits]; simp, fun j hj => ?_⟩
    rw [setLastBits, if_neg (by omega)]
  | succ bit ih =>
    rw [setLastBits, if_neg (by omega)]
    obtain ⟨hleft, hbits⟩ := ih (count - 1) (putBit b bit value) (by omega) (by omega)
    refine ⟨by rw [hleft]; push_cast; omega, fun j hj => ?_⟩
    rw [hbits j hj, testBit_putBit b value (by omega) hj]
    split_ifs <;> first | rfl | omega

end PartialBytes

section Runs

/-- The field of bits with one run of a value. -/
def runBits (m : Bytes) (first last : Nat) (value : Bool) (i : Nat) : Bool :=
  if first ≤ i ∧ i < last then value else bitAt m i

/-- What holds at the head of the loop over the buffers; `m` are the bytes before the call. -/
structure InRun (m : Bytes) (first last : Nat) (value : Bool) (now : Bytes) (c : RunCursor) :
    Prop where
  aligned : c.startBit % 8 = 0
  firstbyte : c.firstbyte = 0 ∧ first ≤ c.startBit ∨
    c.firstbyte = 1 ∧ first < c.startBit ∧ c.startBit < first + 8
  count : 0 ≤ c.count ∧ c.startBit + c.count = last ∨
    c.count = -1 ∧ c.firstbyte = 1 ∧ last ≤ c.startBit
  bit : c.bit = (c.count % 8).toNat
  bufsize : c.bufsize = min 8192 ((c.count + 7) / 8 + c.firstbyte).toNat
  buf : ∀ j < c.bufsize, ∀ k < 8, (c.buf j).toNat.testBit k =
    if j < c.firstbyte then runBits m first last value (c.startBit - 8 + k) else value
  written : ∀ i, bitAt now i =
    if i < c.startBit - 8 * c.firstbyte then runBits m first last value i else bitAt m i

variable {σ : Type}

/-- The bits that a write of whole bytes leaves. -/
theorem bitAt_pwrite
    (F : BitmapFile σ)
    {s s' : σ} {pos n : Nat} {buf : Bytes}
    (hwrite : F.pwrite s pos n buf = (s', true))
    {want : Nat → Bool}
    (hbuf : ∀ j < n, ∀ k < 8, (buf j).toNat.testBit k = want (8 * (pos + j) + k))
    (i : Nat) :
    bitAt (F.bytes s') i =
      if 8 * pos ≤ i ∧ i < 8 * (pos + n) then want i else bitAt (F.bytes s) i := by
  rw [bitAt, F.pwrite_bytes hwrite]
  split
  · rw [if_pos (by omega), hbuf _ (by omega) _ (by omega)]
    congr 1
    omega
  · rw [if_neg (by omega)]
    rfl

variable {m now : Bytes} {first last : Nat} {value : Bool} {c c' : RunCursor}
variable {startBit count : Int}

/-- The buffer takes all that is left or is full. -/
theorem InRun.bufsize_cases
    (h : InRun m first last value now c) :
    (c.bufsize : Int) = (c.count + 7) / 8 + c.firstbyte ∧ c.bufsize ≤ 8192 ∨
      c.bufsize = 8192 ∧ 8192 < (c.count + 7) / 8 + c.firstbyte := by
  have hsize := h.bufsize
  have hcount : -1 ≤ c.count := by
    rcases h.count with hc | hc
    · omega
    · omega
  omega

/-- After a buffer of the right bits the run is done up to the end of the buffer. -/
theorem InRun.pwrite
    {F : BitmapFile σ} {s s' : σ}
    (h : InRun m first last value (F.bytes s) c)
    {buf : Bytes}
    (hwrite : F.pwrite s (c.startBit / 8 - c.firstbyte) c.bufsize buf = (s', true))
    (hbuf : ∀ j < c.bufsize, ∀ k < 8, (buf j).toNat.testBit k =
      runBits m first last value (8 * (c.startBit / 8 - c.firstbyte + j) + k))
    (i : Nat) :
    bitAt (F.bytes s') i =
      if i < 8 * (c.startBit / 8 - c.firstbyte + c.bufsize) then
        runBits m first last value i
      else
        bitAt m i := by
  have haligned := h.aligned
  rw [bitAt_pwrite F hwrite hbuf, h.written]
  split_ifs <;> first | rfl | omega

/-- The buffer has the bits that the run wants. -/
theorem InRun.buf_inside
    (h : InRun m first last value now c)
    {j k : Nat}
    (hj : j < c.bufsize)
    (hk : k < 8)
    (hin : j < c.firstbyte ∨ c.startBit + 8 * (j + 1 - c.firstbyte) ≤ last) :
    (c.buf j).toNat.testBit k =
      runBits m first last value (8 * (c.startBit / 8 - c.firstbyte + j) + k) := by
  have haligned := h.aligned
  rw [h.buf j hj k hk]
  rcases h.firstbyte with ⟨hf, hfirst⟩ | ⟨hf, hfirst, hfirst'⟩
  · rw [if_neg (by omega), runBits, if_pos (by omega)]
  · rw [hf] at hin ⊢
    split_ifs
    · congr 1
      omega
    · rw [runBits, if_pos (by omega)]

/-- Once all bits are written the run is done. -/
theorem runBits_finished
    {stop : Nat}
    (hnow : ∀ i, bitAt now i = if i < stop then runBits m first last value i else bitAt m i)
    (hstop : last ≤ stop)
    (i : Nat) :
    bitAt now i = runBits m first last value i := by
  rw [hnow]
  split_ifs
  · rfl
  · rw [runBits, if_neg (by omega)]

/-- What one write does and what it leaves to do. -/
theorem writeWindow_ok
    {F : BitmapFile σ} {s s' : σ} {lastbyte : Nat}
    (h : writeWindow F s value lastbyte c = .ok (s', c')) :
    F.pwrite s (c.startBit / 8 - c.firstbyte) c.bufsize c.buf = (s', true) ∧
    (lastbyte = 0 ∨ c'.count = 0) ∧
    c'.count = c.count - ((c.bufsize - c.firstbyte - lastbyte) * 8 : Nat) ∧
    c'.bufsize = min c.bufsize ((c'.count + 7) / 8).toNat ∧
    c'.firstbyte = 0 ∧
    c'.startBit = c.startBit + (c.bufsize - c.firstbyte - lastbyte) * 8 ∧
    c'.bit = c.bit ∧
    c'.buf = if c.firstbyte ≠ 0 then setByte c.buf 0 (fillByte value) else c.buf := by
  rw [writeWindow] at h
  rcases hwrite : F.pwrite s (c.startBit / 8 - c.firstbyte) c.bufsize c.buf with ⟨t, full⟩
  rw [hwrite] at h
  cases full with
  | false => cases h
  | true =>
    dsimp only at h
    split at h
    · cases h
    · cases h
      refine ⟨rfl, ?_, rfl, rfl, rfl, rfl, rfl, rfl⟩
      dsimp only
      omega

/-- When the last byte is not in this window. -/
theorem handleLastByte_notHere
    {F : BitmapFile σ} {s : σ}
    (h : handleLastByte F s value c = .notHere) :
    c.count ≤ 0 ∨ c.bit = 0 ∨
      ¬ Int.bmod ((c.count + 7) / 8 + c.firstbyte) (2 ^ 32) ≤ c.bufsize := by
  rw [handleLastByte] at h
  by_cases hpart : c.count > 0 ∧ c.bit ≠ 0
  · right
    right
    intro hle
    dsimp only at h
    split_ifs at h
    cases hread : F.pread s ((c.startBit + c.count) / 8).toNat with
    | none =>
      rw [hread] at h
      cases h
    | some b =>
      rw [hread] at h
      cases h
  · omega

/-- In a buffer without the last partial byte every byte behind the first one is inside. -/
theorem InRun.inside_of_notHere
    {F : BitmapFile σ} {s : σ}
    (h : InRun m first last value now c)
    (hlast : handleLastByte F s value c = .notHere)
    (hmore : c.firstbyte < c.bufsize) :
    c.startBit + 8 * (c.bufsize - c.firstbyte) ≤ last := by
  have hbit := h.bit
  have hfar := handleLastByte_notHere hlast
  have hcount : 0 ≤ c.count ∧ c.startBit + c.count = last := by
    rcases h.count with hc | ⟨hc, hf, -⟩
    · exact hc
    · have := h.bufsize
      omega
  rcases h.bufsize_cases with ⟨hsize, hle⟩ | ⟨hsize, hgt⟩
  · rcases hfar with hzero | hzero | hfar
    · omega
    · omega
    · have hbmod : Int.bmod ((c.count + 7) / 8 + c.firstbyte) (2 ^ 32) =
          (c.count + 7) / 8 + c.firstbyte := by
        apply Int.bmod_eq_of_le <;> omega
      omega
  · omega

/-- A turn without the last partial byte: the run is done, or the loop goes on. -/
theorem InRun.turn_notHere
    {F : BitmapFile σ} {s s' : σ}
    (h : InRun m first last value (F.bytes s) c)
    (hlast : handleLastByte F s value c = .notHere)
    (hwrite : writeWindow F s value 0 c = .ok (s', c')) :
    (c'.count ≤ 0 → ∀ i, bitAt (F.bytes s') i = runBits m first last value i) ∧
    (0 < c'.count → c'.count < c.count ∧ InRun m first last value (F.bytes s') c') := by
  obtain ⟨hpwrite, -, hcount', hsize', hfirst', hstart', hbit', hbuf'⟩ := writeWindow_ok hwrite
  rw [Nat.sub_zero] at hcount' hstart'
  have hinside := h.inside_of_notHere hlast
  have hwritten := h.pwrite hpwrite (fun j hj k hk => h.buf_inside hj hk (by omega))
  have haligned := h.aligned
  have hstop : 8 * (c.startBit / 8 - c.firstbyte + c.bufsize) =
      c.startBit + 8 * (c.bufsize - c.firstbyte) := by
    have hsize := h.bufsize_cases
    rcases h.firstbyte with ⟨hf, -⟩ | ⟨hf, hfirst, -⟩
    · omega
    · rcases h.count with ⟨hc, -⟩ | ⟨hc, -, -⟩
      · omega
      · omega
  constructor
  · intro hdone
    apply runBits_finished hwritten
    rcases h.count with ⟨-, hend⟩ | ⟨-, -, hend⟩
    · omega
    · omega
  · intro hgo
    have hsize8192 : c.bufsize = 8192 := by
      rcases h.bufsize_cases with ⟨hsize, -⟩ | ⟨hsize, -⟩
      · omega
      · exact hsize
    have hf : c.firstbyte ≤ 1 := by rcases h.firstbyte with ⟨hf, -⟩ | ⟨hf, -⟩ <;> omega
    have hend : 0 ≤ c.count ∧ c.startBit + c.count = last := by
      rcases h.count with hc | ⟨hc, -⟩
      · exact hc
      · omega
    have hfirst : first ≤ c'.startBit := by
      rcases h.firstbyte with ⟨-, hfirst⟩ | ⟨-, hfirst, -⟩ <;> omega
    refine ⟨by omega, by omega, .inl ⟨hfirst', hfirst⟩, .inl ⟨by omega, by omega⟩, ?_, ?_, ?_, ?_⟩
    · rw [hbit', h.bit]
      omega
    · rw [hsize', hsize8192, hfirst']
      simp
    · intro j hj k hk
      rw [if_neg (by omega), hbuf']
      by_cases hf0 : c.firstbyte = 0
      · rw [if_neg (by omega), h.buf j (by omega) k hk, if_neg (by omega)]
      · rw [if_pos hf0]
        by_cases hj0 : j = 0
        · rw [hj0, setByte_same, testBit_fillByte value hk]
        · rw [setByte_of_ne _ _ hj0, h.buf j (by omega) k hk, if_neg (by omega)]
    · intro i
      rw [hwritten, hstop, hstart', hfirst', Nat.sub_zero, Nat.mul_comm 8]

/-- The last partial byte has been read and changed in the buffer. -/
theorem handleLastByte_handled
    {F : BitmapFile σ} {s : σ} {d : RunCursor}
    (h : handleLastByte F s value c = .handled d) :
    0 < c.count ∧ c.bit ≠ 0 ∧ ∃ b pos, pos = Int.bmod ((c.count + 7) / 8 + c.firstbyte) (2 ^ 32) ∧
      F.pread s ((c.startBit + c.count) / 8).toNat = some b ∧
      d = { c with
        buf := setByte c.buf (pos.toNat - 1) (setLastBits value c.bit c.count b).2
        count := (setLastBits value c.bit c.count b).1
        bit := 0 } := by
  rw [handleLastByte] at h
  by_cases hpart : c.count > 0 ∧ c.bit ≠ 0
  · dsimp only at h
    split_ifs at h
    cases hread : F.pread s ((c.startBit + c.count) / 8).toNat with
    | none =>
      rw [hread] at h
      cases h
    | some b =>
      rw [hread] at h
      cases h
      exact ⟨hpart.1, hpart.2, b, _, rfl, rfl, rfl⟩
  · rw [if_neg hpart] at h
    cases h

/-- A turn with the last byte finishes the run. -/
theorem InRun.turn_handled
    {F : BitmapFile σ} {s s' : σ} {d : RunCursor}
    (h : InRun m first last value (F.bytes s) c)
    (hlast : handleLastByte F s value c = .handled d)
    (hwrite : writeWindow F s value 1 d = .ok (s', c')) :
    c'.count = 0 ∧ ∀ i, bitAt (F.bytes s') i = runBits m first last value i := by
  obtain ⟨hpos, hbit0, b, pos, hbmod, hread, rfl⟩ := handleLastByte_handled hlast
  have hbit : (c.bit : Int) = c.count % 8 := by
    rw [h.bit]
    omega
  have hend : c.startBit + c.count = last := by
    rcases h.count with ⟨-, hc⟩ | ⟨hc, -⟩
    · exact hc
    · omega
  have haligned := h.aligned
  have hfirst : first ≤ c.startBit ∧ 8 * c.firstbyte ≤ c.startBit ∧ c.firstbyte ≤ 1 := by
    rcases h.firstbyte with ⟨hf, hfirst⟩ | ⟨hf, hfirst, -⟩
    · omega
    · omega
  obtain ⟨hleft, hbits⟩ := setLastBits_spec value c.bit c.count b (by omega) (by omega)
  obtain ⟨hpwrite, hdone, hcount', -⟩ := writeWindow_ok hwrite
  dsimp only at hpwrite hcount'
  have hdone' : c'.count = 0 := by
    rcases hdone with hzero | hzero
    · cases hzero
    · exact hzero
  -- so this is the last buffer, and the last byte is the last of the buffer
  have hlen : (c.bufsize : Int) = (c.count + 7) / 8 + c.firstbyte ∧ c.bufsize ≤ 8192 := by
    rcases h.bufsize_cases with hsize | ⟨hsize, hgt⟩
    · exact hsize
    · omega
  have hpos' : pos = c.bufsize := by
    rw [hbmod, hlen.1]
    apply Int.bmod_eq_of_le <;> omega
  rw [hpos', Int.toNat_natCast] at hpwrite
  refine ⟨hdone', ?_⟩
  apply runBits_finished (h.pwrite hpwrite ?_) (by omega)
  intro j hj k hk
  by_cases hlastj : j = c.bufsize - 1
  · subst hlastj
    have hbyte := F.pread_bytes hread
    have hplace : ((c.startBit + c.count) / 8).toNat =
        c.startBit / 8 - c.firstbyte + (c.bufsize - 1) := by omega
    rw [hplace] at hbyte
    generalize hp : c.startBit / 8 - c.firstbyte + (c.bufsize - 1) = p at hbyte hplace ⊢
    rw [setByte_same, hbits k hk, runBits]
    by_cases hkb : k < c.bit
    · rw [if_pos hkb, if_pos (by omega)]
    · have hnow := h.written (8 * p + k)
      rw [if_neg (by omega)] at hnow
      rw [if_neg hkb, if_neg (by omega), ← hbyte, ← hnow, bitAt, Nat.mul_add_div (by decide),
        Nat.div_eq_of_lt hk, Nat.add_zero, Nat.mul_add_mod, Nat.mod_eq_of_lt hk]
  · rw [setByte_of_ne _ _ hlastj]
    exact h.buf_inside hj hk (by omega)

/-- The loop leaves the bits that the run wants. -/
theorem runWindows_done
    {F : BitmapFile σ} {n : Nat} {s s' : σ}
    (h : InRun m first last value (F.bytes s) c)
    (hdone : runWindows F value n s c = .done s')
    (i : Nat) :
    bitAt (F.bytes s') i = runBits m first last value i := by
  induction n generalizing s c with
  | zero => cases hdone
  | succ n ih =>
    rw [runWindows] at hdone
    cases hlast : handleLastByte F s value c with
    | error =>
      rw [hlast] at hdone
      cases hdone
    | unsound =>
      rw [hlast] at hdone
      cases hdone
    | notHere =>
      rw [hlast] at hdone
      dsimp only at hdone
      cases hwrite : writeWindow F s value 0 c with
      | error t =>
        rw [hwrite] at hdone
        cases hdone
      | ok r =>
        rw [hwrite] at hdone
        dsimp only at hdone
        obtain ⟨hend, hgo⟩ := h.turn_notHere hlast hwrite
        split_ifs at hdone with hmore
        · exact ih (hgo hmore).2 hdone
        · cases hdone
          exact hend (by omega) i
    | handled d =>
      rw [hlast] at hdone
      dsimp only at hdone
      cases hwrite : writeWindow F s value 1 d with
      | error t =>
        rw [hwrite] at hdone
        cases hdone
      | ok r =>
        rw [hwrite] at hdone
        dsimp only at hdone
        obtain ⟨hzero, hend⟩ := h.turn_handled hlast hwrite
        rw [if_neg (by omega)] at hdone
        cases hdone
        exact hend i

/-- The variables with which the loop begins when the run begins with a byte. -/
def alignedCursor (value : Bool) (startBit count : Int) : RunCursor :=
  ⟨fun _ => fillByte value, min 8192 ((count + 7) / 8).toNat, 0, startBit.toNat, count,
    (count % 8).toNat⟩

/-- The start at a byte boundary. -/
theorem inRun_aligned
    (m : Bytes)
    (value : Bool)
    (hstart : 0 ≤ startBit)
    (hcount : 0 ≤ count)
    (hbit : startBit % 8 = 0) :
    InRun m startBit.toNat (startBit + count).toNat value m
      (alignedCursor value startBit count) := by
  rw [alignedCursor]
  constructor
  · dsimp only
    omega
  · dsimp only
    omega
  · dsimp only
    omega
  · rfl
  · simp
  · intro j _ k hk
    dsimp only
    rw [if_neg (by omega), testBit_fillByte value hk]
  · intro i
    dsimp only
    rw [runBits]
    split_ifs <;> first | rfl | omega

/-- The variables with which the loop begins when the run begins inside the byte `b`. -/
def partialCursor (value : Bool) (startBit count : Int) (b : UInt8) : RunCursor :=
  let bit := (startBit % 8).toNat
  let r := setFirstBits value 8 bit count b
  ⟨setByte (fun _ => fillByte value) 0 r.2,
    min 8192 ((count - (8 - bit : Nat) + 7) / 8 + 1).toNat, 1,
    ((startBit + 7) / 8 * 8).toNat, r.1, (r.1 % 8).toNat⟩

/-- The start inside a byte. -/
theorem inRun_partial
    (value : Bool)
    {b : UInt8}
    (hstart : 0 ≤ startBit)
    (hcount : 0 ≤ count)
    (hbit : startBit % 8 ≠ 0)
    (hbyte : m (startBit / 8).toNat = b) :
    InRun m startBit.toNat (startBit + count).toNat value m (partialCursor value startBit count b) ∧
    (partialCursor value startBit count b).count ≤ count := by
  obtain ⟨hleft, hbits⟩ := setFirstBits_spec value 8 (startBit % 8).toNat count b
    (by omega) (by omega) (by omega) hcount
  rw [partialCursor]
  refine ⟨?_, by dsimp only; rw [hleft]; split_ifs <;> omega⟩
  constructor
  · dsimp only
    omega
  · dsimp only
    omega
  · dsimp only
    rw [hleft]
    split_ifs <;> omega
  · rfl
  · dsimp only
    rw [hleft]
    split_ifs <;> omega
  · intro j _ k hk
    dsimp only
    by_cases hj0 : j = 0
    · rw [hj0, setByte_same, if_pos (by decide), hbits k hk, runBits]
      split
      · rw [if_pos (by omega)]
      · rw [if_neg (by omega), ← hbyte, bitAt]
        have hdiv : (((startBit + 7) / 8 * 8).toNat - 8 + k) / 8 = (startBit / 8).toNat := by omega
        have hmod : (((startBit + 7) / 8 * 8).toNat - 8 + k) % 8 = k := by omega
        rw [hdiv, hmod]
    · rw [setByte_of_ne _ _ hj0, if_neg (by omega), testBit_fillByte value hk]
  · intro i
    dsimp only
    rw [runBits]
    split_ifs <;> first | rfl | omega

/-- The first byte cannot be read, or the loop begins with its invariant. -/
theorem setBitsInRun_cases
    (F : BitmapFile σ)
    (s : σ)
    (value : Bool)
    (hstart : 0 ≤ startBit)
    (hcount : 0 ≤ count) :
    (F.pread s (startBit / 8).toNat = none ∧ setBitsInRun F s startBit count value = .failed s) ∨
    ∃ c, InRun (F.bytes s) startBit.toNat (startBit + count).toNat value (F.bytes s) c ∧
      c.count ≤ count ∧
      setBitsInRun F s startBit count value = runWindows F value (c.count.toNat + 1) s c := by
  rw [setBitsInRun, if_neg (by omega)]
  by_cases hbit : (startBit % 8).toNat = 0
  · right
    refine ⟨alignedCursor value startBit count,
      inRun_aligned (F.bytes s) value hstart hcount (by omega), Int.le_refl count, ?_⟩
    simp [alignedCursor, hbit]
  · cases hread : F.pread s (startBit / 8).toNat with
    | none =>
      left
      exact ⟨rfl, by rw [if_pos hbit]⟩
    | some b =>
      right
      obtain ⟨hin, hle⟩ := inRun_partial value hstart hcount (by omega) (F.pread_bytes hread)
      refine ⟨partialCursor value startBit count b, hin, hle, ?_⟩
      simp [partialCursor, hbit]

/-- A run that succeeds sets its bits and no others. -/
theorem setBitsInRun_done
    {F : BitmapFile σ} {s s' : σ}
    (hdone : setBitsInRun F s startBit count value = .done s')
    (i : Nat) :
    bitAt (F.bytes s') i =
      if startBit ≤ i ∧ (i : Int) < startBit + count then value else bitAt (F.bytes s) i := by
  by_cases hargs : startBit < 0 ∨ count < 0
  · rw [setBitsInRun, if_pos hargs] at hdone
    cases hdone
  · rcases setBitsInRun_cases F s value (by omega : 0 ≤ startBit) (by omega : 0 ≤ count) with
      ⟨-, hfail⟩ | ⟨c, hin, -, hrun⟩
    · rw [hfail] at hdone
      cases hdone
    · rw [hrun] at hdone
      rw [runWindows_done hin hdone, runBits]
      have hiff : (startBit.toNat ≤ i ∧ i < (startBit + count).toNat) ↔
          startBit ≤ i ∧ (i : Int) < startBit + count := by omega
      simp only [hiff]

/--
For every bitmap attribute, first bit and count: if `ntfs_bitmap_set_run` succeeds, the
bits of the run are set and all others are as before, and the same for
`ntfs_bitmap_clear_run` and cleared bits.
-/
theorem bitmapRun_exact
    (F : BitmapFile σ)
    (s s' : σ)
    (startBit count : Int) :
    (bitmapSetRun F s startBit count = .done s' → ∀ i : Nat, bitAt (F.bytes s') i =
        if startBit ≤ i ∧ (i : Int) < startBit + count then true else bitAt (F.bytes s) i) ∧
    (bitmapClearRun F s startBit count = .done s' → ∀ i : Nat, bitAt (F.bytes s') i =
        if startBit ≤ i ∧ (i : Int) < startBit + count then false else bitAt (F.bytes s) i) :=
  ⟨fun h i => setBitsInRun_done h i, fun h i => setBitsInRun_done h i⟩

end Runs

section Success

variable {σ : Type}

/-- Every read and every write succeeds. -/
structure BitmapFile.Reliable (F : BitmapFile σ) : Prop where
  pread : ∀ s pos, ∃ b, F.pread s pos = some b
  pwrite : ∀ s pos n buf, ∃ s', F.pwrite s pos n buf = (s', true)

variable {c : RunCursor} {m : Bytes} {first last : Nat} {value : Bool}

/-- A write succeeds on a device without errors. -/
theorem writeWindow_reliable
    {F : BitmapFile σ}
    (hF : F.Reliable)
    (s : σ)
    (value : Bool)
    {lastbyte : Nat}
    (hleft : lastbyte = 0 ∨ c.count = ((c.bufsize - c.firstbyte - lastbyte) * 8 : Nat)) :
    ∃ s' c', writeWindow F s value lastbyte c = .ok (s', c') := by
  obtain ⟨s', hwrite⟩ := hF.pwrite s (c.startBit / 8 - c.firstbyte) c.bufsize c.buf
  refine ⟨s', ?_⟩
  rw [writeWindow, hwrite]
  exact ⟨_, if_neg (by omega)⟩

/-- So does a turn. -/
theorem InRun.turn_reliable
    {F : BitmapFile σ} {now : Bytes}
    (h : InRun m first last value now c)
    (hF : F.Reliable)
    (hsmall : c.count < 2 ^ 33)
    (s : σ) :
    (handleLastByte F s value c = .notHere ∧ ∃ s' c', writeWindow F s value 0 c = .ok (s', c')) ∨
    ∃ d, handleLastByte F s value c = .handled d ∧
      ∃ s' c', writeWindow F s value 1 d = .ok (s', c') := by
  have hfirst := h.firstbyte
  have hbit := h.bit
  have hsize := h.bufsize
  by_cases hpart : c.count > 0 ∧ c.bit ≠ 0
  · have hbmod : Int.bmod ((c.count + 7) / 8 + c.firstbyte) (2 ^ 32) =
        (c.count + 7) / 8 + c.firstbyte := by
      apply Int.bmod_eq_of_le <;> omega
    by_cases hle : (c.count + 7) / 8 + c.firstbyte ≤ c.bufsize
    · right
      obtain ⟨b, hread⟩ := hF.pread s ((c.startBit + c.count) / 8).toNat
      obtain ⟨hleft, -⟩ := setLastBits_spec value c.bit c.count b (by omega) (by omega)
      refine ⟨{ c with
        buf := setByte c.buf (((c.count + 7) / 8 + c.firstbyte).toNat - 1)
          (setLastBits value c.bit c.count b).2
        count := (setLastBits value c.bit c.count b).1
        bit := 0 }, ?_, ?_⟩
      · rw [handleLastByte, if_pos hpart]
        rw [hbmod, if_neg (by omega), if_pos hle, if_neg (by omega), hread]
      · exact writeWindow_reliable hF s value (by dsimp only; omega)
    · left
      refine ⟨?_, writeWindow_reliable hF s value (.inl rfl)⟩
      rw [handleLastByte, if_pos hpart]
      rw [hbmod, if_neg (by omega), if_neg hle]
  · left
    exact ⟨by rw [handleLastByte, if_neg hpart], writeWindow_reliable hF s value (.inl rfl)⟩

/-- And the loop, for runs of less than 2^33 bits. -/
theorem runWindows_reliable
    {F : BitmapFile σ}
    (hF : F.Reliable)
    {n : Nat} {s : σ}
    (h : InRun m first last value (F.bytes s) c)
    (hsmall : c.count < 2 ^ 33)
    (hn : c.count.toNat < n) :
    ∃ s', runWindows F value n s c = .done s' := by
  induction n generalizing s c with
  | zero => omega
  | succ n ih =>
    rw [runWindows]
    rcases h.turn_reliable hF hsmall s with
      ⟨hlast, s', c', hwrite⟩ | ⟨d, hlast, s', c', hwrite⟩
    · obtain ⟨-, hgo⟩ := h.turn_notHere hlast hwrite
      rw [hlast]
      dsimp only
      rw [hwrite]
      dsimp only
      by_cases hmore : c'.count > 0
      · obtain ⟨hless, hnext⟩ := hgo hmore
        rw [if_pos hmore]
        exact ih hnext (by omega) (by omega)
      · exact ⟨s', by rw [if_neg hmore]⟩
    · obtain ⟨hzero, -⟩ := h.turn_handled hlast hwrite
      rw [hlast]
      dsimp only
      rw [hwrite]
      dsimp only
      exact ⟨s', by rw [if_neg (by omega)]⟩

/-- On a device without errors every such run succeeds. -/
theorem setBitsInRun_reliable
    {F : BitmapFile σ}
    (hF : F.Reliable)
    (s : σ)
    (value : Bool)
    {startBit count : Int}
    (hstart : 0 ≤ startBit)
    (hcount : 0 ≤ count)
    (hsmall : count < 2 ^ 33) :
    ∃ s', setBitsInRun F s startBit count value = .done s' := by
  rcases setBitsInRun_cases F s value hstart hcount with ⟨hread, -⟩ | ⟨c, hin, hle, hrun⟩
  · obtain ⟨b, hb⟩ := hF.pread s (startBit / 8).toNat
    rw [hread] at hb
    cases hb
  · rw [hrun]
    exact runWindows_reliable hF hin (by omega) (by omega)

/-- A file of bytes in memory. -/
def plainFile : BitmapFile Bytes where
  bytes := id
  pread := fun m pos => some (m pos)
  pread_bytes := fun h => Option.some.inj h
  pwrite := fun m pos n buf =>
    (fun j => if pos ≤ j ∧ j < pos + n then buf (j - pos) else m j, true)
  pwrite_bytes := fun h j => by
    cases h
    rfl

theorem plainFile_reliable : plainFile.Reliable :=
  ⟨fun m pos => ⟨m pos, rfl⟩, fun _ _ _ _ => ⟨_, rfl⟩⟩

/-- A run over three buffers that begins and ends inside a byte. -/
theorem bitmapRun_exact_three_buffers :
    ∃ m, bitmapSetRun plainFile (fun _ => 0) 13 140000 = .done m ∧
      bitAt m 140012 = true ∧ bitAt m 140013 = false := by
  obtain ⟨m, hdone⟩ := setBitsInRun_reliable plainFile_reliable (fun _ => 0) true
    (by decide : (0 : Int) ≤ 13) (by decide : (0 : Int) ≤ 140000) (by decide)
  have hbits := (bitmapRun_exact plainFile (fun _ => 0) m 13 140000).1 hdone
  exact ⟨m, hdone, hbits 140012, hbits 140013⟩

end Success

end NtfsPlus.Libntfs
