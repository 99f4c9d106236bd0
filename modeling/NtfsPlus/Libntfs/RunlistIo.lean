import NtfsPlus.Lib.ClusterFile
import NtfsPlus.Libntfs.RunlistMergeJoin

/-!
# Reading and writing along a runlist on a device that may stop short

`ntfs_pread` and `ntfs_pwrite` of `libntfs/device.c`, and `ntfs_rl_pread` and
`ntfs_rl_pwrite` of `libntfs/runlist.c` over them.  The device is given by its
answers, one for each call: the bytes it moved, none at the end of the device, or
an error.  After the last answer of the list every call is answered in full.

`ntfs_pread` calls the device again until all is moved, so a transfer of a run is
cut short only by the end of the device or an error in the middle.  The loop over
the runs goes on with the next run then, as if the whole run had been moved.
`rlPread_rlPwrite_positions` is the main result: as long as nothing is moved
after a transfer that was cut short, the bytes that are reported belong to the
positions that the runlist maps.
-/

namespace NtfsPlus.Libntfs

open ClusterFile

section Device

/-- The error numbers of a transfer. -/
inductive DevErrno where
  | einval
  | eio
  | eintr
  | erofs
  | other
deriving DecidableEq, Repr

/-- What the device answers to one call. -/
inductive Answer where
  /-- The bytes that it moved, if it was asked for that many; none at the end. -/
  | moved (n : Nat)
  | failed (e : DevErrno)
deriving DecidableEq, Repr

/-- The state of a transfer. -/
structure Io where
  answers : List Answer
  /-- For each write that is synced whether `dops->sync` fails. -/
  syncs : List Bool
  /-- What is written to: the buffer of a read, the device of a write. -/
  mem : Int → UInt8

/-- The loops of `ntfs_pread` and `ntfs_pwrite`, from `source` to the memory. -/
def moveLoop (source : Int → UInt8) (sourcePos memPos : Int) :
    List Answer → Int → Int → (Int → UInt8) → Except DevErrno Int × List Answer × (Int → UInt8)
  | [], count, total, mem =>
    (.ok (total + count), [],
      overwrite mem (memPos + total) count fun i => source (sourcePos + total + i))
  | a :: rest, count, total, mem =>
    if count = 0 then
      (.ok total, a :: rest, mem)
    else
      match a with
      | .moved n =>
        let br := min (n : Int) count
        if br = 0 then
          (.ok total, rest, mem)
        else
          moveLoop source sourcePos memPos rest (count - br) (total + br)
            (overwrite mem (memPos + total) br fun i => source (sourcePos + total + i))
      | .failed e => if total = 0 then (.error e, rest, mem) else (.ok total, rest, mem)

/-- `ntfs_pread`, into the buffer at `bufPos`. -/
def ntfsPread (dev : Int → UInt8) (pos count bufPos : Int) (io : Io) : Except DevErrno Int × Io :=
  if count < 0 ∨ pos < 0 then
    (.error .einval, io)
  else if count = 0 then
    (.ok 0, io)
  else
    match moveLoop dev pos bufPos io.answers count 0 io.mem with
    | (r, answers, mem) => (r, { io with answers := answers, mem := mem })

/-- Take the answer to one `dops->sync`: whether it fails. -/
def takeSync (io : Io) : Bool × Io :=
  match io.syncs with
  | [] => (false, io)
  | s :: rest => (s, { io with syncs := rest })

/-- `ntfs_pwrite`, from the buffer at `bufPos`. -/
def ntfsPwrite (devReadOnly : Bool) (b : Int → UInt8) (pos count bufPos : Int) (io : Io) :
    Except DevErrno Int × Io :=
  if count < 0 ∨ pos < 0 then
    (.error .einval, io)
  else if count = 0 then
    (.ok 0, io)
  else if devReadOnly then
    (.error .erofs, io)
  else
    match moveLoop b bufPos pos io.answers count 0 io.mem with
    | (r, answers, mem) =>
      let io := { io with answers := answers, mem := mem }
      match r with
      | .ok total =>
        if total = 0 then
          (.ok 0, io)
        else
          -- on a sync error one byte less is reported
          match takeSync io with
          | (failed, io) => (.ok (if failed then total - 1 else total), io)
      | .error e =>
        -- the -1 of the error becomes -2 when the sync fails, too
        match takeSync io with
        | (failed, io) => (.error (if failed then .eio else e), io)

/-- The `retry` label: call again as long as the call is interrupted. -/
def retryInterrupted (call : Io → Except DevErrno Int × Io) :
    Nat → Io → Except DevErrno Int × Io
  | 0, io => call io
  | k + 1, io =>
    match call io with
    | (.error .eintr, io') => retryInterrupted call k io'
    | r => r

end Device

section Runs

variable (cs : Int)
variable (hole : Int → Int → Io → Io)
variable (move : Int → Int → Int → Io → Except DevErrno Int × Io)

/-- The transfer of one run; each retry uses up one answer of the device. -/
def moveRun (start total n : Int) (io : Io) : Except DevErrno Int × Io :=
  retryInterrupted (move start total n) io.answers.length io

/--
The loops of `ntfs_rl_pread` and `ntfs_rl_pwrite`: the error that ended it, if
any, and how many bytes have been counted.
-/
def transferRuns :
    Runlist → Int → Int → Int → Io → Option DevErrno × Int × Io
  | [], _, count, total, io => (if count = 0 then none else some .eio, total, io)
  | e :: rest, ofs, count, total, io =>
    if count = 0 then
      (none, total, io)
    else if e.length = 0 then
      (some .eio, total, io)
    else
      let n := min count (e.length * cs - ofs)
      if e.lcn < 0 then
        if e.lcn ≠ lcnHole then
          (some .eio, total, io)
        else
          transferRuns rest 0 (count - n) (total + n) (hole total n io)
      else
        match moveRun move (e.lcn * cs + ofs) total n io with
        | (.ok m, io) =>
          if 0 < m then
            transferRuns rest 0 (count - m) (total + m) io
          else
            (some .eio, total, io)
        | (.error err, io) => (some err, total, io)

/-- What is returned: the bytes counted, or an error if there are none. -/
def transferResult : Option DevErrno × Int × Io → Except DevErrno Int × Io
  | (none, total, io) => (.ok total, io)
  | (some err, total, io) => (if total = 0 then .error err else .ok total, io)

/-- The loop ends at once: it is done, nothing is mapped here, or nothing is moved. -/
def EndsHere : Runlist → Int → Int → Io → Prop
  | [], _, _, _ => True
  | e :: _, count, total, io =>
    count = 0 ∨ e.length = 0 ∨ (e.lcn < 0 ∧ e.lcn ≠ lcnHole) ∨ (0 ≤ e.lcn ∧ ∀ m io',
        moveRun move (e.lcn * cs) total (min count (e.length * cs)) io = (.ok m, io') → m ≤ 0)

/-- No run is moved after a transfer that was cut short. -/
def Unbroken : Runlist → Int → Int → Int → Io → Prop
  | [], _, _, _, _ => True
  | e :: rest, ofs, count, total, io =>
    let n := min count (e.length * cs - ofs)
    if count = 0 ∨ e.length = 0 ∨ (e.lcn < 0 ∧ e.lcn ≠ lcnHole) then
      True
    else if e.lcn < 0 then
      Unbroken rest 0 (count - n) (total + n) (hole total n io)
    else
      match moveRun move (e.lcn * cs + ofs) total n io with
      | (.ok m, io) =>
        if m = n then
          Unbroken rest 0 (count - m) (total + m) io
        else
          0 < m → EndsHere cs move rest (count - m) (total + m) io
      | (.error _, _) => True

end Runs

section Functions

/-- Seek to the run that contains `pos`; `ofs` is where the first run begins. -/
def seekByte (cs pos : Int) : Runlist → Int → Runlist × Int
  | [], ofs => ([], ofs)
  | e :: rest, ofs =>
    if e.length ≠ 0 ∧ ofs + e.length * cs ≤ pos then
      seekByte cs pos rest (ofs + e.length * cs)
    else
      (e :: rest, ofs)

/-- A hole is read as zeroes. -/
def readHole (total n : Int) (io : Io) : Io :=
  { io with mem := overwrite io.mem total n fun _ => 0 }

/-- A part of a run is read into the buffer. -/
def readRun (dev : Int → UInt8) (start total n : Int) (io : Io) : Except DevErrno Int × Io :=
  ntfsPread dev start n total io

/-- `ntfs_rl_pread`; `io.mem` is the buffer. -/
def rlPread (cs : Int) (dev : Int → UInt8) (rl : Runlist) (pos count : Int) (io : Io) :
    Except DevErrno Int × Io :=
  if pos < 0 ∨ count < 0 then
    (.error .einval, io)
  else if count = 0 then
    (.ok count, io)
  else
    let found := seekByte cs pos rl 0
    transferResult
      (transferRuns cs readHole (readRun dev) found.1 (pos - found.2) count 0 io)

/-- What is written to a hole is left out. -/
def writeHole (_total _n : Int) (io : Io) : Io :=
  io

/-- A part of a run is written from the buffer, unless the volume is read-only. -/
def writeRun (volReadOnly devReadOnly : Bool) (b : Int → UInt8) (start total n : Int)
    (io : Io) : Except DevErrno Int × Io :=
  if volReadOnly then (.ok n, io) else ntfsPwrite devReadOnly b start n total io

/-- `ntfs_rl_pwrite`; `io.mem` is the device. -/
def rlPwriteDev (cs : Int) (volReadOnly devReadOnly : Bool) (b : Int → UInt8)
    (rl : Runlist) (ofs pos count : Int) (io : Io) :
    Except DevErrno Int × Io :=
  if pos < 0 ∨ count < 0 then
    (.error .einval, io)
  else if count = 0 then
    (.ok 0, io)
  else
    let found := seekByte cs pos rl ofs
    transferResult
      (transferRuns cs writeHole (writeRun volReadOnly devReadOnly b) found.1
        (pos - found.2) count 0 io)

/-- The bytes a call reports. -/
def reported : Except DevErrno Int → Int
  | .ok n => n
  | .error _ => 0

end Functions

section Moving

variable {count pos bufPos : Int} {io io' : Io} {r : Except DevErrno Int}

/-- The bytes that are counted have been moved in order, and no others. -/
theorem moveLoop_spec
    (source : Int → UInt8)
    (sourcePos memPos : Int)
    (answers : List Answer)
    {total : Int}
    (mem : Int → UInt8)
    (hcount : 0 ≤ count)
    (htotal : 0 ≤ total) :
    match moveLoop source sourcePos memPos answers count total mem with
    | (.ok m, _, mem') => total ≤ m ∧ m ≤ total + count ∧
        mem' = overwrite mem (memPos + total) (m - total) fun i => source (sourcePos + total + i)
    | (.error _, _, mem') => total = 0 ∧ mem' = mem := by
  induction answers generalizing count total mem with
  | nil =>
    refine ⟨by omega, le_rfl, ?_⟩
    rw [add_sub_cancel_left]
  | cons a rest ih =>
    have hsame : mem = overwrite mem (memPos + total) (total - total)
        fun i => source (sourcePos + total + i) :=
      (overwrite_empty _ _ (by omega)).symm
    cases a with
    | failed e =>
      rw [moveLoop]
      by_cases hzero : count = 0
      · rw [if_pos hzero]
        exact ⟨le_rfl, by omega, hsame⟩
      · rw [if_neg hzero]
        split_ifs with hnone
        · exact ⟨hnone, rfl⟩
        · exact ⟨le_rfl, by omega, hsame⟩
    | moved n =>
      rw [moveLoop]
      obtain ⟨br, hbr⟩ : ∃ br, min (n : Int) count = br := ⟨_, rfl⟩
      rw [hbr]
      split_ifs
      · exact ⟨le_rfl, by omega, hsame⟩
      · by_cases hnone : br = 0
        · rw [if_pos hnone]
          exact ⟨le_rfl, by omega, hsame⟩
        · rw [if_neg hnone]
          have hrest := ih (overwrite mem (memPos + total) br
            fun i => source (sourcePos + total + i))
            (show 0 ≤ count - br by omega) (show 0 ≤ total + br by omega)
          revert hrest
          rcases moveLoop source sourcePos memPos rest (count - br) (total + br)
            (overwrite mem (memPos + total) br
              fun i => source (sourcePos + total + i)) with ⟨_ | m, _, mem'⟩
          · omega
          · rintro ⟨hlo, hhi, rfl⟩
            refine ⟨by omega, by omega, ?_⟩
            rw [← add_assoc, overwrite_append _ _ _ (by omega) (by omega)]
            · congr 1
              omega
            · intro i _ _
              congr 1
              omega

theorem ntfsPread_spec
    (dev : Int → UInt8)
    (pos : Int)
    (bufPos : Int)
    (io : Io)
    (hcount : 0 < count) :
    match ntfsPread dev pos count bufPos io with
    | (.ok m, io') => 0 ≤ m ∧ m ≤ count ∧ io'.syncs = io.syncs ∧
        io'.mem = overwrite io.mem bufPos m fun i => dev (pos + i)
    | (.error _, io') => io'.syncs = io.syncs ∧ io'.mem = io.mem := by
  unfold ntfsPread
  by_cases hbad : count < 0 ∨ pos < 0
  · rw [if_pos hbad]
    exact ⟨rfl, rfl⟩
  · rw [if_neg hbad, if_neg (by omega)]
    have hmove := moveLoop_spec dev pos bufPos io.answers io.mem hcount.le le_rfl
    revert hmove
    rcases moveLoop dev pos bufPos io.answers count 0 io.mem with ⟨e | m, answers, mem⟩
    · rintro ⟨-, rfl⟩
      exact ⟨rfl, rfl⟩
    · rintro ⟨hlo, hhi, rfl⟩
      simp only [add_zero, sub_zero]
      exact ⟨hlo, by omega, trivial, trivial⟩

theorem takeSync_spec
    (io : Io)
    (h : ∀ s ∈ io.syncs, s = false) :
    (takeSync io).1 = false ∧ (∀ s ∈ (takeSync io).2.syncs, s = false) ∧
      (takeSync io).2.mem = io.mem := by
  unfold takeSync
  cases hs : io.syncs with
  | nil =>
    exact ⟨rfl, h, rfl⟩
  | cons s rest =>
    rw [hs] at h
    exact ⟨h s (by simp), fun s' hs' => h s' (by simp [hs']), rfl⟩

/-- Where no sync fails, `ntfs_pwrite` has stored what it counts. -/
theorem ntfsPwrite_spec
    (devReadOnly : Bool)
    (b : Int → UInt8)
    (pos : Int)
    (bufPos : Int)
    (hcount : 0 < count)
    (hsync : ∀ s ∈ io.syncs, s = false) :
    match ntfsPwrite devReadOnly b pos count bufPos io with
    | (.ok m, io') => 0 ≤ m ∧ m ≤ count ∧ (∀ s ∈ io'.syncs, s = false) ∧
        io'.mem = overwrite io.mem pos m fun i => b (bufPos + i)
    | (.error _, io') => (∀ s ∈ io'.syncs, s = false) ∧ io'.mem = io.mem := by
  unfold ntfsPwrite
  by_cases hbad : count < 0 ∨ pos < 0
  · rw [if_pos hbad]
    exact ⟨hsync, rfl⟩
  · rw [if_neg hbad, if_neg (by omega)]
    split_ifs
    · exact ⟨hsync, rfl⟩
    · have hmove := moveLoop_spec b bufPos pos io.answers io.mem hcount.le le_rfl
      revert hmove
      rcases moveLoop b bufPos pos io.answers count 0 io.mem with ⟨e | m, answers, mem⟩
      · rintro ⟨-, rfl⟩
        have htake := takeSync_spec ⟨answers, io.syncs, io.mem⟩ hsync
        dsimp only
        rcases hio : takeSync ⟨answers, io.syncs, io.mem⟩ with ⟨failed, io'⟩
        rw [hio] at htake
        exact ⟨htake.2.1, htake.2.2⟩
      · rintro ⟨hlo, hhi, rfl⟩
        simp only [add_zero, sub_zero]
        by_cases hzero : m = 0
        · rw [hzero, overwrite_empty _ _ le_rfl]
          exact ⟨le_rfl, hcount.le, hsync, (overwrite_empty _ _ le_rfl).symm⟩
        · rw [if_neg hzero]
          have htake := takeSync_spec
            ⟨answers, io.syncs, overwrite io.mem pos m fun i => b (bufPos + i)⟩ hsync
          rcases hio : takeSync ⟨answers, io.syncs,
            overwrite io.mem pos m fun i => b (bufPos + i)⟩ with ⟨failed, io'⟩
          rw [hio] at htake
          obtain ⟨rfl, hsync', hmem⟩ := htake
          exact ⟨hlo, by simpa using hhi, hsync', hmem⟩

theorem ntfsPread_idle
    {dev : Int → UInt8}
    (hcall : ntfsPread dev pos count bufPos io = (r, io'))
    (hidle : reported r ≤ 0) :
    io'.mem = io.mem := by
  by_cases hcount : 0 < count
  · have hspec := ntfsPread_spec dev pos bufPos io hcount
    rw [hcall] at hspec
    cases r with
    | error e => exact hspec.2
    | ok m =>
      have hm : m ≤ 0 := hidle
      rw [hspec.2.2.2, overwrite_empty _ _ hm]
  · have hio : io = io' := by
      unfold ntfsPread at hcall
      split_ifs at hcall
      · exact (Prod.mk.inj hcall).2
      · exact (Prod.mk.inj hcall).2
      · omega
    rw [hio]

theorem ntfsPwrite_idle
    {devReadOnly : Bool} {b : Int → UInt8}
    (hsync : ∀ s ∈ io.syncs, s = false)
    (hcall : ntfsPwrite devReadOnly b pos count bufPos io = (r, io'))
    (hidle : reported r ≤ 0) :
    (∀ s ∈ io'.syncs, s = false) ∧ io'.mem = io.mem := by
  by_cases hcount : 0 < count
  · have hspec := ntfsPwrite_spec devReadOnly b pos bufPos hcount hsync
    rw [hcall] at hspec
    cases r with
    | error e => exact hspec
    | ok m =>
      have hm : m ≤ 0 := hidle
      exact ⟨hspec.2.2.1, by rw [hspec.2.2.2, overwrite_empty _ _ hm]⟩
  · have hio : io = io' := by
      unfold ntfsPwrite at hcall
      split at hcall
      · exact (Prod.mk.inj hcall).2
      · rw [if_pos (by omega)] at hcall
        exact (Prod.mk.inj hcall).2
    rw [← hio]
    exact ⟨hsync, rfl⟩

end Moving

section Loop

variable {cs pos w : Int} {cell : Int → Int} {t : RunlistElement}
variable {hole : Int → Int → Io → Io}
variable {move : Int → Int → Int → Io → Except DevErrno Int × Io}

/-- The `n` positions from `x` on lie in the clusters of a run, from `start` on. -/
def PlacedAt (cs : Int) (cell : Int → Int) (x n start : Int) : Prop :=
  ∀ i, 0 ≤ i → i < n → 0 ≤ cell ((x + i) / cs) ∧ place cs cell (x + i) = start + i

/-- The `n` positions from `x` on lie in a hole. -/
def InHole (cs : Int) (cell : Int → Int) (x n : Int) : Prop :=
  ∀ i, 0 ≤ i → i < n → cell ((x + i) / cs) = lcnHole

/--
What a transfer keeps: `Good total io` holds after `total` bytes from `pos` on.
A transfer of a part of a run may be cut short.
-/
structure KeepsGood (cs pos : Int) (cell : Int → Int) (Good : Int → Io → Prop)
    (hole : Int → Int → Io → Io)
    (move : Int → Int → Int → Io → Except DevErrno Int × Io) : Prop where
  hole_good : ∀ {total n io}, 0 ≤ total → 0 ≤ n → InHole cs cell (pos + total) n →
    Good total io → Good (total + n) (hole total n io)
  move_good : ∀ {start total n io m io'}, 0 ≤ total → 0 < n →
    PlacedAt cs cell (pos + total) n start → Good total io →
    move start total n io = (.ok m, io') → 0 ≤ m ∧ m ≤ n ∧ Good (total + m) io'
  /-- A call that moves nothing changes nothing, wherever it was made. -/
  idle_good : ∀ {start total n io r io'}, Good total io →
    move start total n io = (r, io') → reported r ≤ 0 → Good total io'

variable {Good : Int → Io → Prop}

variable {total v ofs n x : Int} {io : Io}

/-- An interrupted call has moved nothing, so it is the last call that counts. -/
theorem KeepsGood.moveRun_call
    (hkeeps : KeepsGood cs pos cell Good hole move)
    (start : Int)
    (n : Int)
    (hgood : Good total io) :
    ∃ io₁, Good total io₁ ∧ moveRun move start total n io = move start total n io₁ := by
  unfold moveRun
  generalize io.answers.length = k
  induction k generalizing io with
  | zero => exact ⟨io, hgood, rfl⟩
  | succ k ih =>
    rw [retryInterrupted]
    rcases hcall : move start total n io with ⟨e | m, io'⟩
    · by_cases heintr : e = .eintr
      · subst heintr
        exact ih (hkeeps.idle_good hgood hcall le_rfl)
      · refine ⟨io, hgood, ?_⟩
        rw [hcall]
        cases e with
        | eintr => exact absurd rfl heintr
        | einval => rfl
        | eio => rfl
        | erofs => rfl
        | other => rfl
    · exact ⟨io, hgood, by rw [hcall]⟩

theorem position_bounds
    (hcs : 0 < cs)
    {length i : Int}
    (hofs : 0 ≤ ofs)
    (hn : n ≤ length * cs - ofs)
    (hx : x = v * cs + ofs)
    (hlo : 0 ≤ i)
    (hhi : i < n) :
    v ≤ (x + i) / cs ∧ (x + i) / cs < v + length := by
  constructor
  · exact Int.le_ediv_of_mul_le hcs (by omega)
  · apply Int.ediv_lt_of_lt_mul hcs
    rw [add_mul]
    omega

theorem placedAt_run
    (hcs : 0 < cs)
    {e : RunlistElement}
    (hcells : ∀ y, e.vcn ≤ y → y < e.vcn + e.length → cell y = e.lcnOf y)
    (hvcn : e.vcn = v)
    (hreal : 0 ≤ e.lcn)
    (hofs : 0 ≤ ofs)
    (hn : n ≤ e.length * cs - ofs)
    (hx : x = v * cs + ofs) :
    PlacedAt cs cell x n (e.lcn * cs + ofs) := by
  have hrun : RunAt cell v e.lcn e.length := by
    intro y hlo hhi
    rw [hcells y (by omega) (by omega), RunlistElement.lcnOf, if_pos hreal, hvcn]
  intro i hlo hhi
  obtain ⟨hlow, hhigh⟩ := position_bounds hcs hofs hn hx hlo hhi
  constructor
  · rw [hrun _ hlow hhigh]
    omega
  · rw [place_run hrun hlow hhigh]
    omega

theorem inHole_run
    (hcs : 0 < cs)
    {e : RunlistElement}
    (hcells : ∀ y, e.vcn ≤ y → y < e.vcn + e.length → cell y = e.lcnOf y)
    (hvcn : e.vcn = v)
    (hhole : e.lcn = lcnHole)
    (hofs : 0 ≤ ofs)
    (hn : n ≤ e.length * cs - ofs)
    (hx : x = v * cs + ofs) :
    InHole cs cell x n := by
  intro i hlo hhi
  obtain ⟨hlow, hhigh⟩ := position_bounds hcs hofs hn hx hlo hhi
  rw [hcells _ (by omega) (by omega), RunlistElement.lcnOf, hhole, if_neg (by decide)]

theorem transferRuns_done
    (cs : Int)
    (hole : Int → Int → Io → Io)
    (move : Int → Int → Int → Io → Except DevErrno Int × Io)
    (rl : Runlist)
    (ofs total : Int)
    (io : Io) :
    transferRuns cs hole move rl ofs 0 total io = (none, total, io) := by
  cases rl with
  | nil => rfl
  | cons e rest => rw [transferRuns, if_pos rfl]

/-- After a transfer that was cut short nothing is counted any more. -/
theorem transferRuns_endsHere
    (hkeeps : KeepsGood cs pos cell Good hole move)
    {rl : Runlist} {count : Int}
    (hends : EndsHere cs move rl count total io)
    (hgood : Good total io) :
    Good (transferRuns cs hole move rl 0 count total io).2.1
      (transferRuns cs hole move rl 0 count total io).2.2 := by
  cases rl with
  | nil => exact hgood
  | cons e rest =>
    rw [transferRuns]
    split
    · exact hgood
    · rename_i hzero
      split
      · exact hgood
      · rename_i hlen
        by_cases hneg : e.lcn < 0
        · have hhole : e.lcn ≠ lcnHole := by
            rcases hends with h | h | h | h
            · exact absurd h hzero
            · exact absurd h hlen
            · exact h.2
            · omega
          rw [if_pos hneg, if_pos hhole]
          exact hgood
        · have hidle : ∀ m io', moveRun move (e.lcn * cs) total
              (min count (e.length * cs)) io = (.ok m, io') → m ≤ 0 := by
            rcases hends with h | h | h | h
            · exact absurd h hzero
            · exact absurd h hlen
            · exact absurd h.1 hneg
            · exact h.2
          rw [if_neg hneg, add_zero, sub_zero]
          obtain ⟨io₁, hgood₁, hcall⟩ := hkeeps.moveRun_call (e.lcn * cs)
            (min count (e.length * cs)) hgood
          rcases hmove : moveRun move (e.lcn * cs) total (min count (e.length * cs)) io
            with ⟨err | m, io'⟩
          · exact hkeeps.idle_good hgood₁ (hcall.symm.trans hmove) le_rfl
          · have hm := hidle m io' hmove
            dsimp only
            rw [if_neg (by omega)]
            exact hkeeps.idle_good hgood₁ (hcall.symm.trans hmove) hm

/-- The bytes that are counted are good, if nothing follows a transfer cut short. -/
theorem transferRuns_good
    (hcs : 0 < cs)
    (hkeeps : KeepsGood cs pos cell Good hole move)
    {suf : Runlist} {count : Int}
    (htiles : Tiles v suf w)
    (hcells : ∀ e ∈ suf, ∀ y, e.vcn ≤ y → y < e.vcn + e.length → cell y = e.lcnOf y)
    (ht : t.length = 0)
    (hofs : 0 ≤ ofs)
    (hin : ∀ e ∈ suf.head?, ofs < e.length * cs)
    (hcount : 0 ≤ count)
    (htotal : 0 ≤ total)
    (hpos : pos + total = v * cs + ofs)
    (hgood : Good total io)
    (hunbroken : Unbroken cs hole move (suf ++ [t]) ofs count total io) :
    Good (transferRuns cs hole move (suf ++ [t]) ofs count total io).2.1
      (transferRuns cs hole move (suf ++ [t]) ofs count total io).2.2 := by
  induction suf generalizing v ofs count total io with
  | nil =>
    simp only [List.nil_append, transferRuns]
    split_ifs
    · exact hgood
    · exact hgood
  | cons e rest ih =>
    obtain ⟨hv, hlen, hrest⟩ := htiles
    have hcellsE := hcells e (by simp)
    have hcellsRest : ∀ f ∈ rest, ∀ y, f.vcn ≤ y → y < f.vcn + f.length →
        cell y = f.lcnOf y := fun f hf => hcells f (by simp [hf])
    have hspace := hin e rfl
    have hhead : ∀ f ∈ rest.head?, 0 < f.length * cs := by
      intro f hf
      exact mul_pos (hrest.mem (List.mem_of_mem_head? hf)).2.1 hcs
    rw [List.cons_append] at hunbroken ⊢
    rw [transferRuns]
    rw [Unbroken] at hunbroken
    by_cases hzero : count = 0
    · rw [if_pos hzero]
      exact hgood
    · obtain ⟨n, hn⟩ : ∃ n, min count (e.length * cs - ofs) = n := ⟨_, rfl⟩
      have hn' : 0 < n ∧ n ≤ count ∧ n ≤ e.length * cs - ofs ∧
          (n = count ∨ n = e.length * cs - ofs) := by
        omega
      rw [if_neg hzero, if_neg (by omega)]
      rw [hn] at hunbroken ⊢
      -- a run that has been moved as a whole
      have hnext : ∀ io', Good (total + n) io' →
          Unbroken cs hole move (rest ++ [t]) 0 (count - n) (total + n) io' →
          Good (transferRuns cs hole move (rest ++ [t]) 0 (count - n) (total + n) io').2.1
            (transferRuns cs hole move (rest ++ [t]) 0 (count - n) (total + n) io').2.2 := by
        intro io' hgood' hunbroken'
        by_cases hall : n = count
        · rw [hall, sub_self, transferRuns_done, ← hall]
          exact hgood'
        · refine ih hrest hcellsRest le_rfl hhead (by omega) (by omega) ?_ hgood' hunbroken'
          rw [add_mul]
          omega
      by_cases hneg : e.lcn < 0
      · rw [if_pos hneg]
        by_cases hhole : e.lcn = lcnHole
        · rw [if_neg (by omega), if_pos hneg] at hunbroken
          rw [if_neg (not_not.mpr hhole)]
          exact hnext _ (hkeeps.hole_good htotal hn'.1.le
            (inHole_run hcs hcellsE hv hhole hofs hn'.2.2.1 hpos) hgood) hunbroken
        · rw [if_pos hhole]
          exact hgood
      · have hplaced := placedAt_run hcs hcellsE hv (not_lt.mp hneg) hofs hn'.2.2.1 hpos
        obtain ⟨io₁, hgood₁, hcall⟩ := hkeeps.moveRun_call (e.lcn * cs + ofs) n hgood
        rw [if_neg (by omega), if_neg hneg] at hunbroken
        rw [if_neg hneg]
        rcases hmove : moveRun move (e.lcn * cs + ofs) total n io with ⟨err | m, io'⟩
        · exact hkeeps.idle_good hgood₁ (hcall.symm.trans hmove) le_rfl
        · rw [hmove] at hunbroken
          obtain ⟨hm, hmn, hgood'⟩ := hkeeps.move_good htotal hn'.1 hplaced hgood₁
            (hcall.symm.trans hmove)
          dsimp only at hunbroken ⊢
          by_cases hall : m = n
          · subst hall
            rw [if_pos rfl] at hunbroken
            rw [if_pos hn'.1]
            exact hnext io' hgood' hunbroken
          · rw [if_neg hall] at hunbroken
            split_ifs with hsome
            · exact transferRuns_endsHere hkeeps (hunbroken hsome) hgood'
            · exact hkeeps.idle_good hgood₁ (hcall.symm.trans hmove) (not_lt.mp hsome)

theorem transferResult_good
    {r : Option DevErrno × Int × Io}
    (h : Good r.2.1 r.2.2) :
    Good (reported (transferResult r).1) (transferResult r).2 := by
  obtain ⟨err, total, io⟩ := r
  cases err with
  | none => exact h
  | some err =>
    unfold transferResult
    dsimp only
    split_ifs with hnone
    · have hzero : Good 0 io := hnone ▸ h
      exact hzero
    · exact h

end Loop

section Seeking

variable {cs pos w : Int} {t : RunlistElement}

theorem seekByte_tiles
    {runs : Runlist} {v : Int}
    (h : Tiles v runs w)
    (ht : t.length = 0)
    (hpos : v * cs ≤ pos) :
    ∃ pre suf m, runs = pre ++ suf ∧ Tiles v pre m ∧ Tiles m suf w ∧ m * cs ≤ pos ∧
      seekByte cs pos (runs ++ [t]) (v * cs) = (suf ++ [t], m * cs) ∧
      ∀ e ∈ suf.head?, pos - m * cs < e.length * cs := by
  induction runs generalizing v with
  | nil =>
    refine ⟨[], [], v, rfl, rfl, h, hpos, ?_, by simp⟩
    simp [seekByte, ht]
  | cons e rest ih =>
    obtain ⟨hv, hlen, hrest⟩ := h
    rw [List.cons_append, seekByte]
    by_cases hgo : v * cs + e.length * cs ≤ pos
    · rw [if_pos ⟨by omega, hgo⟩, ← add_mul]
      obtain ⟨pre, suf, m, rfl, hpre, hsuf, hm, hseek, hhead⟩ :=
        ih hrest (by rw [add_mul]; exact hgo)
      exact ⟨e :: pre, suf, m, rfl, ⟨hv, hlen, hpre⟩, hsuf, hm, hseek, hhead⟩
    · rw [if_neg (fun hc => hgo hc.2)]
      refine ⟨[], e :: rest, v, rfl, rfl, ⟨hv, hlen, hrest⟩, hpos, rfl, ?_⟩
      simp only [List.head?_cons, Option.mem_some_iff, forall_eq']
      omega

theorem lcnIn_part
    {pre suf : Runlist} {v m : Int}
    (hpre : Tiles v pre m)
    (hsuf : Tiles m suf w) :
    ∀ e ∈ suf, ∀ y, e.vcn ≤ y → y < e.vcn + e.length → lcnIn (pre ++ suf) y = e.lcnOf y := by
  intro e he y hlo hhi
  obtain ⟨A, B, rfl⟩ := List.append_of_mem he
  rw [lcnIn_append_right hpre (by have := (hsuf.mem he).1; omega)]
  exact lcnIn_covering hsuf hlo hhi

end Seeking

section Positions

variable {cs pos : Int} {cell : Int → Int}

/-- The first `n` bytes of the buffer are those at the positions from `pos` on. -/
def ReadsPositions (cs : Int) (cell : Int → Int) (dev : Int → UInt8) (pos n : Int)
    (buf : Int → UInt8) : Prop :=
  ∀ i, 0 ≤ i → i < n → lcnHole ≤ cell ((pos + i) / cs) ∧ buf i = fileAt cs cell dev (pos + i)

/--
Each byte of the device that belongs to a position from `pos` on holds the byte
of the buffer for it, and all others are as before.
-/
def StoresPositions (cs : Int) (cell : Int → Int) (b : Int → UInt8) (pos n : Int)
    (dev dev' : Int → UInt8) : Prop :=
  (∀ i, 0 ≤ i → i < n → lcnHole ≤ cell ((pos + i) / cs)) ∧
    ∀ y, (∃ i, 0 ≤ i ∧ i < n ∧ 0 ≤ cell ((pos + i) / cs) ∧ place cs cell (pos + i) = y ∧
        dev' y = b i) ∨
      (∀ i, 0 ≤ i → i < n → 0 ≤ cell ((pos + i) / cs) → place cs cell (pos + i) ≠ y) ∧
        dev' y = dev y

theorem keepsGood_read
    (cs pos : Int)
    (cell : Int → Int)
    (dev : Int → UInt8) :
    KeepsGood cs pos cell (fun total io => ReadsPositions cs cell dev pos total io.mem)
      readHole (readRun dev) where
  hole_good := by
    intro total n io htotal hn hhole hgood i hlo hhi
    have hmem : (readHole total n io).mem = overwrite io.mem total n fun _ => 0 := rfl
    rw [hmem]
    by_cases hold : i < total
    · rw [overwrite_outside _ _ (by omega)]
      exact hgood i hlo hold
    · have hcell := hhole (i - total) (by omega) (by omega)
      rw [show pos + total + (i - total) = pos + i by omega] at hcell
      rw [overwrite_inside _ _ (by omega) (by omega), hcell]
      refine ⟨le_rfl, ?_⟩
      rw [fileAt, hcell, if_neg (by decide)]
  move_good := by
    intro start total n io m io' htotal hn hplaced hgood hcall
    have hspec := ntfsPread_spec dev start total io hn
    rw [show ntfsPread dev start n total io = (.ok m, io') from hcall] at hspec
    obtain ⟨hm, hmn, -, hmem⟩ := hspec
    refine ⟨hm, hmn, ?_⟩
    intro i hlo hhi
    rw [hmem]
    by_cases hold : i < total
    · rw [overwrite_outside _ _ (by omega)]
      exact hgood i hlo hold
    · obtain ⟨hreal, hplace⟩ := hplaced (i - total) (by omega) (by omega)
      rw [show pos + total + (i - total) = pos + i by omega] at hreal hplace
      rw [overwrite_inside _ _ (by omega) (by omega), fileAt, if_pos hreal, hplace]
      exact ⟨le_trans (by decide) hreal, rfl⟩
  idle_good := by
    intro start total n io r io' hgood hcall hidle
    rw [ntfsPread_idle hcall hidle]
    exact hgood

theorem keepsGood_write
    (cs pos : Int)
    (cell : Int → Int)
    (devReadOnly : Bool)
    (b dev : Int → UInt8) :
    KeepsGood cs pos cell (fun total io => (∀ s ∈ io.syncs, s = false) ∧
        StoresPositions cs cell b pos total dev io.mem)
      writeHole (writeRun false devReadOnly b) where
  hole_good := by
    rintro total n io htotal hn hhole ⟨hsync, hmapped, hstored⟩
    have hcell : ∀ i, total ≤ i → i < total + n → cell ((pos + i) / cs) = lcnHole := by
      intro i hlo hhi
      have := hhole (i - total) (by omega) (by omega)
      rwa [show pos + total + (i - total) = pos + i by omega] at this
    refine ⟨hsync, ?_, ?_⟩
    · intro i hlo hhi
      by_cases hold : i < total
      · exact hmapped i hlo hold
      · exact (hcell i (by omega) hhi).ge
    · intro y
      rcases hstored y with ⟨i, hlo, hhi, hrest⟩ | ⟨hnone, hsame⟩
      · exact Or.inl ⟨i, hlo, by omega, hrest⟩
      · refine Or.inr ⟨?_, hsame⟩
        intro i hlo hhi hreal
        by_cases hold : i < total
        · exact hnone i hlo hold hreal
        · rw [hcell i (by omega) hhi] at hreal
          cases hreal
  move_good := by
    rintro start total n io m io' htotal hn hplaced ⟨hsync, hmapped, hstored⟩ hcall
    have hspec := ntfsPwrite_spec devReadOnly b start total hn hsync
    rw [show ntfsPwrite devReadOnly b start n total io = (.ok m, io') from hcall] at hspec
    obtain ⟨hm, hmn, hsync', hmem⟩ := hspec
    have hplace : ∀ i, total ≤ i → i < total + m → 0 ≤ cell ((pos + i) / cs) ∧
        place cs cell (pos + i) = start + (i - total) := by
      intro i hlo hhi
      have := hplaced (i - total) (by omega) (by omega)
      rwa [show pos + total + (i - total) = pos + i by omega] at this
    refine ⟨hm, hmn, hsync', ?_, ?_⟩
    · intro i hlo hhi
      by_cases hold : i < total
      · exact hmapped i hlo hold
      · exact le_trans (by decide) (hplace i (by omega) hhi).1
    · intro y
      rw [hmem]
      by_cases hin : start ≤ y ∧ y < start + m
      · have hbyte := hplace (total + (y - start)) (by omega) (by omega)
        refine Or.inl ⟨total + (y - start), by omega, by omega, hbyte.1, ?_, ?_⟩
        · omega
        · rw [overwrite_inside _ _ hin.1 hin.2]
      · rw [overwrite_outside _ _ hin]
        rcases hstored y with ⟨i, hlo, hhi, hrest⟩ | ⟨hnone, hsame⟩
        · exact Or.inl ⟨i, hlo, by omega, hrest⟩
        · refine Or.inr ⟨?_, hsame⟩
          intro i hlo hhi hreal
          by_cases hold : i < total
          · exact hnone i hlo hold hreal
          · rw [(hplace i (by omega) hhi).2]
            omega
  idle_good := by
    rintro start total n io r io' ⟨hsync, hstored⟩ hcall hidle
    obtain ⟨hsync', hmem⟩ := ntfsPwrite_idle hsync hcall hidle
    rw [hmem]
    exact ⟨hsync', hstored⟩

/-- No run is read after one that was cut short. -/
def ReadUnbroken (cs : Int) (dev : Int → UInt8) (rl : Runlist) (pos count : Int) (io : Io) : Prop :=
  Unbroken cs readHole (readRun dev) (seekByte cs pos rl 0).1
    (pos - (seekByte cs pos rl 0).2) count 0 io

/-- No run is written after one that was cut short. -/
def WriteUnbroken (cs : Int) (devReadOnly : Bool) (b : Int → UInt8) (rl : Runlist)
    (ofs pos count : Int) (io : Io) : Prop :=
  Unbroken cs writeHole (writeRun false devReadOnly b) (seekByte cs pos rl ofs).1
    (pos - (seekByte cs pos rl ofs).2) count 0 io

variable {runs : Runlist} {t : RunlistElement} {v w : Int}

/-- A transfer along a runlist keeps what the transfers of its runs keep. -/
theorem transferRuns_seek
    (hcs : 0 < cs)
    (h : Tiles v runs w)
    (ht : t.length = 0)
    {Good : Int → Io → Prop} {hole : Int → Int → Io → Io}
    {move : Int → Int → Int → Io → Except DevErrno Int × Io}
    (hkeeps : KeepsGood cs pos (lcnIn runs) Good hole move)
    {count : Int} {io : Io}
    (hpos : v * cs ≤ pos)
    (hcount : 0 ≤ count)
    (hgood : Good 0 io)
    (hunbroken : Unbroken cs hole move (seekByte cs pos (runs ++ [t]) (v * cs)).1
      (pos - (seekByte cs pos (runs ++ [t]) (v * cs)).2) count 0 io) :
    Good
      (reported (transferResult (transferRuns cs hole move
        (seekByte cs pos (runs ++ [t]) (v * cs)).1
        (pos - (seekByte cs pos (runs ++ [t]) (v * cs)).2) count 0 io)).1)
      (transferResult (transferRuns cs hole move (seekByte cs pos (runs ++ [t]) (v * cs)).1
        (pos - (seekByte cs pos (runs ++ [t]) (v * cs)).2) count 0 io)).2 := by
  obtain ⟨pre, suf, m, rfl, hpre, hsuf, hm, hseek, hhead⟩ := seekByte_tiles h ht hpos
  rw [hseek] at hunbroken ⊢
  apply transferResult_good
  exact transferRuns_good hcs hkeeps hsuf (lcnIn_part hpre hsuf) ht (by omega) hhead hcount
    le_rfl (by omega) hgood hunbroken

/--
What is reported as read or written are the positions the runlist maps, if no run
is moved after a transfer that was cut short.
-/
theorem rlPread_rlPwrite_positions
    (hcs : 0 < cs)
    (h : Tiles v runs w)
    (ht : t.length = 0)
    (pos count : Int) :
    (v = 0 → ∀ dev io, ReadUnbroken cs dev (runs ++ [t]) pos count io →
      ReadsPositions cs (lcnIn runs) dev pos
        (reported (rlPread cs dev (runs ++ [t]) pos count io).1)
        (rlPread cs dev (runs ++ [t]) pos count io).2.mem) ∧
    (v * cs ≤ pos → ∀ devReadOnly b io, (∀ s ∈ io.syncs, s = false) →
      WriteUnbroken cs devReadOnly b (runs ++ [t]) (v * cs) pos count io →
      StoresPositions cs (lcnIn runs) b pos
        (reported (rlPwriteDev cs false devReadOnly b (runs ++ [t]) (v * cs) pos count io).1)
        io.mem
        (rlPwriteDev cs false devReadOnly b (runs ++ [t]) (v * cs) pos count io).2.mem) := by
  have hread : ∀ dev buf, ReadsPositions cs (lcnIn runs) dev pos 0 buf := by
    intro dev buf i hlo hhi
    omega
  have hwritten : ∀ b dev, StoresPositions cs (lcnIn runs) b pos 0 dev dev := by
    intro b dev
    refine ⟨fun i hlo hhi => by omega, fun y => Or.inr ⟨fun i hlo hhi => by omega, rfl⟩⟩
  constructor
  · rintro rfl dev io hunbroken
    unfold rlPread
    split
    · exact hread dev io.mem
    · by_cases hzero : count = 0
      · rw [hzero]
        exact hread dev io.mem
      · rw [if_neg hzero]
        have hresult := transferRuns_seek hcs h ht (keepsGood_read cs pos (lcnIn runs) dev)
          (show 0 * cs ≤ pos by omega) (show 0 ≤ count by omega) (hread dev io.mem)
          (by rw [zero_mul]; exact hunbroken)
        rw [zero_mul] at hresult
        exact hresult
  · intro hpos devReadOnly b io hsync hunbroken
    unfold rlPwriteDev
    split
    · exact hwritten b io.mem
    · split_ifs
      · exact hwritten b io.mem
      · exact (transferRuns_seek hcs h ht
          (keepsGood_write cs pos (lcnIn runs) devReadOnly b io.mem) hpos
          (by omega) ⟨hsync, hwritten b io.mem⟩ hunbroken).2

/-- Two clusters, a hole of one and one cluster, of four bytes each. -/
def sparseRuns : Runlist :=
  [⟨0, 10, 2⟩, ⟨2, lcnHole, 1⟩, ⟨3, 20, 1⟩]

/-- A device whose bytes are their own positions. -/
def countedBytes (y : Int) : UInt8 :=
  UInt8.ofNat y.toNat

theorem tiles_sparseRuns : Tiles 0 sparseRuns 4 :=
  ⟨rfl, by decide, rfl, by decide, rfl, by decide, rfl⟩

/-- The device moves three bytes only at its first call; all fourteen are read. -/
theorem rlPread_rlPwrite_positions_sparse :
    Tiles 0 sparseRuns 4 ∧ ReadsPositions 4 (lcnIn sparseRuns) countedBytes 1
        (reported (rlPread 4 countedBytes (sparseRuns ++ [enoentAt 4]) 1 14
          ⟨[.moved 3], [], fun _ => 0⟩).1)
        (rlPread 4 countedBytes (sparseRuns ++ [enoentAt 4]) 1 14
          ⟨[.moved 3], [], fun _ => 0⟩).2.mem ∧
      reported (rlPread 4 countedBytes (sparseRuns ++ [enoentAt 4]) 1 14
        ⟨[.moved 3], [], fun _ => 0⟩).1 = 14 ∧
      StoresPositions 4 (lcnIn sparseRuns) countedBytes 1
        (reported (rlPwriteDev 4 false false countedBytes (sparseRuns ++ [enoentAt 4])
          (0 * 4) 1 14 ⟨[.moved 3], [false], fun _ => 0⟩).1)
        (fun _ => 0)
        (rlPwriteDev 4 false false countedBytes (sparseRuns ++ [enoentAt 4])
          (0 * 4) 1 14 ⟨[.moved 3], [false], fun _ => 0⟩).2.mem :=
  have hpositions := rlPread_rlPwrite_positions (t := enoentAt 4) (by decide)
    tiles_sparseRuns rfl 1 14
  ⟨tiles_sparseRuns, hpositions.1 rfl countedBytes ⟨[.moved 3], [], fun _ => 0⟩ trivial, rfl,
    hpositions.2 (by decide) false countedBytes ⟨[.moved 3], [false], fun _ => 0⟩ (by simp) trivial⟩

/-- A byte written to a hole is reported as written, and is not on the device. -/
theorem rlPwrite_in_hole :
    let r := rlPwriteDev 4 false false (fun _ => 7) (sparseRuns ++ [enoentAt 4]) 0 8 1
      ⟨[], [], fun _ => 0⟩
    reported r.1 = 1 ∧ r.2.mem = (fun _ => 0) ∧ fileAt 4 (lcnIn sparseRuns) r.2.mem 8 ≠ 7 :=
  ⟨rfl, rfl, by decide⟩

/-- A read that is interrupted after one byte goes on with the next run. -/
example :
    let r := rlPread 4 countedBytes (sparseRuns ++ [enoentAt 4]) 0 16
      ⟨[.moved 1, .failed .eintr], [], fun _ => 0⟩
    reported r.1 = 9 ∧ r.2.mem 1 = 0 ∧ fileAt 4 (lcnIn sparseRuns) countedBytes 1 = 41 := by
  decide

end Positions

end NtfsPlus.Libntfs
