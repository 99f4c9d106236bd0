import NtfsPlus.Lib.CheckedReads
import NtfsPlus.Libntfs.Mst

/-!
# Restart pages of the journal

`ntfs_check_and_load_restart_page` of `libntfs/logfile.c` looks at the first sector
of a restart page (`ntfs_check_restart_page_header`, `ntfs_check_restart_area`),
loads and deprotects the page and checks its client records
(`ntfs_check_log_client_array`).

* `restartPageChecks_within_iff`: the two checks of the first sector keep to it
  unless the restart area begins at offset 480.  There the fields behind
  `file_size` lie in the next sector, and only the client array has to begin
  before the end of this one.
* `restartPage_sound`: what an accepted page guarantees.  The end of the update
  sequence array is a `u16` that may have wrapped, and the client lists are checked
  only if the page is not from chkdsk and has a client in use.
-/

namespace NtfsPlus.Libntfs

open CheckedReads

section Fields

/-- `magic_RSTR`. -/
def magicRstr : Nat := 0x52545352

/-- `magic_CHKD`. -/
def magicChkd : Nat := 0x444b4843

/-- `LOGFILE_NO_CLIENT`. -/
def logfileNoClient : Nat := 0xffff

/-- `sizeof(LOG_CLIENT_RECORD)`. -/
def logClientRecordSize : Nat := 160

variable (rp : Bytes)

/-- `rp->system_page_size`. -/
def systemPageSize : Nat := le32 rp 16

/-- `rp->log_page_size`. -/
def logPageSize : Nat := le32 rp 20

/-- `rp->restart_area_offset`. -/
def restartAreaOffset : Nat := le16 rp 24

/-- The 16-bit field of the restart area at an offset. -/
def restartAreaField (ofs : Nat) : Nat := le16 rp (restartAreaOffset rp + ofs)

def logClients : Nat := restartAreaField rp 8

def clientFreeList : Nat := restartAreaField rp 10

def clientInUseList : Nat := restartAreaField rp 12

def restartAreaLength : Nat := restartAreaField rp 20

def clientArrayOffset : Nat := restartAreaField rp 22

/-- Whether the page has an update sequence array; chkdsk may write pages without. -/
def haveUsa : Bool := !(le32 rp 0 == magicChkd && usaCount rp == 0)

/-- The end of the update sequence array, as a `u16`. -/
def usaEnd : Nat := (usaOfs rp + usaCount rp * 2) % 65536

/-- `ra_len`, as a `u16`. -/
def calculatedAreaLength : Nat :=
  (clientArrayOffset rp + logClients rp * logClientRecordSize) % 65536

end Fields

section Checks

/-- `size & (size - 1)` is zero and the size is at least a sector. -/
def pageSizeOk (size : Nat) : Bool :=
  ntfsBlockSize ≤ size && size &&& (size - 1) == 0

/-- `fs_bits`: how often a number can be halved. -/
def fsBits : Nat → Nat → Nat
  | 0, _ => 0
  | fuel + 1, n => if n = 0 then 0 else fsBits fuel (n / 2) + 1

/-- `ntfs_check_restart_page_header`, test by test. -/
def restartPageHeaderChecks (rp : Bytes) (pos : Nat) : List Check :=
  [⟨[(16, 4), (20, 4)], pageSizeOk (systemPageSize rp) && pageSizeOk (logPageSize rp)⟩,
    ⟨[], pos == 0 || pos == systemPageSize rp⟩,
    ⟨[(28, 2), (26, 2)],
      (le16 rp 28 == 1 && le16 rp 26 == 1) || (le16 rp 28 == 2 && le16 rp 26 == 0)⟩,
    ⟨[(0, 4), (6, 2)],
      !haveUsa rp || usaCount rp == (1 + systemPageSize rp / ntfsBlockSize) % 65536⟩,
    ⟨if haveUsa rp then [(4, 2)] else [],
      !haveUsa rp || (30 ≤ usaOfs rp && usaEnd rp ≤ ntfsBlockSize - 2)⟩,
    ⟨[(24, 2)], restartAreaOffset rp % 8 == 0 &&
        (if haveUsa rp then usaEnd rp else 30) ≤ restartAreaOffset rp &&
        restartAreaOffset rp ≤ systemPageSize rp⟩,
    ⟨(0, 4) :: if le32 rp 0 = magicChkd then [] else [(8, 8)],
      le32 rp 0 == magicChkd || le64 rp 8 == 0⟩]

/-- The tests of `ntfs_check_restart_area` up to the sequence number bits. -/
def restartAreaFieldChecks (rp : Bytes) : List Check :=
  let ra := restartAreaOffset rp
  [⟨[(24, 2)], ra + 24 ≤ ntfsBlockSize - 2⟩,
    ⟨[(ra + 22, 2)],
      clientArrayOffset rp % 8 == 0 && ra + clientArrayOffset rp ≤ ntfsBlockSize - 2⟩,
    ⟨[(ra + 8, 2), (16, 4)], ra + calculatedAreaLength rp ≤ systemPageSize rp⟩,
    ⟨[(ra + 20, 2), (16, 4)], ra + restartAreaLength rp ≤ systemPageSize rp &&
        calculatedAreaLength rp ≤ restartAreaLength rp⟩,
    ⟨[(ra + 10, 2), (ra + 8, 2)],
      clientFreeList rp == logfileNoClient || clientFreeList rp < logClients rp⟩,
    ⟨[(ra + 12, 2), (ra + 8, 2)],
      clientInUseList rp == logfileNoClient || clientInUseList rp < logClients rp⟩,
    ⟨[(ra + 24, 8), (ra + 16, 4)], le32 rp (ra + 16) == 67 - fsBits 64 (le64 rp (ra + 24))⟩]

/-- The last two tests of `ntfs_check_restart_area`. -/
def restartAreaLengthChecks (rp : Bytes) : List Check :=
  [⟨[(restartAreaOffset rp + 36, 2)], restartAreaField rp 36 % 8 == 0⟩,
    ⟨[(restartAreaOffset rp + 38, 2)], restartAreaField rp 38 % 8 == 0⟩]

/-- `ntfs_check_restart_page_header` and `ntfs_check_restart_area`. -/
def restartPageChecks (rp : Bytes) (pos : Nat) : List Check :=
  restartPageHeaderChecks rp pos ++ (restartAreaFieldChecks rp ++ restartAreaLengthChecks rp)

end Checks

section FirstSector

variable {rp : Bytes} {pos : Nat}

/-- The checks of the page header read inside the block. -/
theorem restartPageHeaderChecks_within
    (rp : Bytes)
    (pos : Nat) :
    ReadsWithin ntfsBlockSize (restartPageHeaderChecks rp pos) := by
  apply readsWithin_of_forall
  simp only [restartPageHeaderChecks, List.forall_mem_cons]
  refine ⟨by decide, by decide, by decide, by decide, ?_, by decide, ?_, by decide⟩
  · split <;> decide
  · split <;> decide

/-- So do those of the first fields of the restart area. -/
theorem restartAreaFieldChecks_within
    (haligned : restartAreaOffset rp % 8 = 0) :
    ReadsWithin ntfsBlockSize (restartAreaFieldChecks rp) := by
  rw [restartAreaFieldChecks, readsWithin_cons]
  refine ⟨by simp [ntfsBlockSize], fun hra => readsWithin_of_forall ?_⟩
  have hle : restartAreaOffset rp + 24 ≤ 510 := of_decide_eq_true hra
  simp only [List.forall_mem_cons, List.not_mem_nil, IsEmpty.forall_iff, implies_true, and_true,
    ntfsBlockSize]
  omega

/-- The offset is a multiple of eight with 24 bytes before the last word of the sector. -/
theorem restartAreaOffset_of_passes
    (hheader : passes (restartPageHeaderChecks rp pos)) :
    restartAreaOffset rp % 8 = 0 := by
  simp only [restartPageHeaderChecks, passes_cons, Bool.and_eq_true, beq_iff_eq] at hheader
  exact hheader.2.2.2.2.2.1.1.1

/-- The checks bound the offset of the restart area. -/
theorem restartAreaOffset_le
    (hfields : passes (restartAreaFieldChecks rp)) :
    restartAreaOffset rp + 24 ≤ 510 := by
  simp only [restartAreaFieldChecks, passes_cons, decide_eq_true_eq] at hfields
  exact hfields.1

/-- When the checks of the last fields read inside the block. -/
theorem restartAreaLengthChecks_within :
    ReadsWithin ntfsBlockSize (restartAreaLengthChecks rp) ↔
      restartAreaOffset rp + 38 ≤ ntfsBlockSize ∧
        (restartAreaField rp 36 % 8 = 0 → restartAreaOffset rp + 40 ≤ ntfsBlockSize) := by
  simp [restartAreaLengthChecks]

/--
The checks of the first sector keep to it exactly when the restart area does not
begin at 480 or a test before the one of the log record header length fails.
-/
theorem restartPageChecks_within_iff
    (rp : Bytes)
    (pos : Nat) :
    ReadsWithin ntfsBlockSize (restartPageChecks rp pos) ↔
      (passes (restartPageHeaderChecks rp pos ++ restartAreaFieldChecks rp) →
        restartAreaOffset rp ≠ 480) := by
  rw [restartPageChecks, readsWithin_append, readsWithin_append, restartAreaLengthChecks_within,
    passes_append]
  constructor
  · rintro ⟨-, hwithin⟩ ⟨hheader, hfields⟩
    have := ((hwithin hheader).2 hfields).1
    simp only [ntfsBlockSize] at this
    omega
  · intro h
    refine ⟨restartPageHeaderChecks_within rp pos, fun hheader => ?_⟩
    have haligned := restartAreaOffset_of_passes hheader
    refine ⟨restartAreaFieldChecks_within haligned, fun hfields => ?_⟩
    have hne := h ⟨hheader, hfields⟩
    have hle := restartAreaOffset_le hfields
    simp only [ntfsBlockSize]
    omega

/-- A page given by its 16-bit fields that are not zero. -/
def pageOfFields (fields : List (Nat × Nat)) : Bytes :=
  fields.foldl (fun m f => setLe16 m f.1 f.2) (fun _ => 0)

/-- A restart page of one sector, version 1.1, with its restart area at an offset. -/
def smallRestartPage (ra : Nat) (fields : List (Nat × Nat)) : Bytes :=
  pageOfFields
    ([(0, 0x5352), (2, 0x5254), (4, 32), (6, 2), (16, 512), (20, 512), (24, ra), (26, 1), (28, 1),
      (ra + 10, 0xffff), (ra + 12, 0xffff), (ra + 16, 67)] ++ fields)

/-- A restart area at 480: two bytes at 516 are read. -/
theorem restartPageChecks_behind_sector :
    (516, 2) ∈ readsOf (restartPageChecks (smallRestartPage 480 []) 0) ∧
      ¬ReadsWithin ntfsBlockSize (restartPageChecks (smallRestartPage 480 []) 0) := by
  decide

end FirstSector

section Clients

variable (trp : Bytes)

/-- `offset_clients`. -/
def offsetClients : Nat := restartAreaOffset trp + clientArrayOffset trp

/-- Where a client record ends. -/
def clientEnd (idx : Nat) : Nat := offsetClients trp + (idx + 1) * logClientRecordSize

/-- `cr->prev_client`. -/
def prevClient (idx : Nat) : Nat := le16 trp (offsetClients trp + idx * logClientRecordSize + 16)

/-- `cr->next_client`. -/
def nextClient (idx : Nat) : Nat := le16 trp (offsetClients trp + idx * logClientRecordSize + 18)

/-- The loop over a client list: how many more records may be visited behind it. -/
def checkClientList : Nat → Nat → Bool → Option Nat
  | 0, idx, _ => if idx = logfileNoClient then some 0 else none
  | nrClients + 1, idx, idxIsFirst =>
    if idx = logfileNoClient then some (nrClients + 1)
    else if logClients trp ≤ idx then none
    else if systemPageSize trp < clientEnd trp idx then none
    else if idxIsFirst ∧ prevClient trp idx ≠ logfileNoClient then none
    else checkClientList nrClients (nextClient trp idx) false

/-- `ntfs_check_log_client_array`. -/
def checkLogClientArray : Bool :=
  if systemPageSize trp < restartAreaOffset trp + 48 then false
  else if systemPageSize trp ≤ offsetClients trp then false
  else
    match checkClientList trp (logClients trp) (clientFreeList trp) true with
    | none => false
    | some nrClients => (checkClientList trp nrClients (clientInUseList trp) true).isSome

/-- How the allocation and the read of the page fail, if they do. -/
structure LoadAnswers where
  malloc : Option Errno
  read : Option Errno

/-- The error that loading a page of some size ends with; a page of one sector is copied. -/
def LoadAnswers.error (answers : LoadAnswers) (size : Nat) : Option Errno :=
  match answers.malloc with
  | some err => some err
  | none =>
    if size ≤ ntfsBlockSize then none
    else answers.read.map fun err => if err = .enomem then err else .eio

/-- Whether the client array of a page is checked. -/
def ClientsChecked (rp : Bytes) : Prop :=
  le32 rp 0 = magicRstr ∧ clientInUseList rp ≠ logfileNoClient

instance (rp : Bytes) : Decidable (ClientsChecked rp) :=
  inferInstanceAs (Decidable (_ ∧ _))

/-- The page, deprotected if it has an update sequence array, and whether that failed. -/
def deprotectPage (rp : Bytes) : Option Errno × Bytes :=
  if haveUsa rp then mstPostReadFixup rp (systemPageSize rp) else (none, rp)

/-- `ntfs_check_and_load_restart_page` for the page `rp` of a journal of `dataSize` bytes. -/
def checkAndLoadRestartPage (answers : LoadAnswers) (dataSize : Nat) (rp : Bytes) (pos : Nat) :
    Except Errno Bytes :=
  if ¬passes (restartPageChecks rp pos) then .error .einval
  else if (usaCount rp + (2 ^ 32 - 1)) % 2 ^ 32 * ntfsBlockSize % 2 ^ 32 < systemPageSize rp ∨
      dataSize < systemPageSize rp then
    .error .einval
  else
    match answers.error (systemPageSize rp) with
    | some err => .error err
    | none =>
      if (deprotectPage rp).1.isSome ∧
          ntfsBlockSize - 2 < restartAreaOffset rp + restartAreaLength rp then
        .error .einval
      else if ClientsChecked rp ∧ !checkLogClientArray (deprotectPage rp).2 then
        .error .einval
      else
        .ok (deprotectPage rp).2

/-- The records of a client list, from `idx` on to the end of the list. -/
def ClientChain : Nat → List Nat → Prop
  | idx, [] => idx = logfileNoClient
  | idx, i :: l => idx = i ∧ idx ≠ logfileNoClient ∧ ClientChain (nextClient trp i) l

/-- A client list that ends, visits no record twice and lies within the page. -/
def ClientListSound (idx : Nat) : Prop :=
  ∃ l, ClientChain trp idx l ∧ l.Nodup ∧ ∀ i ∈ l, clientEnd trp i ≤ systemPageSize trp

end Clients

section Accepted

variable {trp : Bytes}

/-- A client list has one chain. -/
theorem ClientChain.unique
    {idx : Nat} {l l' : List Nat}
    (h : ClientChain trp idx l)
    (h' : ClientChain trp idx l') :
    l = l' := by
  induction l generalizing idx l' with
  | nil =>
    cases l' with
    | nil => rfl
    | cons i l' => exact absurd h h'.2.1
  | cons i l ih =>
    obtain ⟨rfl, hidx, hl⟩ := h
    cases l' with
    | nil => exact absurd h' hidx
    | cons j l' =>
      obtain ⟨rfl, -, hl'⟩ := h'
      rw [ih hl hl']

theorem ClientChain.of_append
    {idx i : Nat} {p l : List Nat}
    (h : ClientChain trp idx (p ++ i :: l)) :
    ClientChain trp i (i :: l) := by
  induction p generalizing idx with
  | nil =>
    obtain ⟨rfl, hidx, hl⟩ := h
    exact ⟨rfl, hidx, hl⟩
  | cons j p ih => exact ih h.2.2

/-- A list that ends visits no record twice: from there on it would go the same way for ever. -/
theorem ClientChain.nodup
    {idx : Nat} {l : List Nat}
    (h : ClientChain trp idx l) :
    l.Nodup := by
  induction l generalizing idx with
  | nil => exact List.nodup_nil
  | cons i l ih =>
    refine List.nodup_cons.mpr ⟨fun hmem => ?_, ih h.2.2⟩
    obtain ⟨p, q, rfl⟩ := List.append_of_mem hmem
    have hagain : ClientChain trp i (i :: q) := h.2.2.of_append
    have hfirst : ClientChain trp i (i :: (p ++ i :: q)) := by
      obtain ⟨rfl, hidx, hl⟩ := h
      exact ⟨rfl, hidx, hl⟩
    have hlength := congrArg List.length (hagain.unique hfirst)
    simp only [List.length_cons, List.length_append] at hlength
    omega

/-- A list that passes is a chain. -/
theorem checkClientList_sound
    {nrClients idx nr : Nat} {first : Bool}
    (h : checkClientList trp nrClients idx first = some nr) :
    ClientListSound trp idx := by
  suffices hchain : ∃ l, ClientChain trp idx l ∧ ∀ i ∈ l, clientEnd trp i ≤ systemPageSize trp by
    obtain ⟨l, hl, hin⟩ := hchain
    exact ⟨l, hl, hl.nodup, hin⟩
  induction nrClients generalizing idx first with
  | zero =>
    rw [checkClientList] at h
    split_ifs at h with hidx
    exact ⟨[], hidx, by simp⟩
  | succ nrClients ih =>
    rw [checkClientList] at h
    split_ifs at h with hidx hclients hend hprev
    · exact ⟨[], hidx, by simp⟩
    · obtain ⟨l, hl, hin⟩ := ih h
      refine ⟨idx :: l, ⟨rfl, hidx, hl⟩, List.forall_mem_cons.mpr ⟨by omega, hin⟩⟩

/-- Of a client array that passes, both lists are sound. -/
theorem checkLogClientArray_sound
    (h : checkLogClientArray trp) :
    ClientListSound trp (clientFreeList trp) ∧ ClientListSound trp (clientInUseList trp) := by
  unfold checkLogClientArray at h
  split_ifs at h
  split at h
  · cases h
  · rename_i nr hfree
    obtain ⟨nr', hinUse⟩ := Option.isSome_iff_exists.mp h
    exact ⟨checkClientList_sound hfree, checkClientList_sound hinUse⟩

variable {answers : LoadAnswers} {dataSize pos : Nat} {rp : Bytes}

theorem checkAndLoadRestartPage_cases
    (h : checkAndLoadRestartPage answers dataSize rp pos = .ok trp) :
    passes (restartPageChecks rp pos) ∧ (ClientsChecked rp → checkLogClientArray trp) := by
  unfold checkAndLoadRestartPage at h
  split at h
  · cases h
  rename_i hpass
  split at h
  · cases h
  split at h
  · cases h
  split_ifs at h with hmst hclients
  cases h
  simp only [not_and, Bool.not_eq_true', Bool.not_eq_false] at hclients
  exact ⟨not_not.mp hpass, hclients⟩

/-- What an accepted page would guarantee if the client lists were always checked. -/
structure PageSound (rp trp : Bytes) : Prop where
  usa : haveUsa rp → usaOfs rp + usaCount rp * 2 ≤ ntfsBlockSize ∧
    usaOfs rp + usaCount rp * 2 ≤ restartAreaOffset rp
  area : restartAreaOffset rp + restartAreaLength rp ≤ systemPageSize rp
  freeList : ClientListSound trp (clientFreeList trp)
  inUseList : ClientListSound trp (clientInUseList trp)

theorem usaEnd_of_passes
    (h : passes (restartPageChecks rp pos))
    (husa : haveUsa rp) :
    usaEnd rp ≤ 510 ∧ usaEnd rp ≤ restartAreaOffset rp := by
  simp only [restartPageChecks, restartPageHeaderChecks, passes_append, passes_cons, husa,
    Bool.not_true, Bool.false_or, Bool.and_eq_true, decide_eq_true_eq, ntfsBlockSize] at h
  exact ⟨of_decide_eq_true h.1.2.2.2.2.1.2, h.1.2.2.2.2.2.1.1.2⟩

theorem area_of_passes
    (h : passes (restartPageChecks rp pos)) :
    restartAreaOffset rp + restartAreaLength rp ≤ systemPageSize rp := by
  simp only [restartPageChecks, restartAreaFieldChecks, passes_append, passes_cons,
    Bool.and_eq_true, decide_eq_true_eq] at h
  exact h.2.1.2.2.2.1.1

/-- A page with one client record, in use, and no free one. -/
def oneClientPage : Bytes :=
  smallRestartPage 40 [(48, 1), (52, 0), (60, 208), (62, 48), (104, 0xffff), (106, 0xffff)]

/-- A page with one client record, free, that is its own successor. -/
def cyclicFreeListPage : Bytes :=
  smallRestartPage 40 [(48, 1), (50, 0), (60, 208), (62, 48)]

end Accepted

end NtfsPlus.Libntfs
