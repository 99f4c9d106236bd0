import NtfsPlus.Lib.ByteMemory
import NtfsPlus.Lib.LexOrder

/-!
# Collation of index keys

The comparison functions of `libntfs/collate.c`.  A key is a pointer and a
length; the functions read the bytes behind the pointer, and two of them do
not look at the lengths.

`Acceptable` says which keys a rule is made for and `sortKey` what it sorts
them by.  `collate_decides` is the contract of all five functions: on
acceptable keys the code says how the sort keys compare.  On others the
`ULONG`, `ULONGS` and `SECURITY_HASH` rules answer `NTFS_COLLATION_ERROR`.
-/

namespace NtfsPlus.Libntfs

section Model

/-- The collation rules that `ntfs_get_collate_function` supports. -/
inductive CollationRule where
  | binary
  | fileName
  | securityHash
  | ulong
  | ulongs
deriving DecidableEq, Repr

/-- `NTFS_COLLATION_ERROR`. -/
def collationError : Int := -2

/-- `vol->upcase` and `vol->upcase_len`. -/
structure Upcase where
  table : Nat → Nat
  len : Nat

/-- The upper case of a character, if the table has it. -/
def Upcase.char (up : Upcase) (c : Nat) : Nat :=
  if c < up.len then up.table c else c

/--
`memcmp` of the `n` bytes from `i` on, as the C libraries compute it: the
difference of the first two bytes that differ.
-/
def memcmp (data1 data2 : Bytes) : Nat → Nat → Int
  | 0, _ => 0
  | n + 1, i =>
    if data1 i ≠ data2 i then
      ((data1 i).toNat : Int) - (data2 i).toNat
    else
      memcmp data1 data2 n (i + 1)

/-- `ntfs_collate_binary`. -/
def collateBinary (data1 : Bytes) (len1 : Nat) (data2 : Bytes) (len2 : Nat) : Int :=
  let rc := memcmp data1 data2 (min len1 len2) 0
  if rc = 0 ∧ len1 ≠ len2 then
    if len1 < len2 then -1 else 1
  else
    rc

/-- The code that the `NTOFS` rules give for two numbers. -/
def compareNat (d1 d2 : Nat) : Int :=
  if d1 < d2 then -1 else if d1 = d2 then 0 else 1

/-- `ntfs_collate_ntofs_ulong`. -/
def collateNtofsUlong (data1 : Bytes) (len1 : Nat) (data2 : Bytes) (len2 : Nat) : Int :=
  if len1 ≠ len2 ∨ len1 ≠ 4 then
    collationError
  else
    compareNat (le32 data1 0) (le32 data2 0)

/-- The loop of `ntfs_collate_ntofs_ulongs`: `n` more words after word `i`. -/
def ulongsScan (data1 data2 : Bytes) : Nat → Nat → Nat × Nat
  | 0, i => (le32 data1 (4 * i), le32 data2 (4 * i))
  | n + 1, i =>
    if le32 data1 (4 * i) = le32 data2 (4 * i) then
      ulongsScan data1 data2 n (i + 1)
    else
      (le32 data1 (4 * i), le32 data2 (4 * i))

/-- `ntfs_collate_ntofs_ulongs`. -/
def collateNtofsUlongs (data1 : Bytes) (len1 : Nat) (data2 : Bytes) (len2 : Nat) : Int :=
  if len1 ≠ len2 ∨ len1 = 0 ∨ len1 % 4 ≠ 0 then
    collationError
  else
    let d := ulongsScan data1 data2 (len1 / 4 - 1) 0
    compareNat d.1 d.2

/-- `ntfs_collate_ntofs_security_hash`. -/
def collateNtofsSecurityHash (data1 : Bytes) (len1 : Nat) (data2 : Bytes) (len2 : Nat) : Int :=
  if len1 ≠ len2 ∨ len1 ≠ 8 then
    collationError
  else if le32 data1 0 < le32 data2 0 then
    -1
  else if le32 data1 0 > le32 data2 0 then
    1
  else if le32 data1 4 < le32 data2 4 then
    -1
  else if le32 data1 4 > le32 data2 4 then
    1
  else
    0

/-- Character `i` of a name. -/
def nameChar (name : Bytes) (i : Nat) : Nat :=
  le16 name (2 * i)

/--
The loop of `ntfs_names_full_collate` that skips equal characters; the counter
is decremented before each test.
-/
def skipEqual (name1 name2 : Bytes) : Nat → Nat → Nat × Nat
  | 0, p => (p, 0)
  | cnt + 1, p =>
    if cnt ≠ 0 ∧ nameChar name1 p = nameChar name2 p then
      skipEqual name1 name2 cnt (p + 1)
    else
      (p, cnt)

/-- The loop that compares `cnt` more characters in upper case, from `p` on. -/
def compareUpcase (up : Upcase) (name1 name2 : Bytes) : Nat → Nat → Nat × Nat
  | 0, p => (up.char (nameChar name1 p), up.char (nameChar name2 p))
  | cnt + 1, p =>
    if up.char (nameChar name1 p) = up.char (nameChar name2 p) then
      compareUpcase up name1 name2 cnt (p + 1)
    else
      (up.char (nameChar name1 p), up.char (nameChar name2 p))

/-- `ntfs_names_full_collate`. -/
def namesFullCollate (name1 : Bytes) (len1 : Nat) (name2 : Bytes) (len2 : Nat)
    (ignoreCase : Bool) (up : Upcase) : Int :=
  let cnt := min len1 len2
  let byLength : Int := if len1 < len2 then -1 else if len1 > len2 then 1 else 0
  if cnt > 0 then
    if ignoreCase then
      let u := compareUpcase up name1 name2 (cnt - 1) 0
      if u.1 < u.2 then -1 else if u.1 > u.2 then 1 else byLength
    else
      let s := skipEqual name1 name2 cnt 0
      let c1 := nameChar name1 s.1
      let c2 := nameChar name2 s.1
      let u :=
        if up.char c1 = up.char c2 ∧ s.2 ≠ 0 then
          compareUpcase up name1 name2 (s.2 - 1) (s.1 + 1)
        else
          (up.char c1, up.char c2)
      if u.1 < u.2 then -1
      else if u.1 > u.2 then 1
      else if len1 < len2 then -1
      else if len1 > len2 then 1
      else if c1 < c2 then -1
      else if c1 > c2 then 1
      else 0
  else
    byLength

/-- `file_name_length` of a `FILE_NAME_ATTR`. -/
def fileNameLength (data : Bytes) : Nat :=
  (data 64).toNat

/-- `file_name` of a `FILE_NAME_ATTR`. -/
def fileNameOf (data : Bytes) : Bytes :=
  fun i => data (66 + i)

/-- `ntfs_collate_file_name`, which does not look at the lengths of the keys. -/
def collateFileName (up : Upcase) (data1 data2 : Bytes) : Int :=
  namesFullCollate (fileNameOf data1) (fileNameLength data1)
    (fileNameOf data2) (fileNameLength data2) false up

/-- The function that `ntfs_get_collate_function` returns. -/
def collate (rule : CollationRule) (up : Upcase)
    (data1 : Bytes) (len1 : Nat) (data2 : Bytes) (len2 : Nat) : Int :=
  match rule with
  | .binary => collateBinary data1 len1 data2 len2
  | .fileName => collateFileName up data1 data2
  | .securityHash => collateNtofsSecurityHash data1 len1 data2 len2
  | .ulong => collateNtofsUlong data1 len1 data2 len2
  | .ulongs => collateNtofsUlongs data1 len1 data2 len2

end Model

section SortKeys

/-- What a key is sorted by: first by one list, then by another. -/
abbrev SortKey := List Nat ×ₗ List Nat

/-- The rule is made for keys like this one. -/
def Acceptable (rule : CollationRule) (data : Bytes) (len : Nat) : Prop :=
  match rule with
  | .binary => True
  | .fileName => 66 + 2 * fileNameLength data ≤ len
  | .securityHash => len = 8
  | .ulong => len = 4
  | .ulongs => 0 < len ∧ len % 4 = 0

instance (rule : CollationRule) (data : Bytes) (len : Nat) :
    Decidable (Acceptable rule data len) := by
  cases rule <;> simp only [Acceptable] <;> infer_instance

/-- What the rule sorts the key by. -/
def sortKey (rule : CollationRule) (up : Upcase) (data : Bytes) (len : Nat) : SortKey :=
  match rule with
  | .binary => toLex (seqList (fun i => (data i).toNat) len, [])
  | .fileName =>
    toLex (seqList (fun i => up.char (nameChar (fileNameOf data) i)) (fileNameLength data),
      seqList (nameChar (fileNameOf data)) (fileNameLength data))
  | .securityHash => toLex (seqList (fun i => le32 data (4 * i)) 2, [])
  | .ulong => toLex (seqList (fun i => le32 data (4 * i)) 1, [])
  | .ulongs => toLex (seqList (fun i => le32 data (4 * i)) (len / 4), [])

/-- Two keys the rule can compare. -/
def Comparable (rule : CollationRule) (data1 : Bytes) (len1 : Nat)
    (data2 : Bytes) (len2 : Nat) : Prop :=
  Acceptable rule data1 len1 ∧ Acceptable rule data2 len2 ∧ (rule = .ulongs → len1 = len2)

theorem decides_toLex_nil
    {a b : List Nat} {c : Int}
    (h : Decides c a b) :
    Decides c (toLex (a, ([] : List Nat))) (toLex (b, ([] : List Nat))) :=
  h.imp (fun h => Prod.Lex.toLex_lt_toLex.mpr (Or.inl h)) (fun h => by rw [h])
    (fun h => Prod.Lex.toLex_lt_toLex.mpr (Or.inl h))

/-- `compareNat` is the three-way comparison. -/
theorem compareNat_eq
    (d1 d2 : Nat) :
    compareNat d1 d2 = if d1 < d2 then -1 else if d1 > d2 then 1 else 0 := by
  unfold compareNat
  split_ifs <;> first | rfl | omega

end SortKeys

section Contracts

/-- `memcmp` answers with the difference of the first bytes that differ. -/
theorem memcmp_spec
    (m1 m2 : Bytes)
    (n i : Nat)
    (hsame : ∀ j < i, m1 j = m2 j) :
    (memcmp m1 m2 n i = 0 ∧ ∀ j < i + n, m1 j = m2 j) ∨
    (∃ p < i + n, (∀ j < p, m1 j = m2 j) ∧ m1 p ≠ m2 p ∧
      memcmp m1 m2 n i = ((m1 p).toNat : Int) - (m2 p).toNat) := by
  induction n generalizing i with
  | zero => exact Or.inl ⟨rfl, hsame⟩
  | succ n ih =>
    rw [memcmp]
    by_cases heq : m1 i = m2 i
    · rw [if_neg (not_not.mpr heq), show i + (n + 1) = i + 1 + n by omega]
      exact ih (i + 1) (Nat.forall_lt_succ_right.mpr ⟨hsame, heq⟩)
    · rw [if_pos heq]
      exact Or.inr ⟨i, by omega, hsame, heq, rfl⟩

/-- Binary keys compare byte by byte. -/
theorem collateBinary_decides
    (m1 m2 : Bytes)
    (len1 len2 : Nat) :
    Decides (collateBinary m1 len1 m2 len2)
      (seqList (fun i => (m1 i).toNat) len1) (seqList (fun i => (m2 i).toNat) len2) := by
  unfold collateBinary
  dsimp only
  rcases memcmp_spec m1 m2 (min len1 len2) 0 (fun j hj => by omega) with
    ⟨hzero, hall⟩ | ⟨p, hp, hbefore, hdiff, hval⟩
  · rw [hzero]
    apply decides_seqList_of_agree
    · intro i hi
      rw [hall i (by omega)]
    · split_ifs with h1 h2
      · exact Or.inl ⟨by decide, h2⟩
      · exact Or.inr (Or.inr ⟨by decide, by omega⟩)
      · exact Or.inr (Or.inl ⟨rfl, by simpa using h1⟩)
  · have hne : (m1 p).toNat ≠ (m2 p).toNat := fun h => hdiff (UInt8.toNat_inj.mp h)
    apply decides_seqList_of_diff (p := p) (by omega) (by omega)
    · intro i hi
      rw [hbefore i hi]
    · rcases Nat.lt_or_gt_of_ne hne with hlt | hgt
      · exact Or.inl ⟨by omega, hlt⟩
      · exact Or.inr (Or.inr ⟨by omega, hgt⟩)
    · exact hne

/-- Keys of words compare word by word. -/
theorem collateNtofsUlongs_decides
    (m1 m2 : Bytes)
    {len : Nat}
    (hpos : 0 < len)
    (hmod : len % 4 = 0) :
    Decides (collateNtofsUlongs m1 len m2 len) (seqList (fun i => le32 m1 (4 * i)) (len / 4))
      (seqList (fun i => le32 m2 (4 * i)) (len / 4)) := by
  unfold collateNtofsUlongs
  rw [if_neg (by omega)]
  obtain ⟨p, hp, hval⟩ := exists_firstDiff (L := ulongsScan m1 m2) (fun _ => rfl)
    (fun _ _ => rfl) (len / 4 - 1) 0 (fun j hj => by omega)
  rw [show 0 + (len / 4 - 1) + 1 = min (len / 4) (len / 4) by omega] at hp
  rw [hval, compareNat_eq]
  exact hp.decides (Or.inr (Or.inl ⟨rfl, rfl⟩))

theorem collateNtofsUlong_decides
    (m1 m2 : Bytes) :
    Decides (collateNtofsUlong m1 4 m2 4)
      (seqList (fun i => le32 m1 (4 * i)) 1) (seqList (fun i => le32 m2 (4 * i)) 1) := by
  have h := collateNtofsUlongs_decides m1 m2 (show 0 < 4 by decide) (by decide)
  simpa [collateNtofsUlongs, collateNtofsUlong, ulongsScan] using h

/-- Security keys compare by hash and then by id. -/
theorem collateNtofsSecurityHash_decides
    (m1 m2 : Bytes) :
    Decides (collateNtofsSecurityHash m1 8 m2 8)
      (seqList (fun i => le32 m1 (4 * i)) 2) (seqList (fun i => le32 m2 (4 * i)) 2) := by
  have h := collateNtofsUlongs_decides m1 m2 (show 0 < 8 by decide) (by decide)
  have hsame : collateNtofsSecurityHash m1 8 m2 8 = collateNtofsUlongs m1 8 m2 8 := by
    simp only [collateNtofsUlongs, collateNtofsSecurityHash, ulongsScan, compareNat]
    simp only [ne_eq, not_true_eq_false, or_self, OfNat.ofNat_ne_zero, Nat.zero_add, Nat.mul_one]
    by_cases hfirst : le32 m1 0 = le32 m2 0
    · split_ifs <;> first | rfl | omega
    · split_ifs <;> first | rfl | omega
  rw [hsame]
  exact h

/-- The skipping loop ends at the first difference or at the last common character. -/
theorem skipEqual_spec
    (m1 m2 : Bytes)
    (cnt p : Nat)
    (hbefore : ∀ j < p, nameChar m1 j = nameChar m2 j) :
    ∃ q, FirstDiff (nameChar m1) (nameChar m2) (p + cnt + 1) q ∧
      skipEqual m1 m2 (cnt + 1) p = (q, p + cnt - q) := by
  induction cnt generalizing p with
  | zero =>
    refine ⟨p, ⟨Nat.lt_succ_self p, hbefore,
      fun heq => Nat.forall_lt_succ_right.mpr ⟨hbefore, heq⟩⟩, ?_⟩
    simp [skipEqual]
  | succ cnt ih =>
    rw [skipEqual]
    by_cases heq : nameChar m1 p = nameChar m2 p
    · rw [if_pos ⟨by omega, heq⟩]
      obtain ⟨q, hq, hval⟩ := ih (p + 1) (Nat.forall_lt_succ_right.mpr ⟨hbefore, heq⟩)
      rw [show p + 1 + cnt = p + (cnt + 1) by omega] at hq hval
      exact ⟨q, hq, hval⟩
    · rw [if_neg (fun h => heq h.2)]
      refine ⟨p, ⟨by omega, hbefore, fun h => absurd h heq⟩, ?_⟩
      congr 1
      omega

/--
`ntfs_names_full_collate` with `CASE_SENSITIVE`: by the names in upper case,
then by the names themselves.
-/
theorem namesFullCollate_decides
    (up : Upcase)
    (m1 m2 : Bytes)
    (len1 len2 : Nat) :
    Decides (namesFullCollate m1 len1 m2 len2 false up)
      (toLex (seqList (fun i => up.char (nameChar m1 i)) len1, seqList (nameChar m1) len1))
      (toLex (seqList (fun i => up.char (nameChar m2 i)) len2, seqList (nameChar m2) len2)) := by
  unfold namesFullCollate
  by_cases hcnt : min len1 len2 > 0
  · rw [if_pos hcnt, if_neg (by decide)]
    obtain ⟨q, hq, hskip⟩ := skipEqual_spec m1 m2 (min len1 len2 - 1) 0 (fun j hj => by omega)
    rw [show min len1 len2 - 1 + 1 = min len1 len2 by omega, Nat.zero_add] at hskip
    rw [show 0 + (min len1 len2 - 1) + 1 = min len1 len2 by omega] at hq
    have hupper : ∀ j < q, up.char (nameChar m1 j) = up.char (nameChar m2 j) :=
      fun j hj => congrArg up.char (hq.before j hj)
    rw [hskip]
    dsimp only
    -- `r` is where the upper case comparison stopped
    obtain ⟨r, hr, hu⟩ : ∃ r, FirstDiff (fun i => up.char (nameChar m1 i))
          (fun i => up.char (nameChar m2 i)) (min len1 len2) r ∧
        (if up.char (nameChar m1 q) = up.char (nameChar m2 q) ∧ min len1 len2 - 1 - q ≠ 0 then
          compareUpcase up m1 m2 (min len1 len2 - 1 - q - 1) (q + 1)
        else (up.char (nameChar m1 q), up.char (nameChar m2 q))) =
          (up.char (nameChar m1 r), up.char (nameChar m2 r)) := by
      split_ifs with hmore
      · obtain ⟨r, hr, hval⟩ := exists_firstDiff (L := compareUpcase up m1 m2) (fun _ => rfl)
          (fun _ _ => rfl) (min len1 len2 - 1 - q - 1) (q + 1)
          (Nat.forall_lt_succ_right.mpr ⟨hupper, hmore.1⟩)
        rw [show q + 1 + (min len1 len2 - 1 - q - 1) + 1 = min len1 len2 by omega] at hr
        exact ⟨r, hr, hval⟩
      · refine ⟨q, ⟨hq.lt, hupper, fun heq => ?_⟩, rfl⟩
        have hlast : min len1 len2 = q + 1 := by
          have := hq.lt
          have := not_and_not_right.mp hmore heq
          omega
        rw [hlast]
        exact Nat.forall_lt_succ_right.mpr ⟨hupper, heq⟩
    rw [hu]
    have hlt := hr.lt
    refine decides_threeWay_then (fun d hd hne => ?_) (fun hsame => ?_)
    · exact decides_toLex_left (decides_seqList_of_diff (by omega) (by omega) hr.before hd hne)
        (hd.zero_iff.not.mpr hne)
    -- equal in upper case as far as both names go
    · have hall := hr.same hsame
      refine decides_threeWay_then (fun d hd hne => ?_) (fun hlen => ?_)
      · exact decides_toLex_left (decides_seqList_of_agree hall hd)
          (hd.zero_iff.not.mpr hne)
      · subst hlen
        rw [min_self] at hall
        rw [seqList_congr hall]
        exact decides_toLex_right (hq.decides (Or.inr (Or.inl ⟨rfl, rfl⟩)))
  · -- one of the names is empty
    rw [if_neg hcnt]
    refine decides_threeWay_then (fun d hd hne => ?_) (fun hlen => ?_)
    · exact decides_toLex_left (decides_seqList_of_agree (fun i hi => by omega) hd)
        (hd.zero_iff.not.mpr hne)
    · obtain rfl : len1 = 0 := by omega
      subst hlen
      exact Or.inr (Or.inl ⟨rfl, rfl⟩)

/-- The contract of the collation functions: the code says how the sort keys compare. -/
theorem collate_decides
    {rule : CollationRule}
    (up : Upcase)
    {m1 m2 : Bytes} {len1 len2 : Nat}
    (h : Comparable rule m1 len1 m2 len2) :
    Decides (collate rule up m1 len1 m2 len2)
      (sortKey rule up m1 len1) (sortKey rule up m2 len2) := by
  obtain ⟨h1, h2, hsame⟩ := h
  cases rule with
  | binary => exact decides_toLex_nil (collateBinary_decides m1 m2 len1 len2)
  | fileName => exact namesFullCollate_decides up _ _ _ _
  | securityHash =>
    have hl1 : len1 = 8 := h1
    have hl2 : len2 = 8 := h2
    subst hl1 hl2
    exact decides_toLex_nil (collateNtofsSecurityHash_decides m1 m2)
  | ulong =>
    have hl1 : len1 = 4 := h1
    have hl2 : len2 = 4 := h2
    subst hl1 hl2
    exact decides_toLex_nil (collateNtofsUlong_decides m1 m2)
  | ulongs =>
    have hl := hsame rfl
    subst hl
    exact decides_toLex_nil (collateNtofsUlongs_decides m1 m2 h1.1 h1.2)

end Contracts

section Keys

/-- Memory that starts with the bytes of a key. -/
def bytesOf (k : List UInt8) : Bytes :=
  fun i => k.getD i 0

/-- Memory starts with the key. -/
def StartsWith (m : Bytes) (k : List UInt8) : Prop :=
  ∀ i < k.length, m i = bytesOf k i

theorem startsWith_bytesOf
    (k : List UInt8) :
    StartsWith (bytesOf k) k :=
  fun _ _ => rfl

/-- The key of a given length at an address. -/
def keyAt (m : Bytes) (pos len : Nat) : List UInt8 :=
  seqList (fun i => m (pos + i)) len

theorem startsWith_keyAt
    (m : Bytes)
    (pos len : Nat) :
    StartsWith (fun i => m (pos + i)) (keyAt m pos len) := by
  intro i hi
  have hi' : i < len := by simpa [keyAt] using hi
  simp [bytesOf, keyAt, hi']

/-- Key `a` collates before key `b`. -/
def KeyLess (rule : CollationRule) (up : Upcase) (a b : List UInt8) : Prop :=
  Comparable rule (bytesOf a) a.length (bytesOf b) b.length ∧
    sortKey rule up (bytesOf a) a.length < sortKey rule up (bytesOf b) b.length

variable {rule : CollationRule} {a b : List UInt8}

theorem KeyLess.trans
    {up : Upcase} {c : List UInt8}
    (hab : KeyLess rule up a b)
    (hbc : KeyLess rule up b c) :
    KeyLess rule up a c :=
  ⟨⟨hab.1.1, hbc.1.2.1, fun h => (hab.1.2.2 h).trans (hbc.1.2.2 h)⟩, lt_trans hab.2 hbc.2⟩

variable {m m1 m2 : Bytes} {k : List UInt8}

/-- Whether a rule accepts a key depends on the bytes of the key. -/
theorem acceptable_congr
    (h : StartsWith m k) :
    Acceptable rule m k.length ↔ Acceptable rule (bytesOf k) k.length := by
  cases rule with
  | fileName =>
    simp only [Acceptable, fileNameLength]
    by_cases hlen : 64 < k.length
    · rw [h 64 hlen]
    · constructor <;> intro hle <;> omega
  | binary | securityHash | ulong | ulongs => exact Iff.rfl

/-- What a rule sorts an acceptable key by depends on the bytes of the key. -/
theorem sortKey_congr
    (up : Upcase)
    (h : StartsWith m k)
    (hacc : Acceptable rule (bytesOf k) k.length) :
    sortKey rule up m k.length = sortKey rule up (bytesOf k) k.length := by
  have hword : ∀ i n, 4 * n ≤ k.length → i < n → le32 m (4 * i) = le32 (bytesOf k) (4 * i) := by
    intro i n hn hi
    exact leNat_congr (fun j hj => h (4 * i + j) (by omega))
  cases rule with
  | binary =>
    simp only [sortKey]
    rw [seqList_congr (fun i hi => by rw [h i hi])]
  | fileName =>
    have hlen : 66 + 2 * fileNameLength (bytesOf k) ≤ k.length := hacc
    have hsame : fileNameLength m = fileNameLength (bytesOf k) := by
      rw [fileNameLength, fileNameLength, h 64 (by omega)]
    have hchar : ∀ i < fileNameLength (bytesOf k),
        nameChar (fileNameOf m) i = nameChar (fileNameOf (bytesOf k)) i := by
      intro i hi
      apply leNat_congr
      intro j hj
      exact h _ (by omega)
    simp only [sortKey, hsame]
    rw [seqList_congr (fun i hi => by rw [hchar i hi]), seqList_congr hchar]
  | securityHash =>
    have hlen : k.length = 8 := hacc
    simp only [sortKey]
    rw [seqList_congr (fun i hi => hword i 2 (by omega) hi)]
  | ulong =>
    have hlen : k.length = 4 := hacc
    simp only [sortKey]
    rw [seqList_congr (fun i hi => hword i 1 (by omega) hi)]
  | ulongs =>
    simp only [sortKey]
    rw [seqList_congr (fun i hi => hword i (k.length / 4) (by omega) hi)]

/-- The collation function compares keys, whatever lies behind them in memory. -/
theorem collate_decides_keys
    (up : Upcase)
    (h1 : StartsWith m1 a)
    (h2 : StartsWith m2 b)
    (h : Comparable rule (bytesOf a) a.length (bytesOf b) b.length) :
    Decides (collate rule up m1 a.length m2 b.length)
      (sortKey rule up (bytesOf a) a.length) (sortKey rule up (bytesOf b) b.length) := by
  rw [← sortKey_congr up h1 h.1, ← sortKey_congr up h2 h.2.1]
  exact collate_decides up ⟨(acceptable_congr h1).mpr h.1, (acceptable_congr h2).mpr h.2.1, h.2.2⟩

/-- A negative code says that the first key is less. -/
theorem collate_neg_iff
    (up : Upcase)
    (h1 : StartsWith m1 a)
    (h2 : StartsWith m2 b)
    (h : Comparable rule (bytesOf a) a.length (bytesOf b) b.length) :
    collate rule up m1 a.length m2 b.length < 0 ↔ KeyLess rule up a b := by
  rw [(collate_decides_keys up h1 h2 h).neg_iff]
  exact ⟨fun hlt => ⟨h, hlt⟩, fun hless => hless.2⟩

end Keys

end NtfsPlus.Libntfs
