import NtfsPlus.Libntfs.Collate

/-!
# Entries of resident view indexes

`insert_index_entry_in_res_dir_index` puts an entry into the index root of a view index such
as `$SII`.  It looks for the place with `ntfs_index_keys_compare` and stops at a key for which
the answer is `-1`.  The rule for SIDs answers with what `memcmp` returns, so the place may be
passed; and the test for room never holds for a record that is allocated in full.
-/

namespace NtfsPlus.Mkntfs

open Libntfs

section Keys

/-- The rules of `ntfs_index_keys_compare`; `other` stands for those it does not support. -/
inductive ViewRule where
  | ulong
  | ulongs
  | securityHash
  | sid
  | other
deriving DecidableEq

/-- A key of a view index; the keys of `COLLATION_NTOFS_ULONGS` are made of 32-bit words. -/
structure ViewKey (rule : ViewRule) where
  bytes : Bytes
  length : Nat
  words : rule = .ulongs → length % 4 = 0

/-- `n` words are compared from word `i` on; `same` is the answer if there is no difference. -/
def compareWords (key1 key2 : Bytes) (same : Int) : Nat → Nat → Int
  | 0, _ => same
  | n + 1, i =>
    if le32 key1 (4 * i) < le32 key2 (4 * i) then -1
    else if le32 key1 (4 * i) > le32 key2 (4 * i) then 1
    else compareWords key1 key2 same n (i + 1)

/-- `ntfs_index_keys_compare`. -/
def indexKeysCompare {rule : ViewRule} (k1 k2 : ViewKey rule) : Int :=
  match rule with
  | .ulong => compareWords k1.bytes k2.bytes 0 1 0
  | .ulongs => compareWords k1.bytes k2.bytes
      (if k1.length < k2.length then -1 else if k1.length > k2.length then 1 else 0)
      (min k1.length k2.length / 4) 0
  -- the hash, then the security id
  | .securityHash => compareWords k1.bytes k2.bytes 0 2 0
  | .sid => collateBinary k1.bytes k1.length k2.bytes k2.length
  | .other => 0

/-- The words that a key is compared by. -/
def wordsFrom (key : Bytes) : Nat → Nat → List Nat
  | 0, _ => []
  | n + 1, i => le32 key (4 * i) :: wordsFrom key n (i + 1)

/-- What the keys of an index are ordered by. -/
def ViewKey.order : {rule : ViewRule} → ViewKey rule → List Nat
  | .ulong, k => wordsFrom k.bytes 1 0
  | .ulongs, k => wordsFrom k.bytes (k.length / 4) 0
  | .securityHash, k => wordsFrom k.bytes 2 0
  | .sid, k => seqList (fun i => (k.bytes i).toNat) k.length
  | .other, _ => []

theorem compareWords_decides
    (key1 key2 : Bytes)
    {same : Int} :
    ∀ {n1 n2 : Nat} (i : Nat),
      Decides same n1 n2 → Decides (compareWords key1 key2 same (min n1 n2) i)
        (wordsFrom key1 n1 i) (wordsFrom key2 n2 i)
  | 0, 0, _, h => h.imp (fun h => absurd h (lt_irrefl 0)) (fun _ => rfl)
      (fun h => absurd h (lt_irrefl 0))
  | 0, n2 + 1, _, h => h.imp (fun _ => List.nil_lt_cons _ _) (fun h => by omega)
      (fun h => by omega)
  | n1 + 1, 0, _, h => h.imp (fun h => by omega) (fun h => by omega)
      (fun _ => List.nil_lt_cons _ _)
  | n1 + 1, n2 + 1, i, h => by
    have hrest := @compareWords_decides key1 key2 same n1 n2 (i + 1)
      (h.imp Nat.lt_of_succ_lt_succ Nat.succ.inj Nat.lt_of_succ_lt_succ)
    rw [Nat.succ_min_succ]
    unfold compareWords wordsFrom
    refine decides_threeWay_then (fun d hd hne => ?_) (fun heq => ?_)
    · exact hd.imp (fun h => List.cons_lt_cons_iff.mpr (.inl h)) (fun h => absurd h hne)
        (fun h => List.cons_lt_cons_iff.mpr (.inl h))
    · rw [heq]
      exact hrest.imp List.cons_lt_cons_self.mpr (congrArg _) List.cons_lt_cons_self.mpr

theorem indexKeysCompare_decides
    {rule : ViewRule}
    (k1 k2 : ViewKey rule) :
    Decides (indexKeysCompare k1 k2) k1.order k2.order := by
  have hwords : ∀ n : Nat, Decides (compareWords k1.bytes k2.bytes 0 n 0)
      (wordsFrom k1.bytes n 0) (wordsFrom k2.bytes n 0) := fun n => by
    have hsame : Decides 0 n n := .inr (.inl ⟨rfl, rfl⟩)
    simpa using compareWords_decides k1.bytes k2.bytes 0 hsame
  cases rule with
  | ulong => exact hwords 1
  | ulongs =>
    have h1 := k1.words rfl
    have h2 := k2.words rfl
    have hlen := decides_threeWay k1.length k2.length
    have hmin : min k1.length k2.length / 4 = min (k1.length / 4) (k2.length / 4) := by omega
    rw [indexKeysCompare, hmin]
    refine compareWords_decides k1.bytes k2.bytes 0 (hlen.imp ?_ ?_ ?_) <;> intro <;> omega
  | securityHash => exact hwords 2
  | sid => exact collateBinary_decides k1.bytes k2.bytes k1.length k2.length
  | other => exact .inr (.inl ⟨rfl, rfl⟩)

end Keys

section Insertion

variable {rule : ViewRule}

/-- An index entry. -/
structure ViewEntry (rule : ViewRule) where
  key : ViewKey rule
  length : Nat

/-- The entries are in the order of the collation. -/
def Sorted (entries : List (ViewEntry rule)) : Prop :=
  entries.Pairwise fun a b => a.key.order < b.key.order

/-- An MFT record with a resident view index. -/
structure ViewRecord (rule : ViewRule) where
  bytesInUse : Nat
  bytesAllocated : Nat
  entries : List (ViewEntry rule)
  sorted : Sorted entries

/-- The search for the place and the insertion; `none` if the key is there (`EEXIST`). -/
def insertEntry (idx : ViewEntry rule) : List (ViewEntry rule) → Option (List (ViewEntry rule))
  | [] => some [idx]
  | e :: rest =>
    let i := indexKeysCompare idx.key e.key
    if i = 0 then none
    else if i = -1 then some (idx :: e :: rest)
    else (insertEntry idx rest).map (e :: ·)

/-- `insert_index_entry_in_res_dir_index` for a view index: the entries and `bytes_in_use`
afterwards.  What is moved ends there. -/
def insertIndexEntryInResDirIndex (mftRecordSize : Nat) (m : ViewRecord rule)
    (idx : ViewEntry rule) : Option (List (ViewEntry rule) × Nat) :=
  if mftRecordSize > idx.length + m.bytesAllocated then none
  else (insertEntry idx m.entries).map fun entries => (entries, m.bytesInUse + idx.length)

/-- The call fails, or the entry is added in order and nothing is written behind the record. -/
def Inserted (mftRecordSize : Nat) (m : ViewRecord rule) (idx : ViewEntry rule) : Prop :=
  ∀ r ∈ insertIndexEntryInResDirIndex mftRecordSize m idx,
    Sorted r.1 ∧ r.1.Perm (idx :: m.entries) ∧ r.2 ≤ m.bytesAllocated

/-- The first entry that does not collate before the new one is seen as such. -/
def PlaceSeen (idx : ViewEntry rule) (entries : List (ViewEntry rule)) : Prop :=
  ∀ e ∈ (entries.dropWhile fun e => 0 < indexKeysCompare idx.key e.key).head?,
    indexKeysCompare idx.key e.key = -1

theorem insertEntry_perm
    {idx : ViewEntry rule} :
    ∀ {entries L : List (ViewEntry rule)},
      insertEntry idx entries = some L → L.Perm (idx :: entries)
  | [], _, h => Option.some.inj h ▸ .refl _
  | e :: rest, L, h => by
    unfold insertEntry at h
    dsimp only at h
    split_ifs at h
    · exact Option.some.inj h ▸ .refl _
    · obtain ⟨L', hL', rfl⟩ := Option.map_eq_some_iff.mp h
      exact ((insertEntry_perm hL').cons e).trans (.swap idx e rest)

theorem insertEntry_sorted_iff
    {idx : ViewEntry rule} :
    ∀ {entries L : List (ViewEntry rule)},
      Sorted entries → insertEntry idx entries = some L → (Sorted L ↔ PlaceSeen idx entries)
  | [], L, _, h => by
    cases h
    exact iff_of_true (List.pairwise_singleton _ _) (by simp [PlaceSeen])
  | e :: rest, L, hsorted, h => by
    obtain ⟨hfirst, hrest⟩ := List.pairwise_cons.mp hsorted
    have hcode := indexKeysCompare_decides idx.key e.key
    unfold insertEntry at h
    dsimp only at h
    split_ifs at h with hzero hless
    · cases h
      have hlt := hcode.neg_iff.mp (by omega)
      refine iff_of_true (List.pairwise_cons.mpr ⟨fun x hx => ?_, hsorted⟩)
        (by simp [PlaceSeen, hless])
      rcases List.mem_cons.mp hx with rfl | hx
      · exact hlt
      · exact hlt.trans (hfirst x hx)
    · obtain ⟨L', hL', rfl⟩ := Option.map_eq_some_iff.mp h
      have hperm := insertEntry_perm hL'
      by_cases hpos : 0 < indexKeysCompare idx.key e.key
      · have hbefore : ∀ x ∈ L', e.key.order < x.key.order := fun x hx => by
          rcases List.mem_cons.mp (hperm.subset hx) with rfl | hx
          · exact hcode.pos_iff.mp hpos
          · exact hfirst x hx
        have hskip : PlaceSeen idx (e :: rest) ↔ PlaceSeen idx rest := by simp [PlaceSeen, hpos]
        rw [hskip, ← insertEntry_sorted_iff hrest hL']
        exact ⟨fun h => (List.pairwise_cons.mp h).2, fun h => List.pairwise_cons.mpr ⟨hbefore, h⟩⟩
      · refine iff_of_false (fun h => ?_) (by simpa [PlaceSeen, hpos] using hless)
        have hlt := (List.pairwise_cons.mp h).1 idx (hperm.symm.subset List.mem_cons_self)
        exact hpos (hcode.pos_iff.mpr hlt)

/-- The search for the place fails exactly when the key is there. -/
theorem insertEntry_eq_none_iff
    {idx : ViewEntry rule} :
    ∀ {entries : List (ViewEntry rule)},
      Sorted entries → (insertEntry idx entries = none ↔ ∃ e ∈ entries, e.key.order = idx.key.order)
  | [], _ => by simp [insertEntry]
  | e :: rest, hsorted => by
    obtain ⟨hfirst, hrest⟩ := List.pairwise_cons.mp hsorted
    have hcode := indexKeysCompare_decides idx.key e.key
    rw [insertEntry]
    split_ifs with hzero hless
    · exact iff_of_true rfl ⟨e, List.mem_cons_self, (hcode.zero_iff.mp hzero).symm⟩
    · -- the entries behind are greater still
      have hlt := hcode.neg_iff.mp (by omega)
      refine iff_of_false (by simp) ?_
      rintro ⟨x, hx, heq⟩
      rcases List.mem_cons.mp hx with rfl | hx
      · exact absurd heq hlt.ne'
      · exact absurd heq (hlt.trans (hfirst x hx)).ne'
    · rw [Option.map_eq_none_iff, insertEntry_eq_none_iff hrest, List.exists_mem_cons_iff,
        or_iff_right fun heq => hzero (hcode.zero_iff.mpr heq.symm)]

/-- A call that passes the test for room with a key that is not there is right exactly when the
record has room for the entry and the place of the entry is seen. -/
theorem insertIndexEntry_inserted_iff
    (mftRecordSize : Nat)
    (m : ViewRecord rule)
    (idx : ViewEntry rule) :
    Inserted mftRecordSize m idx ↔
      (mftRecordSize ≤ idx.length + m.bytesAllocated →
        (∀ e ∈ m.entries, e.key.order ≠ idx.key.order) →
        m.bytesInUse + idx.length ≤ m.bytesAllocated ∧ PlaceSeen idx m.entries) := by
  have hnone := @insertEntry_eq_none_iff rule idx m.entries m.sorted
  unfold Inserted insertIndexEntryInResDirIndex
  split
  · next hroom => simp [Nat.not_le.mpr hroom]
  · next hroom =>
    cases hinsert : insertEntry idx m.entries with
    | none =>
      obtain ⟨e, he, heq⟩ := hnone.mp hinsert
      exact iff_of_true (by simp) fun _ habsent => absurd heq (habsent e he)
    | some L =>
      have hiff := insertEntry_sorted_iff m.sorted hinsert
      have habsent : ∀ e ∈ m.entries, e.key.order ≠ idx.key.order := fun e he heq => by
        rw [hnone.mpr ⟨e, he, heq⟩] at hinsert
        cases hinsert
      rw [forall_prop_of_true (Nat.le_of_not_lt hroom), forall_prop_of_true habsent]
      simp [hiff, insertEntry_perm hinsert, and_comm]

/-- A SID index with the key `05` and the new key `03`; and a record without room. -/
theorem insertIndexEntry_misplaced :
    let key (b : UInt8) : ViewKey .sid := ⟨fun _ => b, 1, by decide⟩
    ¬Inserted 1024 ⟨500, 1024, [⟨key 5, 40⟩], List.pairwise_singleton _ _⟩ ⟨key 3, 40⟩ ∧
      ¬Inserted 1024 ⟨1024, 1024, [], List.Pairwise.nil⟩ ⟨key 3, 40⟩ := by
  refine ⟨fun h => ?_, fun h => ?_⟩
  · have hsorted := (h _ rfl).1
    exact absurd (List.rel_of_pairwise_cons hsorted List.mem_cons_self) (by decide)
  · exact absurd (h _ rfl).2.2 (by decide)

end Insertion

end NtfsPlus.Mkntfs
