import NtfsPlus.Lib.BitField
import NtfsPlus.Lib.SignedBytes
import NtfsPlus.Libntfs.Collate

/-!
# The in-order walk over an index

`ntfsck_check_entries_order` walks over an index tree in key order and
compares each key with the one before it; the blocks it descends into are
recorded in a bitmap.  The walk works on the raw contents of the root and of
the index blocks, which may be anything.

`entriesVisits` lists what such a walk meets, blocks and keys, without any
check.  A walk that ends with `STATUS_OK` has compared every two neighbouring
keys that are both nonempty (`Passed`), and nothing more.
-/

namespace NtfsPlus.Ntfsck

open Libntfs SignedBytes

section Model

/-- The index that is walked over. -/
structure OrderIndex where
  rule : CollationRule
  up : Upcase
  vcnSizeBits : Nat
  blockSize : Nat
  maxIbBits : Nat
  /-- `ntfs_attr_mst_pread` of the block at a VCN. -/
  readBlock : Int → Option Bytes

/-- `STATUS_OK`, `STATUS_ERROR` or `NTFSCK_ORDER_DUPLICATE`. -/
inductive OrderStatus where
  | ok
  | error
  | duplicate
deriving DecidableEq, Repr

/-- The fields of `struct ntfsck_order_walk` that change. -/
structure OrderWalk where
  prevKey : Bytes
  prevKeyLen : Nat
  visited : Bytes

/-- `ie->length`. -/
def ieLength (m : Bytes) (ie : Nat) : Nat :=
  le16 m (ie + 8)

/-- `ie->key_length`. -/
def ieKeyLength (m : Bytes) (ie : Nat) : Nat :=
  le16 m (ie + 10)

/-- `ie->ie_flags & INDEX_ENTRY_NODE`. -/
def ieIsNode (m : Bytes) (ie : Nat) : Bool :=
  (le16 m (ie + 12)).testBit 0

/-- `ie->ie_flags & INDEX_ENTRY_END`. -/
def ieIsEnd (m : Bytes) (ie : Nat) : Bool :=
  (le16 m (ie + 12)).testBit 1

/-- `ntfs_ie_get_vcn`: the last eight bytes of the entry. -/
def ieGetVcn (m : Bytes) (ie : Nat) : Int :=
  s64 (le64 m (ie + ieLength m ie - 8))

/-- The bit of the index bitmap for the block at a VCN. -/
def OrderIndex.bmpBit (ictx : OrderIndex) (vcn : Int) : Nat :=
  ((vcn * 2 ^ ictx.vcnSizeBits) % 2 ^ 64).toNat / ictx.blockSize

/-- `memcpy` of a key to the start of a buffer. -/
def copyKey (dst : Bytes) (src : Bytes) (pos len : Nat) : Bytes :=
  fun i => if i < len then src (pos + i) else dst i

/-- The part of the walk that descends into the sub-node of an entry. -/
def descendOrder (ictx : OrderIndex)
    (sub : Int → OrderWalk → OrderStatus × OrderWalk)
    (subVcn : Int) (ow : OrderWalk) : OrderStatus × OrderWalk :=
  if subVcn < 0 then
    (.error, ow)
  else if ictx.bmpBit subVcn ≥ ictx.maxIbBits ∨ bitGet ow.visited (ictx.bmpBit subVcn) ≠ 0 then
    (.error, ow)
  else
    sub subVcn { ow with visited := bitSet ow.visited (ictx.bmpBit subVcn) 1 }

/--
`ntfsck_check_entries_order` from the entry at `ie` on, for at most as many
entries as the first argument says; `sub` is `ntfsck_check_subtree_order`.
-/
def checkEntriesOrder (ictx : OrderIndex)
    (sub : Int → OrderWalk → OrderStatus × OrderWalk)
    (entries : Bytes) (entriesEnd : Nat) :
    Nat → Nat → OrderWalk → OrderStatus × OrderWalk
  | 0, _, ow => (.error, ow)
  | n + 1, ie, ow =>
    if ie + 16 > entriesEnd ∨ ie + ieLength entries ie > entriesEnd then
      (.error, ow)
    else
      let r :=
        if ieIsNode entries ie then
          descendOrder ictx sub (ieGetVcn entries ie) ow
        else
          (.ok, ow)
      if r.1 ≠ .ok then
        r
      else if ieIsEnd entries ie ∨ ieLength entries ie = 0 then
        (.ok, r.2)
      else
        let keyLen := ieKeyLength entries ie
        let cmp := collate ictx.rule ictx.up r.2.prevKey r.2.prevKeyLen
          (fun i => entries (ie + 16 + i)) keyLen
        if 16 + keyLen > ieLength entries ie then
          (.error, r.2)
        else if r.2.prevKeyLen ≠ 0 ∧ keyLen ≠ 0 ∧ cmp > 0 then
          (.error, r.2)
        else if r.2.prevKeyLen ≠ 0 ∧ keyLen ≠ 0 ∧ cmp = 0 then
          (.duplicate, r.2)
        else
          checkEntriesOrder ictx sub entries entriesEnd n (ie + ieLength entries ie)
            ⟨copyKey r.2.prevKey entries (ie + 16) keyLen, keyLen, r.2.visited⟩

/-- `index.entries_offset` and `index.index_length` of an index block. -/
def ibEntriesOffset (ib : Bytes) : Nat :=
  le32 ib 24

@[inherit_doc ibEntriesOffset]
def ibIndexLength (ib : Bytes) : Nat :=
  le32 ib 28

/-- `NTFSCK_MAX_INDEX_DEPTH`. -/
def maxIndexDepth : Nat := 16

/--
`ntfsck_check_subtree_order`; the first argument is the number of levels that
are left until `NTFSCK_MAX_INDEX_DEPTH`.
-/
def checkSubtreeOrder (ictx : OrderIndex) : Nat → Int → OrderWalk → OrderStatus × OrderWalk
  | 0, _, ow => (.error, ow)
  | depth + 1, vcn, ow =>
    match ictx.readBlock vcn with
    | none => (.error, ow)
    | some ib =>
      if ibEntriesOffset ib < 16 ∨ ibIndexLength ib < ibEntriesOffset ib ∨
          24 + ibIndexLength ib > ictx.blockSize then
        (.error, ow)
      else
        checkEntriesOrder ictx (checkSubtreeOrder ictx depth) ib (24 + ibIndexLength ib)
          (ibIndexLength ib) (24 + ibEntriesOffset ib) ow

/-- The walk that `ntfsck_validate_index_blocks` starts at the entries of the root. -/
def checkIndexOrder (ictx : OrderIndex) (irBuf : Bytes) (start irEnd : Nat) (prevKey : Bytes) :
    OrderStatus × OrderWalk :=
  checkEntriesOrder ictx (checkSubtreeOrder ictx maxIndexDepth) irBuf irEnd irEnd start
    ⟨prevKey, 0, fun _ => 0⟩

end Model

section Visits

/-- What an in-order walk meets. -/
inductive Visit where
  | block (bit : Nat)
  | key (k : List UInt8)

/-- What a walk meets from the entry at `ie` on; `sub` is what it meets in a sub-node. -/
def entriesVisits (ictx : OrderIndex) (sub : Int → List Visit) (entries : Bytes) :
    Nat → Nat → List Visit
  | 0, _ => []
  | n + 1, ie =>
    let inner :=
      if ieIsNode entries ie then
        .block (ictx.bmpBit (ieGetVcn entries ie)) :: sub (ieGetVcn entries ie)
      else
        []
    if ieIsEnd entries ie ∨ ieLength entries ie = 0 then
      inner
    else
      inner ++ .key (keyAt entries (ie + 16) (ieKeyLength entries ie)) ::
        entriesVisits ictx sub entries n (ie + ieLength entries ie)

/-- What a walk meets in the block at a VCN, over a number of levels. -/
def subtreeVisits (ictx : OrderIndex) : Nat → Int → List Visit
  | 0, _ => []
  | depth + 1, vcn =>
    match ictx.readBlock vcn with
    | none => []
    | some ib =>
      entriesVisits ictx (subtreeVisits ictx depth) ib (ibIndexLength ib) (24 + ibEntriesOffset ib)

/-- What a walk from the root meets. -/
def indexVisits (ictx : OrderIndex) (irBuf : Bytes) (start irEnd : Nat) : List Visit :=
  entriesVisits ictx (subtreeVisits ictx maxIndexDepth) irBuf irEnd start

/-- The keys among the visits. -/
def keysOf : List Visit → List (List UInt8)
  | [] => []
  | .key k :: rest => k :: keysOf rest
  | .block _ :: rest => keysOf rest

/-- The blocks among the visits, one for each sub-node pointer. -/
def blocksOf : List Visit → List Nat
  | [] => []
  | .key _ :: rest => blocksOf rest
  | .block b :: rest => b :: blocksOf rest

@[simp] theorem keysOf_append
    (a b : List Visit) :
    keysOf (a ++ b) = keysOf a ++ keysOf b := by
  induction a with
  | nil => rfl
  | cons v a ih => cases v <;> simp [keysOf, ih]

@[simp] theorem blocksOf_append
    (a b : List Visit) :
    blocksOf (a ++ b) = blocksOf a ++ blocksOf b := by
  induction a with
  | nil => rfl
  | cons v a ih => cases v <;> simp [blocksOf, ih]

end Visits

section Walk

/-- The walk compared the two keys and found them ascending, or one of them is empty. -/
def Passed (rule : CollationRule) (up : Upcase) (a b : List UInt8) : Prop :=
  a ≠ [] → b ≠ [] →
    ∃ m1 m2, StartsWith m1 a ∧ StartsWith m2 b ∧ collate rule up m1 a.length m2 b.length < 0

/-- The walk remembers the key. -/
def Remembers (ow : OrderWalk) (k : List UInt8) : Prop :=
  ow.prevKeyLen = k.length ∧ StartsWith ow.prevKey k

/--
A stretch of the walk: its keys pass one after the other, the last one is
remembered, and its blocks were new, each one met once.
-/
structure Stretch (ictx : OrderIndex) (ow ow' : OrderWalk) (visits : List Visit) : Prop where
  keys : ∀ k, Remembers ow k → (k :: keysOf visits).IsChain (Passed ictx.rule ictx.up) ∧
      Remembers ow' ((keysOf visits).getLastD k)
  nodup : (blocksOf visits).Nodup
  fresh : ∀ b ∈ blocksOf visits, bitAt ow.visited b = false
  visited : ∀ b, bitAt ow'.visited b = (bitAt ow.visited b || decide (b ∈ blocksOf visits))

theorem Stretch.nil
    (ictx : OrderIndex)
    (ow : OrderWalk) :
    Stretch ictx ow ow [] := by
  refine ⟨fun k hk => ⟨List.isChain_singleton k, hk⟩, List.nodup_nil, ?_, ?_⟩
  · simp [blocksOf]
  · simp [blocksOf]

variable {α : Type} {ow : OrderWalk} {sub : Int → OrderWalk → OrderStatus × OrderWalk}
variable {subVisits : Int → List Visit}

theorem isChain_cons_append
    {R : α → α → Prop} {a : α} {l l' : List α}
    (h : (a :: l).IsChain R)
    (h' : (l.getLastD a :: l').IsChain R) :
    (a :: (l ++ l')).IsChain R := by
  induction l generalizing a with
  | nil => exact h'
  | cons b l ih =>
    rw [List.isChain_cons_cons] at h
    rw [List.cons_append, List.isChain_cons_cons]
    refine ⟨h.1, ih h.2 ?_⟩
    rwa [List.getLastD_cons] at h'

theorem getLastD_append
    (l l' : List α)
    (a : α) :
    (l ++ l').getLastD a = l'.getLastD (l.getLastD a) := by
  induction l generalizing a with
  | nil => rfl
  | cons b l ih => rw [List.cons_append, List.getLastD_cons, List.getLastD_cons, ih]

variable {ictx : OrderIndex}

theorem Stretch.append
    {w₁ w₂ w₃ : OrderWalk} {a b : List Visit}
    (h₁ : Stretch ictx w₁ w₂ a)
    (h₂ : Stretch ictx w₂ w₃ b) :
    Stretch ictx w₁ w₃ (a ++ b) := by
  constructor
  · intro k hk
    obtain ⟨hchain, hlast⟩ := h₁.keys k hk
    obtain ⟨hchain', hlast'⟩ := h₂.keys _ hlast
    rw [keysOf_append, getLastD_append]
    exact ⟨isChain_cons_append hchain hchain', hlast'⟩
  · rw [blocksOf_append, List.nodup_append]
    refine ⟨h₁.nodup, h₂.nodup, ?_⟩
    rintro x hx y hy rfl
    have := h₂.fresh x hy
    rw [h₁.visited x] at this
    simp [hx] at this
  · intro x hx
    rw [blocksOf_append, List.mem_append] at hx
    rcases hx with hx | hx
    · exact h₁.fresh x hx
    · have := h₂.fresh x hx
      rw [h₁.visited x] at this
      exact (Bool.or_eq_false_iff.mp this).1
  · intro x
    rw [h₂.visited, h₁.visited]
    simp [Bool.or_assoc]

theorem stretch_key
    (ictx : OrderIndex)
    (ow : OrderWalk)
    (entries : Bytes)
    (pos len : Nat)
    (hpass : ow.prevKeyLen ≠ 0 → len ≠ 0 →
      collate ictx.rule ictx.up ow.prevKey ow.prevKeyLen (fun i => entries (pos + i)) len < 0) :
    Stretch ictx ow ⟨copyKey ow.prevKey entries pos len, len, ow.visited⟩
      [.key (keyAt entries pos len)] := by
  have hlen : (keyAt entries pos len).length = len := length_seqList _ _
  refine ⟨?_, List.nodup_nil, by simp [blocksOf], by simp [blocksOf]⟩
  intro k hk
  constructor
  · refine List.isChain_pair.mpr ?_
    intro hne hne'
    refine ⟨ow.prevKey, fun i => entries (pos + i), hk.2, startsWith_keyAt entries pos len, ?_⟩
    rw [hlen, ← hk.1]
    apply hpass
    · rw [hk.1]
      simpa using hne
    · rw [← hlen]
      simpa using hne'
  · refine ⟨hlen.symm, ?_⟩
    intro i hi
    have hi' : i < len := by
      have hi2 : i < (keyAt entries pos len).length := hi
      omega
    have := startsWith_keyAt entries pos len i hi
    simp only [copyKey, if_pos hi']
    exact this

theorem stretch_block
    {ow' : OrderWalk} {bit : Nat} {visits : List Visit}
    (hnew : bitAt ow.visited bit = false)
    (h : Stretch ictx { ow with visited := bitSet ow.visited bit 1 } ow' visits) :
    Stretch ictx ow ow' (.block bit :: visits) := by
  have hset : ∀ b, bitAt (bitSet ow.visited bit 1) b =
      if b = bit then true else bitAt ow.visited b :=
    fun b => bitAt_bitSet ow.visited bit b true
  have hfresh : ∀ b ∈ blocksOf visits, b ≠ bit ∧ bitAt ow.visited b = false := by
    intro b hb
    have := h.fresh b hb
    rw [hset] at this
    split_ifs at this with hbit
    exact ⟨hbit, this⟩
  refine ⟨fun k hk => h.keys k hk, ?_, ?_, ?_⟩
  · rw [blocksOf, List.nodup_cons]
    exact ⟨fun hmem => (hfresh bit hmem).1 rfl, h.nodup⟩
  · intro b hb
    rcases List.mem_cons.mp hb with rfl | hmem
    · exact hnew
    · exact (hfresh b hmem).2
  · intro b
    rw [h.visited b, hset, blocksOf]
    by_cases hbit : b = bit
    · simp [hbit]
    · simp [hbit]

/-- What a successful descent into a sub-node means for the caller's walk. -/
theorem descendOrder_stretch
    (hsub : ∀ vcn ow, (sub vcn ow).1 = .ok → Stretch ictx ow (sub vcn ow).2 (subVisits vcn))
    {vcn : Int}
    (hok : (descendOrder ictx sub vcn ow).1 = .ok) :
    Stretch ictx ow (descendOrder ictx sub vcn ow).2
      (.block (ictx.bmpBit vcn) :: subVisits vcn) := by
  unfold descendOrder at hok ⊢
  split_ifs at hok ⊢ with hneg hseen
  have hnew : bitAt ow.visited (ictx.bmpBit vcn) = false := by
    by_contra hset
    apply hseen
    right
    rw [bitGet_eq, Bool.eq_true_of_not_eq_false hset]
    decide
  exact stretch_block hnew (hsub _ _ hok)

theorem checkEntriesOrder_stretch
    (hsub : ∀ vcn ow, (sub vcn ow).1 = .ok → Stretch ictx ow (sub vcn ow).2 (subVisits vcn))
    (entries : Bytes)
    (entriesEnd n ie : Nat)
    (ow : OrderWalk)
    (hok : (checkEntriesOrder ictx sub entries entriesEnd n ie ow).1 = .ok) :
    Stretch ictx ow (checkEntriesOrder ictx sub entries entriesEnd n ie ow).2
      (entriesVisits ictx subVisits entries n ie) := by
  induction n generalizing ie ow with
  | zero => simp [checkEntriesOrder] at hok
  | succ n ih =>
    rw [checkEntriesOrder] at hok ⊢
    rw [entriesVisits]
    by_cases hout : ie + 16 > entriesEnd ∨ ie + ieLength entries ie > entriesEnd
    · rw [if_pos hout] at hok
      simp at hok
    rw [if_neg hout] at hok ⊢
    dsimp only at hok ⊢
    generalize hr : (if ieIsNode entries ie then descendOrder ictx sub (ieGetVcn entries ie) ow
      else (.ok, ow)) = r at hok ⊢
    generalize hv : (if ieIsNode entries ie then
      Visit.block (ictx.bmpBit (ieGetVcn entries ie)) :: subVisits (ieGetVcn entries ie)
      else []) = inner
    have hinner : r.1 = .ok → Stretch ictx ow r.2 inner := by
      intro hrok
      rw [← hr] at hrok ⊢
      rw [← hv]
      split_ifs at hrok ⊢ with hnode
      · exact descendOrder_stretch hsub hrok
      · exact Stretch.nil ictx ow
    by_cases hrok : r.1 = .ok
    · rw [if_neg (by simpa using hrok)] at hok ⊢
      by_cases hend : ieIsEnd entries ie ∨ ieLength entries ie = 0
      · rw [if_pos hend] at hok ⊢
        rw [if_pos hend]
        exact hinner hrok
      · split_ifs at hok ⊢ with hlen hgt heq
        have hkey := stretch_key ictx r.2 entries (ie + 16) (ieKeyLength entries ie)
          (fun hp hk => by
            omega)
        have hrest := ih (ie + ieLength entries ie) _ hok
        exact (hinner hrok).append (hkey.append hrest)
    · rw [if_pos hrok] at hok
      exact absurd hok hrok

theorem checkSubtreeOrder_stretch
    (ictx : OrderIndex)
    (depth : Nat)
    (vcn : Int)
    (ow : OrderWalk)
    (hok : (checkSubtreeOrder ictx depth vcn ow).1 = .ok) :
    Stretch ictx ow (checkSubtreeOrder ictx depth vcn ow).2 (subtreeVisits ictx depth vcn) := by
  induction depth generalizing vcn ow with
  | zero => simp [checkSubtreeOrder] at hok
  | succ depth ih =>
    rw [checkSubtreeOrder] at hok ⊢
    rw [subtreeVisits]
    cases hread : ictx.readBlock vcn with
    | none =>
      rw [hread] at hok
      simp at hok
    | some ib =>
      rw [hread] at hok
      dsimp only at hok ⊢
      split_ifs at hok ⊢ with hbad
      exact checkEntriesOrder_stretch (fun v w => ih v w) ib _ _ _ ow hok

end Walk

section Order

/--
The keys an in-order walk can order: at most one key, or keys that the
collation rule accepts (all of one length under `COLLATION_NTOFS_ULONGS`), of
which only the first may be empty.
-/
def OrderableKeys (rule : CollationRule) (keys : List (List UInt8)) : Prop :=
  keys.length ≤ 1 ∨ ((∀ k ∈ keys, Acceptable rule (bytesOf k) k.length) ∧
      (rule = .ulongs → ∀ a ∈ keys, ∀ b ∈ keys, a.length = b.length) ∧
      ∀ k ∈ keys.tail, k ≠ [])

variable {rule : CollationRule} {up : Upcase}

theorem acceptable_ne_nil
    {k : List UInt8}
    (h : Acceptable rule (bytesOf k) k.length)
    (hrule : rule ≠ .binary) :
    k ≠ [] := by
  rintro rfl
  cases rule <;> simp [Acceptable] at h hrule

theorem keyLess_of_passed
    {a b : List UInt8}
    (h : Comparable rule (bytesOf a) a.length (bytesOf b) b.length)
    (hb : b ≠ [])
    (hpass : Passed rule up a b) :
    KeyLess rule up a b := by
  by_cases ha : a = []
  · have hrule : rule = .binary := by
      by_contra hne
      exact acceptable_ne_nil h.1 hne ha
    subst ha hrule
    refine ⟨h, Prod.Lex.toLex_lt_toLex.mpr (Or.inl ?_)⟩
    exact seqList_lt_of_length (List.length_pos_iff.mpr hb) (fun i hi => absurd hi (by simp))
  · obtain ⟨m1, m2, h1, h2, hneg⟩ := hpass ha hb
    exact (collate_neg_iff up h1 h2 h).mp hneg

theorem pairwise_of_passed
    {keys : List (List UInt8)}
    (hpass : keys.IsChain (Passed rule up))
    (hkeys : OrderableKeys rule keys) :
    keys.Pairwise (KeyLess rule up) := by
  rcases hkeys with hshort | ⟨hacc, hlen, hne⟩
  · cases keys with
    | nil => exact List.Pairwise.nil
    | cons k rest =>
      have hrest : rest = [] := by simpa using hshort
      subst hrest
      exact List.pairwise_singleton _ k
  · have hchain : keys.IsChain (KeyLess rule up) := by
      induction keys with
      | nil => exact List.isChain_nil
      | cons a rest ih =>
        cases rest with
        | nil => exact List.isChain_singleton a
        | cons b rest =>
          rw [List.isChain_cons_cons] at hpass ⊢
          refine ⟨keyLess_of_passed ⟨hacc a (by simp), hacc b (by simp),
            fun h => hlen h a (by simp) b (by simp)⟩ (hne b (by simp)) hpass.1, ?_⟩
          apply ih hpass.2
          · exact fun k hk => hacc k (List.mem_cons_of_mem a hk)
          · exact fun h x hx y hy =>
              hlen h x (List.mem_cons_of_mem a hx) y (List.mem_cons_of_mem a hy)
          · exact fun k hk => hne k (List.mem_of_mem_tail hk)
    have : IsTrans (List UInt8) (KeyLess rule up) := ⟨fun _ _ _ => KeyLess.trans⟩
    exact List.isChain_iff_pairwise.mp hchain

theorem orderable_of_pairwise
    {keys : List (List UInt8)}
    (h : keys.Pairwise (KeyLess rule up)) :
    OrderableKeys rule keys := by
  cases keys with
  | nil => exact Or.inl (by simp)
  | cons a rest =>
    cases rest with
    | nil => exact Or.inl (by simp)
    | cons b rest =>
      obtain ⟨hfirst, htail⟩ := List.pairwise_cons.mp h
      have hab := hfirst b (by simp)
      refine Or.inr ⟨?_, ?_, ?_⟩
      · intro k hk
        rcases List.mem_cons.mp hk with rfl | hk
        · exact hab.1.1
        · exact (hfirst k hk).1.2.1
      · intro hrule
        have hlen : ∀ k ∈ a :: b :: rest, k.length = a.length := by
          intro k hk
          rcases List.mem_cons.mp hk with rfl | hk
          · rfl
          · exact ((hfirst k hk).1.2.2 hrule).symm
        intro x hx y hy
        rw [hlen x hx, hlen y hy]
      · intro k hk
        have hless := hfirst k hk
        rintro rfl
        by_cases hrule : rule = .binary
        · subst hrule
          have hlt := hless.2
          simp only [sortKey, Prod.Lex.toLex_lt_toLex] at hlt
          simp [seqList] at hlt
        · exact acceptable_ne_nil hless.1.2.1 hrule rfl

/--
When the walk over an index ends with `STATUS_OK`, every block was reached
through one pointer only, and the keys it met ascend strictly exactly when
they are orderable: the walk skips the comparison with an empty key and takes
`NTFS_COLLATION_ERROR` for "ascending".
-/
theorem checkIndexOrder_ok_iff
    (ictx : OrderIndex)
    (irBuf : Bytes)
    (start irEnd : Nat)
    (prevKey : Bytes)
    (hok : (checkIndexOrder ictx irBuf start irEnd prevKey).1 = .ok) :
    ((keysOf (indexVisits ictx irBuf start irEnd)).Pairwise (KeyLess ictx.rule ictx.up) ∧
      (blocksOf (indexVisits ictx irBuf start irEnd)).Nodup) ↔
    OrderableKeys ictx.rule (keysOf (indexVisits ictx irBuf start irEnd)) := by
  have hstretch : Stretch ictx ⟨prevKey, 0, fun _ => 0⟩ _ (indexVisits ictx irBuf start irEnd) :=
    checkEntriesOrder_stretch (checkSubtreeOrder_stretch ictx maxIndexDepth) irBuf irEnd irEnd
      start _ hok
  obtain ⟨hchain, _⟩ := hstretch.keys [] ⟨rfl, fun i hi => absurd hi (by simp)⟩
  constructor
  · exact fun h => orderable_of_pairwise h.1
  · exact fun h => ⟨pairwise_of_passed hchain.tail h, hstretch.nodup⟩

/-- An index of four-byte numbers without blocks. -/
def ulongIndex : OrderIndex where
  rule := .ulong
  up := ⟨id, 0⟩
  vcnSizeBits := 9
  blockSize := 4096
  maxIbBits := 0
  readBlock := fun _ => none

/-- The keys 1 and 2. -/
def twoKeyRoot : Bytes :=
  bytesOf ([0, 0, 0, 0, 0, 0, 0, 0, 24, 0, 4, 0, 0, 0, 0, 0, 1, 0, 0, 0, 0, 0, 0, 0] ++
    [0, 0, 0, 0, 0, 0, 0, 0, 24, 0, 4, 0, 0, 0, 0, 0, 2, 0, 0, 0, 0, 0, 0, 0] ++
    [0, 0, 0, 0, 0, 0, 0, 0, 16, 0, 0, 0, 2, 0, 0, 0])

theorem checkIndexOrder_ok_iff_two_keys :
    (checkIndexOrder ulongIndex twoKeyRoot 0 64 (fun _ => 0)).1 = .ok ∧
      (keysOf (indexVisits ulongIndex twoKeyRoot 0 64)).Pairwise
        (KeyLess ulongIndex.rule ulongIndex.up) := by
  have hok : (checkIndexOrder ulongIndex twoKeyRoot 0 64 (fun _ => 0)).1 = .ok := by decide +kernel
  have hkeys : keysOf (indexVisits ulongIndex twoKeyRoot 0 64) = [[1, 0, 0, 0], [2, 0, 0, 0]] := by
    decide +kernel
  refine ⟨hok, ((checkIndexOrder_ok_iff ulongIndex twoKeyRoot 0 64 (fun _ => 0) hok).mpr ?_).1⟩
  exact Or.inr ⟨by decide, by decide, by decide⟩

/-- The keys 2, an empty key and 1. -/
def emptyKeyRoot : Bytes :=
  bytesOf ([0, 0, 0, 0, 0, 0, 0, 0, 24, 0, 4, 0, 0, 0, 0, 0, 2, 0, 0, 0, 0, 0, 0, 0] ++
    [0, 0, 0, 0, 0, 0, 0, 0, 24, 0, 0, 0, 0, 0, 0, 0, 0, 0, 0, 0, 0, 0, 0, 0] ++
    [0, 0, 0, 0, 0, 0, 0, 0, 24, 0, 4, 0, 0, 0, 0, 0, 1, 0, 0, 0, 0, 0, 0, 0] ++
    [0, 0, 0, 0, 0, 0, 0, 0, 16, 0, 0, 0, 2, 0, 0, 0])

/-- A descending index passes the walk when an empty key lies in between. -/
theorem checkIndexOrder_empty_key :
    (checkIndexOrder ulongIndex emptyKeyRoot 0 88 (fun _ => 0)).1 = .ok ∧
      keysOf (indexVisits ulongIndex emptyKeyRoot 0 88) = [[2, 0, 0, 0], [], [1, 0, 0, 0]] ∧
      ¬ (keysOf (indexVisits ulongIndex emptyKeyRoot 0 88)).Pairwise
        (KeyLess ulongIndex.rule ulongIndex.up) := by
  have hkeys : keysOf (indexVisits ulongIndex emptyKeyRoot 0 88) =
      [[2, 0, 0, 0], [], [1, 0, 0, 0]] := by
    decide +kernel
  refine ⟨by decide +kernel, hkeys, ?_⟩
  rw [hkeys]
  intro h
  have hbad : KeyLess ulongIndex.rule ulongIndex.up [2, 0, 0, 0] [] :=
    (List.pairwise_cons.mp h).1 [] (by simp)
  exact absurd hbad.1.2.1 (by decide)

end Order

end NtfsPlus.Ntfsck
