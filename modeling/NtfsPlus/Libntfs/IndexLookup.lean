import NtfsPlus.Libntfs.IndexTree

/-!
# Looking up a key in an index

`ntfs_ie_lookup` scans one node and `ntfs_index_lookup` descends.  The scan
takes the code -1 of the collation function for "before", 0 for "equal" and
`NTFS_COLLATION_ERROR` for an error; every other code counts as "behind".
All collation functions but `ntfs_collate_binary` answer comparable keys with
-1, 0 and 1 only.

`indexLookup_ends` describes the place where a lookup ends in a well-formed
index under such a rule; `indexLookup_correct_iff` says that these are the
rules for which lookups find what is there.
-/

namespace NtfsPlus.Libntfs

open BlockTree

section Model

/-- What `ntfs_ie_lookup` answers; `pos` is the position of the entry in the node. -/
inductive IeLookup where
  | found (pos : Nat) (e : IndexEntry)
  | notFound (pos : Nat)
  | keepSearching (pos vcn : Nat)
  | error (err : Errno)
deriving DecidableEq, Repr

/-- The end of `ntfs_ie_lookup`, when the scan has stopped at an entry. -/
def ieLookupStop (pos : Nat) (it : Item IndexEntry) : IeLookup :=
  match it.sub with
  | none => .notFound pos
  | some v => .keepSearching pos v

/-- `ntfs_ie_lookup`, from the entry at position `pos` on. -/
def ieLookup (rule : CollationRule) (up : Upcase) (key : List UInt8) :
    Nat → List (Item IndexEntry) → IeLookup
  | _, [] => .error .erange
  | pos, it :: rest =>
    match it.entry with
    | none => ieLookupStop pos it
    | some e =>
      let rc := collate rule up (bytesOf key) key.length (bytesOf e.key) e.key.length
      if rc = collationError then .error .erange
      else if rc = -1 then ieLookupStop pos it
      else if rc = 0 then .found pos e
      else ieLookup rule up key (pos + 1) rest

/--
Where a lookup has ended: the node, the position in it, and the nodes above it
with the position of the sub-node pointer that was followed, from the parent up
(`parent_vcn` and `parent_pos`).
-/
structure IndexPlace where
  node : Option Nat
  pos : Nat
  parents : List (Option Nat × Nat)
deriving DecidableEq, Repr

/-- What `ntfs_index_lookup` answers; `notFound` is `ENOENT`. -/
inductive IndexLookup where
  | found (place : IndexPlace) (e : IndexEntry)
  | notFound (place : IndexPlace)
  | error (err : Errno)
deriving DecidableEq, Repr

/--
The loop of `ntfs_index_lookup`, in a node; `free` is what is left of
`parent_vcn` below it.
-/
def indexLookupFrom (idx : Index) (key : List UInt8) (free : Nat)
    (node : Option Nat) (parents : List (Option Nat × Nat)) (n : IndexNode) : IndexLookup :=
  match ieLookup idx.rule idx.up key 0 n.items with
  | .error err => .error err
  | .found pos e => .found ⟨node, pos, parents⟩ e
  | .notFound pos => .notFound ⟨node, pos, parents⟩
  | .keepSearching pos v =>
    -- the root is not asked for its flag
    if node.isSome ∧ n.isNode = false then .error .eio
    else
      match free with
      | 0 => .error .eopnotsupp
      | free + 1 =>
        match idx.blocks v with
        | none => .error .eio
        | some child => indexLookupFrom idx key free (some v) ((node, pos) :: parents) child

/-- `MAX_PARENT_VCN - 1`, the levels of blocks that a lookup can descend. -/
def maxLevels : Nat := 63

/-- `ntfs_index_lookup`. -/
def indexLookup (idx : Index) (key : List UInt8) : IndexLookup :=
  if key = [] then .error .einval
  else indexLookupFrom idx key maxLevels none [] idx.root

end Model

section Scan

/-- Two keys that are the same for the rule. -/
def SameKey (rule : CollationRule) (up : Upcase) (a b : List UInt8) : Prop :=
  sortKey rule up (bytesOf a) a.length = sortKey rule up (bytesOf b) b.length

/-- A key that the rule can compare with those of the entries. -/
def KeyFits (rule : CollationRule) (key : List UInt8) (es : List IndexEntry) : Prop :=
  ∀ e ∈ es, Comparable rule (bytesOf key) key.length (bytesOf e.key) e.key.length

theorem compareNat_codes
    (a b : Nat) :
    compareNat a b = -1 ∨ compareNat a b = 0 ∨ compareNat a b = 1 := by
  unfold compareNat
  split_ifs <;> simp

theorem namesFullCollate_codes
    (m1 m2 : Bytes)
    (len1 len2 : Nat)
    (ic : Bool)
    (up : Upcase) :
    namesFullCollate m1 len1 m2 len2 ic up = -1 ∨ namesFullCollate m1 len1 m2 len2 ic up = 0 ∨
      namesFullCollate m1 len1 m2 len2 ic up = 1 := by
  unfold namesFullCollate
  dsimp only
  split_ifs <;> simp

variable {rule : CollationRule}

variable {m1 m2 : Bytes} {len1 len2 : Nat} {key : List UInt8}

/-- Every rule but the binary one answers -1, 0 or 1. -/
theorem collate_codes
    (up : Upcase)
    (hrule : rule ≠ .binary)
    (h : Comparable rule m1 len1 m2 len2) :
    collate rule up m1 len1 m2 len2 = -1 ∨ collate rule up m1 len1 m2 len2 = 0 ∨
      collate rule up m1 len1 m2 len2 = 1 := by
  obtain ⟨h1, h2, hsame⟩ := h
  cases rule with
  | binary => exact absurd rfl hrule
  | fileName => exact namesFullCollate_codes _ _ _ _ _ _
  | securityHash =>
    have hl1 : len1 = 8 := h1
    have hl2 : len2 = 8 := h2
    simp only [collate, collateNtofsSecurityHash]
    split_ifs <;> simp_all
  | ulong =>
    have hl1 : len1 = 4 := h1
    have hl2 : len2 = 4 := h2
    simp only [hl1, hl2]
    exact compareNat_codes _ _
  | ulongs =>
    have hl := hsame rfl
    have hmod : len1 % 4 = 0 := h1.2
    have hpos : 0 < len1 := h1.1
    simp only [collate, collateNtofsUlongs]
    rw [if_neg (by omega)]
    exact compareNat_codes _ _

theorem Comparable.symm
    (h : Comparable rule m1 len1 m2 len2) :
    Comparable rule m2 len2 m1 len1 :=
  ⟨h.2.1, h.1, fun hr => (h.2.2 hr).symm⟩

/-- The three ways a key can compare with that of an entry, and the code for each. -/
theorem collate_cases
    (up : Upcase)
    {a b : List UInt8}
    (hrule : rule ≠ .binary)
    (h : Comparable rule (bytesOf a) a.length (bytesOf b) b.length) :
    (collate rule up (bytesOf a) a.length (bytesOf b) b.length = -1 ∧ KeyLess rule up a b) ∨
    (collate rule up (bytesOf a) a.length (bytesOf b) b.length = 0 ∧ SameKey rule up a b) ∨
    (collate rule up (bytesOf a) a.length (bytesOf b) b.length = 1 ∧ KeyLess rule up b a) := by
  have hdec := collate_decides up h
  rcases collate_codes up hrule h with hc | hc | hc
  · rw [hc] at hdec
    exact Or.inl ⟨hc, h, hdec.neg_iff.mp (by decide)⟩
  · rw [hc] at hdec
    exact Or.inr (Or.inl ⟨hc, hdec.zero_iff.mp rfl⟩)
  · rw [hc] at hdec
    rcases hdec with hneg | hzero | ⟨_, hlt⟩
    · exact absurd hneg.1 (by decide)
    · exact absurd hzero.1 (by decide)
    · exact Or.inr (Or.inr ⟨hc, h.symm, hlt⟩)

/-- The key belongs before an entry and what follows it. -/
def StopsBefore (rule : CollationRule) (up : Upcase) (key : List UInt8)
    (it : Item IndexEntry) (post : List (Item IndexEntry)) : Prop :=
  (it.entry = none ∧ post = []) ∨ ∃ e, it.entry = some e ∧ KeyLess rule up key e.key

/-- An answer for the entry `it` at the position `pos`. -/
def StopsAt (rule : CollationRule) (up : Upcase) (key : List UInt8)
    (pos : Nat) (it : Item IndexEntry) (post : List (Item IndexEntry)) : IeLookup → Prop
  | .found p e => p = pos ∧ it.entry = some e ∧ SameKey rule up key e.key
  | .notFound p => p = pos ∧ it.sub = none ∧ StopsBefore rule up key it post
  | .keepSearching p v => p = pos ∧ it.sub = some v ∧ StopsBefore rule up key it post
  | .error _ => False

theorem stopsAt_ieLookupStop
    {up : Upcase} {it : Item IndexEntry} {post : List (Item IndexEntry)}
    (h : StopsBefore rule up key it post)
    (pos : Nat) :
    StopsAt rule up key pos it post (ieLookupStop pos it) := by
  unfold ieLookupStop
  cases hsub : it.sub with
  | none => exact ⟨rfl, hsub, h⟩
  | some v => exact ⟨rfl, hsub, h⟩

/-- The scan of a node stops behind the entries that are before the key. -/
theorem ieLookup_stops
    (up : Upcase)
    (hrule : rule ≠ .binary)
    (keyed : List (Item IndexEntry))
    (last : Option Nat)
    (hkeyed : ∀ it ∈ keyed, it.entry ≠ none)
    (hfits : ∀ it ∈ keyed, ∀ e, it.entry = some e →
      Comparable rule (bytesOf key) key.length (bytesOf e.key) e.key.length)
    (pos : Nat) :
    ∃ pre it post, keyed ++ [⟨none, last⟩] = pre ++ it :: post ∧
      (∀ x ∈ pre, ∃ e, x.entry = some e ∧ KeyLess rule up e.key key) ∧
      StopsAt rule up key (pos + pre.length) it post
        (ieLookup rule up key pos (keyed ++ [⟨none, last⟩])) := by
  induction keyed generalizing pos with
  | nil =>
    exact ⟨[], ⟨none, last⟩, [], rfl, by simp, stopsAt_ieLookupStop (Or.inl ⟨rfl, rfl⟩) pos⟩
  | cons it keyed ih =>
    obtain ⟨e, he⟩ := Option.ne_none_iff_exists'.mp (hkeyed it (by simp))
    rw [List.cons_append, ieLookup, he]
    dsimp only
    rcases collate_cases up hrule (hfits it (by simp) e he) with
      ⟨hc, hless⟩ | ⟨hc, hsame⟩ | ⟨hc, hless⟩
    · rw [hc]
      exact ⟨[], it, _, rfl, by simp, stopsAt_ieLookupStop (Or.inr ⟨e, he, hless⟩) pos⟩
    · rw [hc]
      exact ⟨[], it, _, rfl, by simp, rfl, he, hsame⟩
    · rw [hc]
      obtain ⟨pre, it', post, heq, hpre, hstop⟩ :=
        ih (fun x hx => hkeyed x (by simp [hx])) (fun x hx => hfits x (by simp [hx])) (pos + 1)
      refine ⟨it :: pre, it', post, by rw [heq]; rfl, ?_, ?_⟩
      · intro x hx
        rcases List.mem_cons.mp hx with rfl | hx
        · exact ⟨e, he, hless⟩
        · exact hpre x hx
      · rw [List.length_cons, show pos + (pre.length + 1) = pos + 1 + pre.length by omega]
        exact hstop

end Scan

section Descent

/-- Where a lookup can end in a well-formed index. -/
inductive LookupEnds (idx : Index) (levels : Nat) (key : List UInt8) : IndexLookup → Prop
  | found {place : IndexPlace} {e : IndexEntry} {d : Nat} {l r : List IndexEntry}
      {bl br : List Nat} {n : IndexNode} {pre post : List (Item IndexEntry)} {sub : Option Nat}
      (hpath : Path idx.content levels place.node place.parents d l r bl br)
      (hnode : idx.node place.node = some n)
      (hitems : n.items = pre ++ ⟨some e, sub⟩ :: post)
      (hpos : place.pos = pre.length)
      (hsame : SameKey idx.rule idx.up key e.key) :
      LookupEnds idx levels key (.found place e)
  | notFound {place : IndexPlace} {d : Nat} {l r ep eq : List IndexEntry}
      {bl br bp bq : List Nat} {n : IndexNode} {pre post : List (Item IndexEntry)}
      {it : Item IndexEntry}
      (hpath : Path idx.content levels place.node place.parents d l r bl br)
      (hnode : idx.node place.node = some n)
      (hitems : n.items = pre ++ it :: post)
      (hpos : place.pos = pre.length)
      (hsub : it.sub = none)
      (hpre : Walk idx.content d pre ep bp)
      (hpost : Walk idx.content d (it :: post) eq bq)
      (hlow : ∀ e ∈ l ++ ep, KeyLess idx.rule idx.up e.key key)
      (hhigh : ∀ e ∈ eq ++ r, KeyLess idx.rule idx.up key e.key) :
      LookupEnds idx levels key (.notFound place)

variable {key : List UInt8} {d : Nat} {idx : Index} {es : List IndexEntry} {bs : List Nat}

variable {c : Content IndexEntry} {rule : CollationRule} {up : Upcase} {n : IndexNode}
variable {levels : Nat}

/-- What lies before the stop is less than the key. -/
theorem low_of_scan
    {pre : List (Item IndexEntry)} {ep : List IndexEntry} {bp : List Nat}
    (hwalk : Walk c d pre ep bp)
    (hsorted : ep.Pairwise (EntryLess rule up))
    (hpre : ∀ x ∈ pre, ∃ e, x.entry = some e ∧ KeyLess rule up e.key key) :
    ∀ e ∈ ep, KeyLess rule up e.key key := by
  induction hwalk with
  | nil => simp
  | @item d e rest es bs hrest ih =>
    obtain ⟨e', he', hless⟩ := hpre _ List.mem_cons_self
    have hs := List.pairwise_append.mp hsorted
    intro x hx
    rcases List.mem_append.mp hx with hx | hx
    · have : x = e' := by simp_all
      exact this ▸ hless
    · exact ih hs.2.1 (fun y hy => hpre y (by simp [hy])) x hx
  | @sub d v e n rest es₁ es₂ bs₁ bs₂ hread hsub hrest ih₁ ih₂ =>
    obtain ⟨e', he', hless⟩ := hpre _ List.mem_cons_self
    have he : e = some e' := he'
    subst he
    have hs := List.pairwise_append.mp hsorted
    have hs₂ := List.pairwise_append.mp hs.2.1
    intro x hx
    rcases List.mem_append.mp hx with hx | hx
    · exact (hs.2.2 x hx e' (by simp)).trans hless
    · rcases List.mem_append.mp hx with hx | hx
      · have : x = e' := by simpa using hx
        exact this ▸ hless
      · exact ih₂ hs₂.2.1 (fun y hy => hpre y (by simp [hy])) x hx

/-- What lies behind the stop is greater than the key. -/
theorem high_of_scan
    {it : Item IndexEntry} {post : List (Item IndexEntry)} {eq : List IndexEntry}
    {bq : List Nat}
    (hwalk : Walk c d post eq bq)
    (hsorted : (it.entry.toList ++ eq).Pairwise (EntryLess rule up))
    (hstop : StopsBefore rule up key it post) :
    ∀ e ∈ it.entry.toList ++ eq, KeyLess rule up key e.key := by
  rcases hstop with ⟨hend, rfl⟩ | ⟨e, he, hless⟩
  · cases hwalk
    simp [hend]
  · rw [he] at hsorted ⊢
    have hs := List.pairwise_cons.mp hsorted
    intro x hx
    rcases List.mem_cons.mp hx with rfl | hx
    · exact hless
    · exact hless.trans (hs.1 x hx)

/-- Where the scan of a node stops. -/
theorem ieLookup_node
    (hrule : idx.rule ≠ .binary)
    (hok : NodeOk n)
    (hwalk : Walk idx.content d n.items es bs)
    (hfits : KeyFits idx.rule key es) :
    ∃ pre it post, n.items = pre ++ it :: post ∧
      (∀ x ∈ pre, ∃ e, x.entry = some e ∧ KeyLess idx.rule idx.up e.key key) ∧
      StopsAt idx.rule idx.up key pre.length it post (ieLookup idx.rule idx.up key 0 n.items) := by
  obtain ⟨keyed, last, hshape, hkeyed⟩ := hok.shape
  have hcomp : ∀ it ∈ keyed, ∀ e, it.entry = some e →
      Comparable idx.rule (bytesOf key) key.length (bytesOf e.key) e.key.length :=
    fun it hit e he => hfits e (hwalk.entry_mem (by rw [hshape]; simp [hit]) he)
  have h := ieLookup_stops idx.up hrule keyed last hkeyed hcomp 0
  rw [← hshape] at h
  simpa only [Nat.zero_add] using h

/-- A lookup below a node ends where the key is or belongs, unless the tree is too deep. -/
theorem indexLookupFrom_ends
    (hrule : idx.rule ≠ .binary)
    (free : Nat)
    {node : Option Nat} {parents : List (Option Nat × Nat)} {l r : List IndexEntry}
    {bl br : List Nat}
    (hpath : Path idx.content levels node parents d l r bl br)
    (hnode : idx.node node = some n)
    (hwalk : Walk idx.content d n.items es bs)
    (hok : NodeOk n)
    (hblocks : ∀ v n, v ∈ bs → idx.blocks v = some n → NodeOk n)
    (hsorted : es.Pairwise (EntryLess idx.rule idx.up))
    (hlow : ∀ e ∈ l, KeyLess idx.rule idx.up e.key key)
    (hhigh : ∀ e ∈ r, KeyLess idx.rule idx.up key e.key)
    (hfits : KeyFits idx.rule key es) :
    (indexLookupFrom idx key free node parents n = .error .eopnotsupp ∧ free < d) ∨
      LookupEnds idx levels key (indexLookupFrom idx key free node parents n) := by
  induction d using Nat.strongRecOn generalizing free node parents n l r es bl br bs with
  | ind d ih =>
    obtain ⟨pre, it, post, hitems, hpre, hstop⟩ := ieLookup_node hrule hok hwalk hfits
    rw [hitems] at hwalk
    obtain ⟨ep, eq, bp, bq, hwpre, hwpost, rfl, rfl⟩ := hwalk.append_inv
    have hs := List.pairwise_append.mp hsorted
    have hlow' : ∀ e ∈ l ++ ep, KeyLess idx.rule idx.up e.key key := by
      intro e he
      rcases List.mem_append.mp he with he | he
      · exact hlow e he
      · exact low_of_scan hwpre hs.1 hpre e he
    unfold indexLookupFrom
    cases hans : ieLookup idx.rule idx.up key 0 n.items with
    | error err =>
      rw [hans] at hstop
      exact hstop.elim
    | found pos e =>
      rw [hans] at hstop
      obtain ⟨rfl, hentry, hsame⟩ := hstop
      rw [show it = ⟨some e, it.sub⟩ by rw [← hentry]] at hitems
      exact Or.inr (LookupEnds.found hpath hnode hitems rfl hsame)
    | notFound pos =>
      rw [hans] at hstop
      obtain ⟨rfl, hsub, hbefore⟩ := hstop
      refine Or.inr (LookupEnds.notFound hpath hnode hitems rfl hsub hwpre hwpost hlow' ?_)
      intro e he
      rcases List.mem_append.mp he with he | he
      · rw [show it = ⟨it.entry, none⟩ by rw [← hsub]] at hwpost
        cases hwpost with
        | item hrest => exact high_of_scan hrest hs.2.1 hbefore e he
      · exact hhigh e he
    | keepSearching pos v =>
      rw [hans] at hstop
      obtain ⟨rfl, hsub, hbefore⟩ := hstop
      rw [show it = ⟨it.entry, some v⟩ by rw [← hsub]] at hwpost hitems
      have hflag : n.isNode = true := by
        rw [← hok.subs ⟨it.entry, some v⟩ (by rw [hitems]; simp)]
        rfl
      dsimp only
      rw [if_neg (by simp [hflag])]
      cases hwpost with
      | @sub d _ _ items _ es₁ es₂ bs₁ bs₂ hread hwsub hrest =>
        obtain ⟨child, hchild, rfl⟩ := Option.map_eq_some_iff.mp hread
        cases free with
        | zero => exact Or.inl ⟨rfl, by omega⟩
        | succ free =>
          have hs₂ := List.pairwise_append.mp hs.2.1
          have hnext := ih d (by omega) free
            (hpath.down (by rw [Index.content, hnode, Option.map_some, hitems])
              hwpre hrest) hchild hwsub
            (hblocks v child (by simp) hchild)
            (fun u m hu => hblocks u m (by simp [hu]))
            hs₂.1 hlow' ?_ (fun e he => hfits e (by simp [he]))
          · rw [show idx.blocks v = some child from hchild]
            rcases hnext with ⟨hdeep, hlt⟩ | hends
            · exact Or.inl ⟨hdeep, by omega⟩
            · exact Or.inr hends
          · intro e he
            rcases List.mem_append.mp he with he | he
            · exact high_of_scan hrest hs₂.2.1 hbefore e he
            · exact hhigh e he

/-- The descent ends at a match or at a leaf. -/
theorem indexLookup_ends
    (hrule : idx.rule ≠ .binary)
    (hok : TreeOk idx levels es bs)
    (hkey : key ≠ [])
    (hfits : KeyFits idx.rule key es) :
    (indexLookup idx key = .error .eopnotsupp ∧ maxLevels < levels) ∨
      LookupEnds idx levels key (indexLookup idx key) := by
  rw [indexLookup, if_neg hkey]
  exact indexLookupFrom_ends hrule maxLevels Path.root rfl hok.walk hok.rootOk hok.blocksOk
    hok.sorted (by simp) (by simp) hfits

end Descent

section Correctness

/-- The answer to a lookup in an index with the entries `es` is right. -/
def LookupCorrect (idx : Index) (key : List UInt8) (es : List IndexEntry) : Prop :=
  match indexLookup idx key with
  | .found _ e => e ∈ es ∧ SameKey idx.rule idx.up key e.key
  | .notFound _ => ∀ e ∈ es, ¬ SameKey idx.rule idx.up key e.key
  | .error _ => False

theorem KeyLess.not_same
    {rule : CollationRule} {up : Upcase} {a b : List UInt8}
    (h : KeyLess rule up a b) :
    ¬ SameKey rule up a b ∧ ¬ SameKey rule up b a :=
  ⟨fun hs => absurd h.2 (by rw [hs]; exact lt_irrefl _),
    fun hs => absurd h.2 (by rw [hs]; exact lt_irrefl _)⟩

/-- The lookup finds a key exactly when it is in the tree. -/
theorem indexLookup_correct
    {idx : Index} {levels : Nat} {es : List IndexEntry} {bs : List Nat} {key : List UInt8}
    (hrule : idx.rule ≠ .binary)
    (hok : TreeOk idx levels es bs)
    (hlevels : levels ≤ maxLevels)
    (hkey : key ≠ [])
    (hfits : KeyFits idx.rule key es) :
    LookupCorrect idx key es := by
  unfold LookupCorrect
  rcases indexLookup_ends hrule hok hkey hfits with ⟨_, hdeep⟩ | hends
  · omega
  · cases hans : indexLookup idx key with
    | error err =>
      rw [hans] at hends
      cases hends
    | found place e =>
      rw [hans] at hends
      cases hends with
      | @found _ _ _ _ _ _ _ _ pre post sub hpath hnode hitems hpos hsame =>
        obtain ⟨n, es', bs', hn, hwalk, rfl, rfl⟩ := hpath.focus rfl hok.walk
        rw [Index.content, hnode, Option.map_some, Option.some.injEq] at hn
        subst hn
        have hit : ⟨some e, sub⟩ ∈ pre ++ ⟨some e, sub⟩ :: post := by simp
        have hmem := hwalk.entry_mem (hitems ▸ hit) rfl
        exact ⟨by simp [hmem], hsame⟩
    | notFound place =>
      rw [hans] at hends
      cases hends with
      | notFound hpath hnode hitems hpos hsub hpre hpost hlow hhigh =>
        obtain ⟨n, es', bs', hn, hwalk, rfl, rfl⟩ := hpath.focus rfl hok.walk
        rw [Index.content, hnode, Option.map_some, Option.some.injEq] at hn
        subst hn
        rw [hitems] at hwalk
        obtain ⟨rfl, rfl⟩ := hwalk.unique (hpre.append hpost)
        intro e he
        rcases List.mem_append.mp he with he | he
        · rcases List.mem_append.mp he with he | he
          · exact (hlow e (by simp [he])).not_same.2
          · rcases List.mem_append.mp he with he | he
            · exact (hlow e (by simp [he])).not_same.2
            · exact (hhigh e (by simp [he])).not_same.1
        · exact (hhigh e (by simp [he])).not_same.1

end Correctness

section BinaryKeys

/-- An entry with a one-byte key. -/
def byteEntry (b : UInt8) : IndexEntry :=
  ⟨[b], [], 24⟩

/-- An index with the keys 5, in the block 0, and 10, in the root. -/
def fiveTenIndex : Index where
  rule := .binary
  up := ⟨id, 0⟩
  root := ⟨[⟨some (byteEntry 10), some 0⟩, ⟨none, some 1⟩], true, 56⟩
  blocks := fun v =>
    if v = 0 then some ⟨[⟨some (byteEntry 5), none⟩, ⟨none, none⟩], false, 4032⟩
    else if v = 1 then some ⟨[⟨none, none⟩], false, 4032⟩
    else none
  bitmap := true :: true :: List.replicate 62 false
  blockRoom := 4032
  filled := fun _ => false

theorem fiveTenIndex_ok : TreeOk fiveTenIndex 1 [byteEntry 5, byteEntry 10] [0, 1] where
  walk := by
    have hend : Walk fiveTenIndex.content 0 [⟨none, none⟩] [] [] :=
      Walk.item Walk.nil
    have hleaf : Walk fiveTenIndex.content 0 [⟨some (byteEntry 5), none⟩, ⟨none, none⟩]
        [byteEntry 5] [] :=
      Walk.item hend
    have hlast : Walk fiveTenIndex.content 1 [⟨none, some 1⟩] [] [1] :=
      Walk.sub rfl hend Walk.nil
    exact Walk.sub rfl hleaf hlast
  sorted := by
    rw [List.pairwise_pair]
    have hcomp : Comparable .binary (bytesOf [5]) 1 (bytesOf [10]) 1 :=
      ⟨trivial, trivial, by simp⟩
    exact (collate_neg_iff _ (startsWith_bytesOf [5]) (startsWith_bytesOf [10]) hcomp).mp
      (by decide)
  nodup := by decide
  rootOk := ⟨⟨[⟨some (byteEntry 10), some 0⟩], some 1, rfl, by simp⟩, by simp [fiveTenIndex]⟩
  blocksOk := by
    intro v n hv hn
    simp only [List.mem_cons, List.not_mem_nil, or_false] at hv
    rcases hv with rfl | rfl
    · cases hn
      exact ⟨⟨[⟨some (byteEntry 5), none⟩], none, rfl, by simp⟩, by simp⟩
    · cases hn
      exact ⟨⟨[], none, rfl, by simp⟩, by simp⟩

theorem fiveTenIndex_lookup :
    indexLookup fiveTenIndex [5] = .notFound ⟨some 1, 0, [(none, 1)]⟩ := by
  decide

theorem fiveTenIndex_not_correct :
    ¬ LookupCorrect fiveTenIndex [5] [byteEntry 5, byteEntry 10] := by
  unfold LookupCorrect
  exact fun h => h (byteEntry 5) (by simp) rfl

theorem fiveTenIndex_fits : KeyFits .binary [5] [byteEntry 5, byteEntry 10] :=
  fun _ _ => ⟨trivial, trivial, by simp⟩

/--
The rules under which `ntfs_index_lookup` answers every lookup in every
well-formed index of the rule correctly are all but `COLLATION_BINARY`.
-/
theorem indexLookup_correct_iff
    (rule : CollationRule) :
    (∀ (idx : Index) (levels : Nat) (es : List IndexEntry) (bs : List Nat) (key : List UInt8),
      idx.rule = rule → TreeOk idx levels es bs → levels ≤ maxLevels →
      key ≠ [] → KeyFits rule key es → LookupCorrect idx key es) ↔
    rule ≠ .binary := by
  constructor
  · rintro h rfl
    exact fiveTenIndex_not_correct
      (h fiveTenIndex 1 _ _ [5] rfl fiveTenIndex_ok (by decide) (by decide) fiveTenIndex_fits)
  · rintro hrule idx levels es bs key rfl hok hlevels hkey hfits
    exact indexLookup_correct hrule hok hlevels hkey hfits

/-- A lookup of a key that the index has, answered with `ENOENT`. -/
theorem indexLookup_misses_binary_key :
    TreeOk fiveTenIndex 1 [byteEntry 5, byteEntry 10] [0, 1] ∧
      KeyFits fiveTenIndex.rule [5] [byteEntry 5, byteEntry 10] ∧
      SameKey fiveTenIndex.rule fiveTenIndex.up [5] (byteEntry 5).key ∧
      indexLookup fiveTenIndex [5] = .notFound ⟨some 1, 0, [(none, 1)]⟩ :=
  ⟨fiveTenIndex_ok, fiveTenIndex_fits, rfl, fiveTenIndex_lookup⟩

end BinaryKeys

end NtfsPlus.Libntfs
