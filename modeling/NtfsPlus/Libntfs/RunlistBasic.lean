import NtfsPlus.Lib.ByteMemory
import NtfsPlus.Lib.SignedBytes

/-!
# Runlists in memory

The data model of `libntfs/runlist.c`: one element maps `length` clusters from
`vcn` on to `lcn` (or to one of the negative markers), and a runlist is an
array of elements that ends at the first element of length zero.

A runlist value is the list of its elements up to and including that
terminator.  Code that assigns elements by index works on the cells the
pointer reaches (`Nat → RunlistElement`); the cells behind the terminator hold
whatever the heap held before, so every such function takes them as an
argument.  `readRunlist` reads a value back from cells.

`MappedRuns` describes fully mapped runs: contiguous VCNs, positive
lengths, real clusters or holes, and all ends
inside the signed 64-bit range.  `WellFormed` adds that they start at VCN 0
and that no two neighbours could be one run.
-/

namespace NtfsPlus

/-- The error codes the modelled functions leave in `errno`. -/
inductive Errno where
  | einval
  | eio
  | erange
  | enospc
  | enomem
  | enoent
  | eexist
  | eopnotsupp
  | eoverflow
  | eilseq
  | enametoolong
  | espipe
  | enodata
deriving DecidableEq, Repr

/-- The fields of `ntfs_volume` that the runlist code reads. -/
structure Volume where
  majorVer : Nat
  clusterSizeBits : Nat
  /-- `cluster_size`, a `u32`. -/
  clusterSize : Nat
  clusterSize_eq : clusterSize = 2 ^ clusterSizeBits
  clusterSizeBits_lt : clusterSizeBits < 32
  onFsck : Bool

namespace Libntfs

open SignedBytes

/-- `LCN_HOLE`: not allocated on disk. -/
def lcnHole : Int := -1

/-- `LCN_RL_NOT_MAPPED`: not inserted into the runlist yet. -/
def lcnRlNotMapped : Int := -2

/-- `LCN_ENOENT`: no such VCN in the attribute. -/
def lcnEnoent : Int := -3

/-- `LCN_EINVAL`: input parameter error. -/
def lcnEinval : Int := -4

/-- `struct _runlist_element`. -/
structure RunlistElement where
  vcn : Int
  lcn : Int
  length : Int
deriving DecidableEq, Repr

/-- A runlist value: its elements up to and including the terminator. -/
abbrev Runlist := List RunlistElement

/-- Assign one element. -/
def setCell (c : Nat → RunlistElement) (i : Nat) (e : RunlistElement) : Nat → RunlistElement :=
  fun j => if j = i then e else c j

variable (c : Nat → RunlistElement) (i : Nat)

@[simp] theorem setCell_same
    (e : RunlistElement) :
    setCell c i e i = e := by
  simp [setCell]

theorem setCell_of_ne
    (e : RunlistElement)
    {i j : Nat}
    (h : j ≠ i) :
    setCell c i e j = c j := by
  simp [setCell, h]

/-- Read a runlist value from cells, at most `fuel` elements from `i` on. -/
def readRunlist (c : Nat → RunlistElement) : Nat → Nat → Runlist
  | 0, _ => []
  | fuel + 1, i =>
    if (c i).length = 0 then
      [c i]
    else
      c i :: readRunlist c fuel (i + 1)

/-- Cells that hold nonzero lengths and then a terminator read back as they are. -/
theorem readRunlist_eq
    (rl : Runlist)
    (t : RunlistElement)
    (i fuel : Nat)
    (hcells : ∀ j, j < (rl ++ [t]).length → c (i + j) = (rl ++ [t]).getD j t)
    (hruns : ∀ e ∈ rl, e.length ≠ 0)
    (hterm : t.length = 0)
    (hfuel : rl.length < fuel) :
    readRunlist c fuel i = rl ++ [t] := by
  induction rl generalizing i fuel with
  | nil =>
    obtain ⟨fuel, rfl⟩ : ∃ f, fuel = f + 1 := ⟨fuel - 1, by simp at hfuel; omega⟩
    have h0 : c i = t := by simpa using hcells 0 (by simp)
    simp [readRunlist, h0, hterm]
  | cons e rl ih =>
    obtain ⟨fuel, rfl⟩ : ∃ f, fuel = f + 1 := ⟨fuel - 1, by simp at hfuel; omega⟩
    have h0 : c i = e := by simpa using hcells 0 (by simp)
    have hne : e.length ≠ 0 := hruns e (by simp)
    have hrest : readRunlist c fuel (i + 1) = rl ++ [t] := by
      apply ih
      · intro j hj
        have := hcells (j + 1) (by simpa using hj)
        simpa [Nat.add_assoc, Nat.add_comm 1 j] using this
      · exact fun e' he' => hruns e' (by simp [he'])
      · simpa using hfuel
    simp [readRunlist, h0, hne, hrest]

/-- The loop of `ntfs_rl_vcn_to_lcn`, from the current element on. -/
def rlVcnToLcnFrom (vcn : Int) : Runlist → Int
  | [] => lcnEnoent
  | [e] => if e.lcn < 0 then e.lcn else lcnEnoent
  | e :: next :: rest =>
    if e.length = 0 then
      if e.lcn < 0 then e.lcn else lcnEnoent
    else if vcn < next.vcn then
      if e.lcn ≥ 0 then e.lcn + (vcn - e.vcn) else e.lcn
    else
      rlVcnToLcnFrom vcn (next :: rest)

/-- `ntfs_rl_vcn_to_lcn`. -/
def rlVcnToLcn (rl : Option Runlist) (vcn : Int) : Int :=
  if vcn < 0 then
    lcnEinval
  else
    match rl with
    | none => lcnRlNotMapped
    | some [] => lcnEnoent
    | some (e :: rest) =>
      if vcn < e.vcn then
        lcnEnoent
      else
        rlVcnToLcnFrom vcn (e :: rest)

/-- A mapped run: real clusters or a hole, with both ends inside `s64`. -/
structure MappedRun (e : RunlistElement) : Prop where
  length_pos : 0 < e.length
  lcn_mapped : 0 ≤ e.lcn ∨ e.lcn = lcnHole
  vcn_nonneg : 0 ≤ e.vcn
  vcn_end : e.vcn + e.length < 2 ^ 63
  lcn_end : 0 ≤ e.lcn → e.lcn + e.length < 2 ^ 63

instance (e : RunlistElement) : Decidable (MappedRun e) :=
  decidable_of_iff
    (0 < e.length ∧ (0 ≤ e.lcn ∨ e.lcn = lcnHole) ∧ 0 ≤ e.vcn ∧
      e.vcn + e.length < 2 ^ 63 ∧ (0 ≤ e.lcn → e.lcn + e.length < 2 ^ 63))
    ⟨fun ⟨h1, h2, h3, h4, h5⟩ => ⟨h1, h2, h3, h4, h5⟩, fun h => ⟨h.1, h.2, h.3, h.4, h.5⟩⟩

/-- Mapped runs, contiguous from `v` on, that end at VCN `w`. -/
def MappedRuns (v : Int) : List RunlistElement → Int → Prop
  | [], w => w = v
  | e :: rest, w => e.vcn = v ∧ MappedRun e ∧ MappedRuns (v + e.length) rest w

instance decidableMappedRuns :
    ∀ (v : Int) (runs : List RunlistElement) (w : Int), Decidable (MappedRuns v runs w)
  | v, [], w => inferInstanceAs (Decidable (w = v))
  | v, e :: rest, w =>
    have := decidableMappedRuns (v + e.length) rest w
    inferInstanceAs
      (Decidable (e.vcn = v ∧ MappedRun e ∧ MappedRuns (v + e.length) rest w))

/-- `ntfs_rl_are_mergeable`. -/
def rlAreMergeable (dst src : RunlistElement) : Bool :=
  if dst.lcn = lcnRlNotMapped ∧ src.lcn = lcnRlNotMapped then
    true
  else if dst.vcn + dst.length ≠ src.vcn then
    false
  else if 0 ≤ dst.lcn ∧ 0 ≤ src.lcn ∧ dst.lcn + dst.length = src.lcn then
    true
  else
    decide (dst.lcn = lcnHole ∧ src.lcn = lcnHole)

/-- The terminator of a fully mapped runlist that ends at `w`. -/
def enoentAt (w : Int) : RunlistElement :=
  ⟨w, lcnEnoent, 0⟩

/-- The terminator of a runlist that is mapped up to `w` only. -/
def unmappedAt (w : Int) : RunlistElement :=
  ⟨w, lcnRlNotMapped, 0⟩

theorem enoentAt_lcn_lt
    (w : Int) :
    (enoentAt w).lcn < lcnHole :=
  (by decide : lcnEnoent < lcnHole)

theorem unmappedAt_lcn_lt
    (w : Int) :
    (unmappedAt w).lcn < lcnHole :=
  (by decide : lcnRlNotMapped < lcnHole)

/--
A well-formed fully mapped runlist with the given runs and end VCN: contiguous
from 0, mapped runs only, no two neighbours that could be one run.
-/
structure WellFormed (runs : List RunlistElement) (w : Int) : Prop where
  mapped : MappedRuns 0 runs w
  separate : runs.IsChain (fun a b => rlAreMergeable a b = false)

/-- Elements of positive length that cover the VCNs from `v` to `w` in order. -/
def Tiles (v : Int) : Runlist → Int → Prop
  | [], w => w = v
  | e :: rest, w => e.vcn = v ∧ 0 < e.length ∧ Tiles (v + e.length) rest w

variable {v w : Int} {runs : List RunlistElement} {e : RunlistElement}

/-- A runlist can be divided. -/
theorem tiles_append_iff
    {a b : Runlist} :
    Tiles v (a ++ b) w ↔ ∃ m, Tiles v a m ∧ Tiles m b w := by
  induction a generalizing v with
  | nil =>
    constructor
    · exact fun h => ⟨v, rfl, h⟩
    · rintro ⟨m, hm, h⟩
      have hmv : m = v := hm
      exact hmv ▸ h
  | cons e a ih =>
    constructor
    · rintro ⟨hv, he, hrest⟩
      obtain ⟨m, ha, hb⟩ := ih.mp hrest
      exact ⟨m, ⟨hv, he, ha⟩, hb⟩
    · rintro ⟨m, ⟨hv, he, ha⟩, hb⟩
      exact ⟨hv, he, ih.mpr ⟨m, ha, hb⟩⟩

theorem Tiles.le
    (h : Tiles v runs w) :
    v ≤ w := by
  induction runs generalizing v with
  | nil =>
    have hw : w = v := h
    omega
  | cons e rest ih =>
    have hpos := h.2.1
    have := ih h.2.2
    omega

/-- Mapped runs are runs that follow each other, each of them mapped. -/
theorem mappedRuns_iff : MappedRuns v runs w ↔ Tiles v runs w ∧ ∀ e ∈ runs, MappedRun e := by
  induction runs generalizing v with
  | nil => simp [MappedRuns, Tiles]
  | cons e rest ih =>
    rw [MappedRuns, Tiles, ih, List.forall_mem_cons]
    constructor
    · rintro ⟨hv, he, htiles, hrest⟩
      exact ⟨⟨hv, he.length_pos, htiles⟩, he, hrest⟩
    · rintro ⟨⟨hv, -, htiles⟩, he, hrest⟩
      exact ⟨hv, he, htiles, hrest⟩

theorem MappedRuns.tiles
    (h : MappedRuns v runs w) :
    Tiles v runs w :=
  (mappedRuns_iff.mp h).1

theorem MappedRuns.mappedRun
    (h : MappedRuns v runs w)
    (he : e ∈ runs) :
    MappedRun e :=
  (mappedRuns_iff.mp h).2 e he

theorem MappedRuns.le
    (h : MappedRuns v runs w) :
    v ≤ w :=
  h.tiles.le

theorem MappedRun.lcn_ge
    (h : MappedRun e) :
    lcnHole ≤ e.lcn := by
  have := h.lcn_mapped
  unfold lcnHole at *
  omega

/-- Mapped runs split at every position, at the VCN of the second part. -/
theorem mappedRuns_append_iff
    {a b : List RunlistElement} :
    MappedRuns v (a ++ b) w ↔ ∃ m, MappedRuns v a m ∧ MappedRuns m b w := by
  simp only [mappedRuns_iff, tiles_append_iff, List.forall_mem_append]
  constructor
  · rintro ⟨⟨m, ha, hb⟩, hmapa, hmapb⟩
    exact ⟨m, ⟨ha, hmapa⟩, hb, hmapb⟩
  · rintro ⟨m, ⟨ha, hmapa⟩, hb, hmapb⟩
    exact ⟨⟨m, ha, hb⟩, hmapa, hmapb⟩

end Libntfs
end NtfsPlus
