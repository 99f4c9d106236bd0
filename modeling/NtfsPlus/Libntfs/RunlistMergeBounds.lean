import NtfsPlus.Libntfs.RunlistMerge

/-!
# The elements that a merge touches

The helpers of `ntfs_runlists_merge_i` reallocate the destination to a number of elements
and then move, copy and adjust elements by index.  All but `ntfs_rl_replace` look at an
element behind the ones they put in without a test whether there is one.
`mergeInside_iff` says when there is: it is missing when the source is put behind an
unmapped terminator.
-/

namespace NtfsPlus.Libntfs

section Model

/-- A runlist with its terminator. -/
structure EndedRunlist where
  runs : Runlist
  terminator : RunlistElement
  runs_length : ∀ e ∈ runs, e.length ≠ 0
  terminator_length : terminator.length = 0

/-- All elements. -/
def EndedRunlist.elements (rl : EndedRunlist) : Runlist :=
  rl.runs ++ [rl.terminator]

/-- The number of elements that the array is reallocated to, and the ranges of elements that
are read or written, each with its first index and its length. -/
structure Accesses where
  count : Nat
  ranges : List (Nat × Nat)

/-- No index is outside of the array. -/
def Accesses.Inside (a : Accesses) : Prop :=
  ∀ r ∈ a.ranges, r.1 + r.2 ≤ a.count

/-- What `ntfs_rl_mm` reads and writes. -/
def rlMm (dst src size : Nat) : List (Nat × Nat) :=
  if dst = src ∨ size = 0 then [] else [(src, size), (dst, size)]

/-- What `ntfs_rl_mc` writes. -/
def rlMc (dst size : Nat) : List (Nat × Nat) :=
  if size = 0 then [] else [(dst, size)]

variable (dst src : Runlist) (loc : Nat)

/-- `ntfs_rl_append`. -/
def appendAccesses : Accesses :=
  let right := (mergesRight dst src loc).toNat
  let marker := loc + src.length + 1
  { count := dst.length + src.length - right
    ranges := (if loc + 1 < dst.length then [(loc + 1, 1)] else []) ++
      rlMm marker (loc + 1 + right) (dst.length - loc - 1 - right) ++
      rlMc (loc + 1) src.length ++ [(loc + 1, 1), (loc, 1), (marker, 1)] ++
      if (elemAt (rlAppend dst src loc) marker).lcn = lcnEnoent then [(marker - 1, 1)] else [] }

/-- `ntfs_rl_insert`. -/
def insertAccesses : Accesses :=
  let left := (mergesLeft dst src loc).toNat
  let disc := (discontinuity dst src loc).toNat
  let marker := loc + src.length - left + disc
  let d := elemAt dst loc
  { count := dst.length + src.length - left + disc
    ranges := (if 0 < loc then [(loc - 1, 1)] else []) ++
      rlMm marker loc (dst.length - loc) ++ rlMc (loc + disc) (src.length - left) ++
      [(marker - 1, 1), (marker, 1)] ++
      (if d.lcn = lcnHole ∨ d.lcn = lcnRlNotMapped then [(marker + 1, 1)] else []) ++
      if disc = 1 then [(loc, 1), (loc + 1, 1)] else [] }

/-- `ntfs_rl_replace`, which reallocates only when there are more elements. -/
def replaceAccesses : Accesses :=
  let right := (mergesRight dst src loc).toNat
  let left := (mergesLeft dst src loc).toNat
  let tail := loc + right + 1
  let marker := loc + src.length - left
  { count := dst.length + (src.length - 1 - left - right)
    ranges := (if loc + 1 < dst.length then [(loc + 1, 1)] else []) ++
      (if 0 < loc then [(loc - 1, 1)] else []) ++
      rlMm marker tail (dst.length - tail) ++ rlMc loc (src.length - left) ++
      (if tail < dst.length then [(marker, 1)] else []) ++
      if tail < dst.length ∧ (elemAt (rlReplace dst src loc) marker).lcn = lcnEnoent then
        [(marker - 1, 1)]
      else
        [] }

/-- `ntfs_rl_split`. -/
def splitAccesses : Accesses :=
  { count := dst.length + src.length + 1
    ranges := rlMm (loc + 1 + src.length) loc (dst.length - loc) ++ rlMc (loc + 1) src.length ++
      [(loc + 1, 1), (loc, 1), (loc + src.length, 1), (loc + src.length + 1, 1),
        (loc + src.length + 2, 1)] }

/-- The accesses of the helper that is called. -/
def accesses (drl : Runlist) (plan : MergePlan) : Accesses :=
  match plan.start, plan.finish with
  | true, true => replaceAccesses drl plan.src plan.dins
  | true, false => insertAccesses drl plan.src plan.dins
  | false, true => appendAccesses drl plan.src plan.dins
  | false, false => splitAccesses drl plan.src plan.dins

/-- No helper leaves the array in a merge. -/
def MergeInside (drl srl : EndedRunlist) : Prop :=
  ∀ plan, mergePlan drl.elements srl.elements = .ok plan →
    (accesses drl.elements plan).Inside

end Model

section Result

/-- The element that the helper looks at behind the source is there: one behind the element at
`dins`, but for a replacement, for an insertion before an element that ends the file, and for
an append that joins that element with the source. -/
def LooksAtElement (drl : Runlist) (plan : MergePlan) : Prop :=
  match plan.start, plan.finish with
  | true, true => True
  | true, false =>
    (elemAt drl plan.dins).lcn = lcnHole ∨ (elemAt drl plan.dins).lcn = lcnRlNotMapped →
      plan.dins + 1 < drl.length
  | false, true => plan.dins + 1 + (mergesRight drl plan.src plan.dins).toNat < drl.length
  | false, false => plan.dins + 1 < drl.length

variable {dst src : Runlist} {loc : Nat}

theorem mergesRight_room
    (h : loc < dst.length) :
    loc + 1 + (mergesRight dst src loc).toNat ≤ dst.length := by
  unfold mergesRight
  by_cases hlt : loc + 1 < dst.length
  · have := Bool.toNat_le (decide (loc + 1 < dst.length) &&
      rlAreMergeable (elemAt src (src.length - 1)) (elemAt dst (loc + 1)))
    omega
  · simp [hlt, h]

theorem mergesLeft_room : (mergesLeft dst src loc).toNat ≤ loc := by
  unfold mergesLeft
  cases loc with
  | zero => simp
  | succ n => exact (Bool.toNat_le _).trans (by omega)

/-- Ranges of a step that is made only in some cases. -/
theorem forall_mem_ite_nil
    {p : Prop} [Decidable p] {l : List (Nat × Nat)} {P : Nat × Nat → Prop} :
    (∀ r ∈ if p then l else [], P r) ↔ (p → ∀ r ∈ l, P r) := by
  split_ifs with hp <;> simp [hp]

theorem accesses_inside_iff
    {drl : Runlist} {plan : MergePlan}
    (hsrc : 0 < plan.src.length)
    (hdins : plan.dins < drl.length) :
    (accesses drl plan).Inside ↔ LooksAtElement drl plan := by
  have hright := @mergesRight_room drl plan.src plan.dins hdins
  have hleft := @mergesLeft_room drl plan.src plan.dins
  have hone := Bool.toNat_le (mergesLeft drl plan.src plan.dins)
  have hone' := Bool.toNat_le (mergesRight drl plan.src plan.dins)
  have hdisc := Bool.toNat_le (discontinuity drl plan.src plan.dins)
  have hmm : ∀ {dst src size count : Nat}, (∀ r ∈ rlMm dst src size, r.1 + r.2 ≤ count) ↔
      (dst = src ∨ size = 0) ∨ src + size ≤ count ∧ dst + size ≤ count := by
    intro dst src size count
    unfold rlMm
    split_ifs with hnone <;> simp [hnone]
  have hmc : ∀ {dst size count : Nat}, (∀ r ∈ rlMc dst size, r.1 + r.2 ≤ count) ↔
      size = 0 ∨ dst + size ≤ count := by
    intro dst size count
    unfold rlMc
    split_ifs with hnone <;> simp [hnone]
  unfold accesses LooksAtElement
  split <;> simp only [Accesses.Inside, replaceAccesses, insertAccesses, appendAccesses,
    splitAccesses, List.forall_mem_append, hmm, hmc, forall_mem_ite_nil, List.forall_mem_cons,
    List.not_mem_nil, false_implies, implies_true, and_true, iff_true]
  · omega
  · omega
  · omega
  · omega

theorem mergePlan_sizes
    {drl : EndedRunlist} {srl : Runlist} {plan : MergePlan}
    (h : mergePlan drl.elements srl = .ok plan) :
    0 < plan.src.length ∧ plan.dins < drl.elements.length := by
  unfold mergePlan at h
  dsimp only at h
  split at h
  · cases h
  next hsome =>
  split at h
  · cases h
  cases h
  constructor
  · have hin : firstFrom srl (fun e => isEnd e || decide (e.lcn ≥ lcnHole)) 0 < srl.length := by
      by_contra hout
      exact hsome (by simp [elemAt, List.getElem?_eq_none (Nat.not_lt.mp hout), blank])
    rw [List.length_take, List.length_drop]
    exact Nat.lt_min.mpr ⟨by omega, Nat.sub_pos_of_lt hin⟩
  · show firstFrom drl.elements _ 0 < _
    rw [firstFrom, Nat.zero_add]
    exact List.findIdx_lt_length_of_exists ⟨drl.terminator, by simp [EndedRunlist.elements],
      by simp [isEnd, drl.terminator_length]⟩

/-- A merge stays inside the arrays exactly when the element that the helper looks at behind the
source is there. -/
theorem mergeInside_iff
    (drl srl : EndedRunlist) :
    MergeInside drl srl ↔ ∀ plan, mergePlan drl.elements srl.elements = .ok plan →
      LooksAtElement drl.elements plan := by
  refine forall₂_congr fun plan hplan => ?_
  obtain ⟨hsrc, hdins⟩ := mergePlan_sizes hplan
  exact accesses_inside_iff hsrc hdins

/-- The source is put behind a gap after an unmapped terminator: `ntfs_rl_append` looks at
element 4 of an array of 4. -/
theorem mergeInside_behind_gap :
    ¬MergeInside ⟨[⟨0, 10, 4⟩], ⟨4, -2, 0⟩, by decide, rfl⟩
      ⟨[⟨8, 30, 2⟩], ⟨10, -2, 0⟩, by decide, rfl⟩ := by
  intro h
  exact absurd (h _ rfl (4, 1) (by decide)) (by decide)

end Result

end NtfsPlus.Libntfs
