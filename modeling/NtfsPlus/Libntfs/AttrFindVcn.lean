import NtfsPlus.Libntfs.RunlistMergeJoin

/-!
# Finding the run of a VCN

The search of `ntfs_attr_find_vcn` of `libntfs/attrib.c` in the runlist in core, for a
runlist that has the VCN.
-/

namespace NtfsPlus.Libntfs

section Model

/-- The loop of `ntfs_attr_find_vcn`, from the current element on. -/
def seekVcn (vcn : Int) : Runlist → Runlist
  | e :: next :: rest =>
    if e.length = 0 then
      e :: next :: rest
    else if vcn < next.vcn then
      e :: next :: rest
    else
      seekVcn vcn (next :: rest)
  | rl => rl

/-- Where a look into the runlist leads to. -/
inductive VcnLookup where
  | found (rl : Runlist)
  | notMapped
  | missing

/-- The search of `ntfs_attr_find_vcn` in the runlist in core. -/
def lookupVcn (vcn : Int) : Option Runlist → VcnLookup
  | none => .notMapped
  | some rl =>
    if vcn < (elemAt rl 0).vcn then
      .notMapped
    else
      let pos := seekVcn vcn rl
      if (elemAt pos 0).length ≠ 0 ∧ lcnHole ≤ (elemAt pos 0).lcn then
        .found pos
      else if (elemAt pos 0).lcn = lcnRlNotMapped then
        .notMapped
      else
        .missing

end Model

section Finding

variable {A B : Runlist} {d t : RunlistElement} {v vcn : Int}

/-- The search stops at the end or at the element before the next VCN. -/
theorem seekVcn_cons
    (vcn : Int)
    (e : RunlistElement)
    {rl : Runlist}
    (hne : rl ≠ []) :
    seekVcn vcn (e :: rl) =
      if e.length = 0 then e :: rl
      else if vcn < (elemAt rl 0).vcn then e :: rl
      else seekVcn vcn rl := by
  obtain ⟨next, rest, rfl⟩ := List.exists_cons_of_ne_nil hne
  rfl

theorem Tiles.elemAt_zero
    (h : Tiles v A t.vcn) :
    (elemAt (A ++ [t]) 0).vcn = v := by
  cases A with
  | nil => exact h
  | cons e A => exact h.1

/-- The search stops at the element that has the VCN. -/
theorem seekVcn_covering
    (h : Tiles v (A ++ d :: B) t.vcn)
    (hlo : d.vcn ≤ vcn)
    (hhi : vcn < d.vcn + d.length) :
    seekVcn vcn (A ++ d :: B ++ [t]) = d :: B ++ [t] := by
  induction A generalizing v with
  | nil =>
    obtain ⟨hv, hpos, hrest⟩ := h
    have hnext := hrest.elemAt_zero
    rw [List.nil_append, List.cons_append, seekVcn_cons _ _ (by simp), if_neg (by omega),
      if_pos (by omega)]
  | cons e A ih =>
    rw [List.cons_append] at h
    obtain ⟨hv, hpos, hrest⟩ := h
    have hnext := hrest.elemAt_zero
    have hd := hrest.mem (show d ∈ A ++ d :: B by simp)
    rw [List.cons_append, List.cons_append, seekVcn_cons _ _ (by simp), if_neg (by omega),
      if_neg (by omega)]
    exact ih hrest

end Finding

end NtfsPlus.Libntfs
