import NtfsPlus.Libntfs.MappingPairsRoundTrip
import NtfsPlus.Libntfs.RunlistMergeJoin

/-!
# Mapping the whole runlist of an attribute

`ntfs_attr_map_whole_runlist` of `libntfs/attrib.c` reads the extents of an
attribute one after the other, in the order of their VCNs, and merges each into
the runlist of the open attribute.

`mapWholeRunlist_carried` is the main result: records that carry the runs of
consecutive extents, the first of them not empty, are read back with the
lookups of these runs.  `mapWholeRunlist_empty` says why the first one matters.
-/

namespace NtfsPlus.Libntfs

section Lookups

variable {A B : Runlist} {v m E vcn : Int}

theorem MappedRuns.lt
    {runs : Runlist}
    (h : MappedRuns v runs E)
    (hne : runs ≠ []) :
    v < E := by
  obtain ⟨e, rest, rfl⟩ := List.exists_cons_of_ne_nil hne
  have := h.tiles.mem (show e ∈ e :: rest by simp)
  omega

/-- Two tilings with the same lookups and terminators are the same runlist. -/
theorem rlVcnToLcn_eq_of_lcnIn
    {L M : Runlist} {t : RunlistElement}
    (hL : Tiles 0 L E)
    (hM : Tiles 0 M E)
    (ht : t.vcn = E)
    (hsame : ∀ vcn, 0 ≤ vcn → vcn < E → lcnIn L vcn = lcnIn M vcn)
    (vcn : Int) :
    rlVcnToLcn (some (L ++ [t])) vcn = rlVcnToLcn (some (M ++ [t])) vcn := by
  by_cases hneg : vcn < 0
  · simp [rlVcnToLcn, hneg]
  · by_cases hin : vcn < E
    · rw [rlVcnToLcn_inside hL ht le_rfl (by omega) hin,
        rlVcnToLcn_inside hM ht le_rfl (by omega) hin, hsame vcn (by omega) hin]
    · rw [rlVcnToLcn_tiles hL ht (by omega), rlVcnToLcn_tiles hM ht (by omega),
        rlVcnToLcnFrom_behind hL ht (by omega),
        rlVcnToLcnFrom_behind hM ht (by omega)]

end Lookups

section MapWholeRunlist

/-- The variables of `ntfs_attr_map_whole_runlist`. -/
structure MapState where
  /-- `na->rl`. -/
  rl : Option Runlist
  nextVcn : Int
  lastVcn : Int
  highestVcn : Int
  notMapped : Bool
  /-- Whether `a` points to a record. -/
  found : Bool

/--
Whether `ntfs_attr_lookup` passes over a record because the next one of the
attribute does not start behind the wanted VCN either.
-/
def nextExtentFits (vcn : Int) (rest : List AttrRecord) : Bool :=
  decide (vcn ≠ 0) && rest.head?.any fun next => decide (next.lowestVcn ≤ vcn)

/--
The loop over the records of the attribute, in the order of its attribute list;
without such a list there is only one.
-/
def mapExtents (vol : Volume) (heap : AttrRecord → Nat → RunlistElement) :
    List AttrRecord → MapState → Except Errno MapState
  | [], st =>
    .ok { st with
      notMapped := decide (rlVcnToLcn st.rl st.nextVcn = lcnRlNotMapped) }
  | a :: rest, st =>
    if nextExtentFits st.nextVcn rest then
      mapExtents vol heap rest st
    else
      let notMapped := decide (rlVcnToLcn st.rl st.nextVcn = lcnRlNotMapped)
      let decoded : Except Errno (Option Runlist) :=
        if notMapped then
          match (mappingPairsDecompress vol a st.rl (heap a)).rl with
          | .ok rl => .ok (some rl)
          | .error err => .error err
        else
          .ok st.rl
      match decoded with
      | .error err => .error err
      | .ok rl =>
        if st.nextVcn = 0 ∧ a.lowestVcn ≠ 0 then
          .error .eio
        else
          let lastVcn :=
            if st.nextVcn = 0 then
              a.allocatedSize / 2 ^ vol.clusterSizeBits
            else
              st.lastVcn
          let st : MapState :=
            { rl, lastVcn, notMapped, found := true
              highestVcn := a.highestVcn
              nextVcn := a.highestVcn + 1 }
          -- only one extent, or an error
          if st.nextVcn ≤ 0 then
            .ok st
          else if st.nextVcn < a.lowestVcn then
            .error .eio
          else
            mapExtents vol heap rest st

/-- `ntfs_attr_map_whole_runlist`, for an attribute that is not fully mapped. -/
def mapWholeRunlist
    (vol : Volume) (heap : AttrRecord → Nat → RunlistElement)
    (rl : Option Runlist) (attrs : List AttrRecord) :
    Except Errno (Option Runlist) :=
  match mapExtents vol heap attrs ⟨rl, 0, 0, 0, false, false⟩ with
  | .error err => .error err
  | .ok st =>
    if ¬st.found then
      .error .enoent
    else if st.notMapped ∧ st.highestVcn ≠ 0 ∧ st.highestVcn ≠ st.lastVcn - 1 then
      .error .eio
    else
      .ok st.rl

end MapWholeRunlist

section Carried

/-- A record whose mapping pairs are those of the runs from `v` to `w`. -/
structure Stored
    (vol : Volume) (attr : AttrRecord)
    (v : Int) (runs : List RunlistElement) (w : Int) : Prop where
  mapped : MappedRuns v runs w
  nonResident : attr.nonResident = true
  lowestVcn : attr.lowestVcn = v
  highestVcn : attr.highestVcn = w - 1
  inside : attr.mappingPairsOffset + (encodeRuns vol 0 runs).length < attr.length
  bytes : HoldsBytes attr.bytes attr.mappingPairsOffset (encodeRuns vol 0 runs ++ [0])
  allocatedSize_lt : attr.allocatedSize < 2 ^ 63
  /-- The decoder can count its elements. -/
  few : runs.length + 1 < rlposRange

/-- Such a record of an attribute with `total` clusters. -/
structure Carried
    (vol : Volume) (total : Int) (attr : AttrRecord)
    (v : Int) (runs : List RunlistElement) (w : Int) : Prop where
  stored : Stored vol attr v runs w
  /-- The first extent tells the size of the whole attribute. -/
  allocatedSize : v = 0 → attr.allocatedSize = total * vol.clusterSize

/-- Records that carry the runs of consecutive extents from `v` on. -/
inductive CarriedFrom (vol : Volume) (total : Int) :
    Int → List RunlistElement → List AttrRecord → Prop
  | nil : CarriedFrom vol total total [] []
  | cons
      {v w : Int} {mid suf : List RunlistElement}
      {attr : AttrRecord} {attrs : List AttrRecord}
      (hattr : Carried vol total attr v mid w)
      (hattrs : CarriedFrom vol total w suf attrs) :
      CarriedFrom vol total v (mid ++ suf) (attr :: attrs)

variable {vol : Volume} {total v w : Int} {attr : AttrRecord}
variable {runs : List RunlistElement} {attrs : List AttrRecord}

theorem Carried.mapped
    (h : Carried vol total attr v runs w) :
    MappedRuns v runs w :=
  h.stored.mapped

/-- A carried extent in the terms of the round trip. -/
theorem Carried.carriesExtent
    (h : Carried vol total attr v runs w) :
    CarriesExtent vol attr (fun i => attr.bytes (attr.mappingPairsOffset + i))
      ((encodeRuns vol 0 runs).length + 1) v w total where
  nonResident := h.stored.nonResident
  lowestVcn := h.stored.lowestVcn
  highestVcn := h.stored.highestVcn
  allocatedSize := h.allocatedSize
  allocatedSize_lt := h.stored.allocatedSize_lt
  inside := h.stored.inside
  bytes := fun _ _ => rfl

theorem CarriedFrom.mappedRuns
    (h : CarriedFrom vol total v runs attrs) :
    MappedRuns v runs total := by
  induction h with
  | nil => rfl
  | cons hattr _ ih => exact mappedRuns_append_iff.mpr ⟨_, hattr.mapped, ih⟩

/-- Decoding one record. -/
theorem Carried.decoded
    (h : Carried vol total attr v runs w)
    (hfsck : vol.onFsck = false)
    (hv : 0 ≤ v)
    (hw : w ≤ total)
    (heap : Nat → RunlistElement) :
    (mappingPairsDecompress vol attr none heap).rl =
      .ok (extentElements v runs w total ++ [extentEnd v w total]) := by
  have hpairs : HoldsBytes (fun i => attr.bytes (attr.mappingPairsOffset + i)) 0
      (encodeRuns vol 0 runs ++ [0]) := by
    apply holdsBytes_of_getElem
    intro i hi
    rw [← h.stored.bytes.getElem hi, Nat.zero_add]
  have hdec := mappingPairsDecompress_extent heap hfsck h.carriesExtent h.mapped
    hv hw hpairs (Nat.lt_succ_self _)
  have hfew := h.stored.few
  have hlen : (extentElements v runs w total).length < rlposRange := by
    unfold extentElements extentHead
    by_cases hbase : v = 0
    · split_ifs <;> simp <;> omega
    · simp [hbase]
      omega
  rw [Nat.div_eq_of_lt hlen, Nat.zero_mul] at hdec
  exact hdec

/-- With an old runlist the decoded one is merged into it. -/
theorem mappingPairsDecompress_old
    {old S : Runlist} {heap : Nat → RunlistElement}
    (h : (mappingPairsDecompress vol attr none heap).rl = .ok S) :
    mappingPairsDecompress vol attr (some old) heap = decompressMerge vol (some old) S := by
  unfold mappingPairsDecompress at h ⊢
  split_ifs at h ⊢
  cases hpairs : decompressPairs vol attr attr.length (decompressStart attr heap) with
  | error st =>
    simp only [hpairs, decompressError] at h
    split_ifs at h
  | ok st =>
    simp only [hpairs] at h ⊢
    cases hend : decompressEnd vol attr st with
    | error st' =>
      simp only [hend, decompressError] at h
      split_ifs at h
    | ok st' =>
      simp only [hend] at h
      dsimp only
      rw [Except.ok.inj h]

/-- The runs of an extent behind the first one, as a source to merge. -/
theorem Carried.source
    (h : Carried vol total attr v runs w)
    (hv : 0 < v)
    (hvw : v < w) :
    Source [notMapped 0 v] runs [] (unmappedAt w) v w := by
  have htiles := h.mapped.tiles
  refine ⟨?_, ?_, htiles, fun e he => (h.mapped.mappedRun he).lcn_ge, by simp, rfl,
    unmappedAt_lcn_lt w⟩
  · intro e he
    rw [List.mem_singleton.mp he]
    exact ⟨show v - 0 ≠ 0 by omega, (by decide : lcnRlNotMapped < lcnHole)⟩
  · rintro rfl
    have : w = v := h.mapped
    omega

theorem Carried.first_mapped
    (h : Carried vol total attr v runs w)
    (hvw : v < w) :
    lcnHole ≤ (elemAt runs 0).lcn := by
  have hpos : 0 < runs.length := by
    rw [List.length_pos_iff]
    rintro rfl
    have : w = v := h.mapped
    omega
  exact (h.mapped.mappedRun (elemAt_mem hpos)).lcn_ge

/-- Decoding the record that continues the runlist. -/
theorem Carried.decoded_next
    {L : Runlist}
    (h : Carried vol total attr v runs w)
    (hfsck : vol.onFsck = false)
    (hv : 0 < v)
    (hvw : v < w)
    (hw : w ≤ total)
    (hL : Tiles 0 L v)
    (heap : Nat → RunlistElement) :
    (mappingPairsDecompress vol attr (some (L ++ gap v total ++ [enoentAt total])) heap).rl =
      .ok (joinEnds L runs ++ gap w total ++ [enoentAt total]) := by
  have halone := h.decoded hfsck hv.le hw heap
  have hS : extentElements v runs w total ++ [extentEnd v w total] =
      [notMapped 0 v] ++ runs ++ [] ++ [unmappedAt w] := by
    simp [extentElements, extentHead, extentEnd, hv.ne', notMapped]
  have hmerge := runlistsMerge_extent (h.source hv hvw) hL
    (show Tiles total [] total from rfl) (show (enoentAt total).vcn = total from rfl)
    rfl (enoentAt_lcn_lt total) le_rfl hw (by omega)
  rw [List.nil_append] at hmerge
  have hne : runs ≠ [] := (h.source hv hvw).nonempty
  have hmerged : filledAt lcnRlNotMapped L v v runs w total [] =
      joinEnds L runs ++ gap w total := by
    unfold filledAt fillLeft fillRight gap
    by_cases hsame : total = w
    · simp [hsame, joinEnds]
    · simp only [hsame, show w < total by omega]
      exact joinEnds_append L _ hne
  have hgap : L ++ gap v total ++ [enoentAt total] =
      L ++ notMapped v total :: [enoentAt total] := by
    rw [gap, if_pos (by omega)]
    simp
  obtain ⟨e, L', rfl⟩ : ∃ e L', L = e :: L' := by
    apply List.exists_cons_of_ne_nil
    rintro rfl
    have : v = 0 := hL
    omega
  have hpos : (elemAt (e :: L' ++ notMapped v total :: [enoentAt total]) 0).length ≠
      0 := by
    have := hL.2.1
    show e.length ≠ 0
    omega
  have hpos' : (elemAt ([notMapped 0 v] ++ runs ++ [] ++ [unmappedAt w]) 0).length ≠
      0 := by
    show v - 0 ≠ 0
    omega
  rw [hS] at halone
  rw [hgap, mappingPairsDecompress_old halone]
  unfold decompressMerge
  dsimp only
  rw [if_neg hpos, if_neg hpos', hmerge, hmerged]
  rfl

end Carried

section Reading

variable {vol : Volume} {total v w : Int} {attr : AttrRecord}
variable {runs : List RunlistElement} {attrs : List AttrRecord}

/-- Whether a carried extent is passed over: only when it is empty. -/
theorem CarriedFrom.nextExtentFits_iff
    (h : CarriedFrom vol total w runs attrs)
    (hv : v ≠ 0) :
    nextExtentFits v attrs = true ↔ attrs ≠ [] ∧ w ≤ v := by
  cases h with
  | nil => simp [nextExtentFits]
  | cons hattr hattrs => simp [nextExtentFits, hv, hattr.stored.lowestVcn]

theorem rlVcnToLcn_mappedUpTo
    {L : Runlist}
    (hL : Tiles 0 L v)
    (hv : 0 ≤ v)
    (hle : v ≤ total) :
    rlVcnToLcn (some (L ++ gap v total ++ [enoentAt total])) v =
      if v < total then lcnRlNotMapped else lcnEnoent := by
  have hall : Tiles 0 (L ++ gap v total) total :=
    tiles_append_iff.mpr ⟨v, hL, tiles_gap hle⟩
  by_cases hlt : v < total
  · rw [if_pos hlt, rlVcnToLcn_inside hall rfl le_rfl hv hlt,
      lcnIn_append_right hL le_rfl, gap, if_pos hlt, lcnIn,
      if_pos ⟨le_rfl, show v < v + (total - v) by omega⟩]
    rfl
  · rw [if_neg hlt, rlVcnToLcn_tiles hall rfl hv, rlVcnToLcnFrom_behind hall rfl (by omega)]
    rfl

/-- The loop from an extent behind the first one on maps all the rest. -/
theorem mapExtents_carried
    (hfsck : vol.onFsck = false)
    (heap : AttrRecord → Nat → RunlistElement)
    (h : CarriedFrom vol total v runs attrs)
    {L : Runlist} {st : MapState}
    (hv : 0 < v)
    (hL : Tiles 0 L v)
    (hnext : st.nextVcn = v)
    (hrl : st.rl = some (L ++ gap v total ++ [enoentAt total])) :
    ∃ st' M, mapExtents vol heap attrs st = .ok st' ∧
      st'.rl = some (M ++ [enoentAt total]) ∧ Tiles 0 M total ∧
      (∀ vcn, 0 ≤ vcn → vcn < total → lcnIn M vcn = lcnIn (L ++ runs) vcn) ∧
      ((L ++ runs).IsChain (fun a b => rlAreMergeable a b = false) →
        M = L ++ runs) ∧
      st'.notMapped = false ∧ (st.found = true → st'.found = true) := by
  induction h generalizing L st with
  | nil =>
    have hgap : gap total total = [] := by simp [gap]
    have hend := rlVcnToLcn_mappedUpTo hL hv.le le_rfl
    rw [if_neg (lt_irrefl total)] at hend
    rw [hgap, List.append_nil] at hrl hend
    refine ⟨_, L, rfl, hrl, hL, by simp, by simp, ?_, id⟩
    dsimp only
    rw [hnext, hrl, hend]
    decide
  | @cons v w mid suf attr attrs hattr hattrs ih =>
    have hsuf := hattrs.mappedRuns.le
    have hmid := hattr.mapped.le
    rw [mapExtents, hnext]
    by_cases hskip : nextExtentFits v attrs = true
    · -- an empty extent is passed over
      obtain ⟨-, hwv⟩ := (hattrs.nextExtentFits_iff hv.ne').mp hskip
      obtain rfl : w = v := by omega
      have hnil : mid = [] := by
        by_contra hne
        have := hattr.mapped.lt hne
        omega
      rw [if_pos hskip, hnil]
      exact ih hv hL hnext hrl
    · rw [if_neg hskip]
      rw [hrl, rlVcnToLcn_mappedUpTo hL hv.le (by omega)]
      by_cases hvw : v < w
      · have hdec := hattr.decoded_next hfsck hv hvw hsuf hL (heap attr)
        have hjoin := joinEnds_spec hL hattr.mapped.tiles
          (Or.inr (Or.inr (Or.inr (hattr.first_mapped hvw))))
        have hhigh := hattr.stored.highestVcn
        have hlow := hattr.stored.lowestVcn
        rw [if_pos (by omega)]
        simp only [decide_true, if_true, hdec, hv.ne', false_and, if_false]
        rw [if_neg (by omega), if_neg (by omega)]
        obtain ⟨st', M, hrun, hM, htiles, hsame, hexact, hmapped, hfound⟩ :=
          @ih (joinEnds L mid) ⟨some (joinEnds L mid ++ gap w total ++ [enoentAt total]),
              attr.highestVcn + 1, st.lastVcn, attr.highestVcn, true, true⟩
            (by omega) hjoin.1 (show attr.highestVcn + 1 = w by omega) rfl
        refine ⟨st', M, hrun, hM, htiles, ?_, ?_, hmapped, fun _ => hfound rfl⟩
        swap
        · intro hchain
          rw [← List.append_assoc] at hchain ⊢
          rw [joinEnds_of_isChain (List.isChain_append.mp hchain).1] at hexact
          exact hexact hchain
        intro vcn hlo hhi
        rw [hsame vcn hlo hhi, ← List.append_assoc]
        by_cases hin : vcn < w
        · have happ : Tiles 0 (L ++ mid) w :=
            tiles_append_iff.mpr ⟨v, hL, hattr.mapped.tiles⟩
          rw [lcnIn_append_left hjoin.1 hlo hin, lcnIn_append_left happ hlo hin]
          exact hjoin.2 vcn hlo hin
        · have happ : Tiles 0 (L ++ mid) w :=
            tiles_append_iff.mpr ⟨v, hL, hattr.mapped.tiles⟩
          rw [lcnIn_append_right hjoin.1 (by omega), lcnIn_append_right happ (by omega)]
      · -- an empty extent can only be the last one here
        have hlast : attrs = [] := by
          by_contra hne
          exact hskip ((hattrs.nextExtentFits_iff hv.ne').mpr ⟨hne, by omega⟩)
        subst hlast
        cases hattrs
        obtain rfl : v = total := by omega
        have hnil : mid = [] := by
          by_contra hne
          have := hattr.mapped.lt hne
          omega
        have hhigh := hattr.stored.highestVcn
        have hlow := hattr.stored.lowestVcn
        have hgap : gap v v = [] := by simp [gap]
        have hend := rlVcnToLcn_mappedUpTo hL hv.le le_rfl
        rw [hgap, List.append_nil] at hend ⊢
        rw [if_neg (lt_irrefl v)] at hend ⊢
        have hanswer : decide (lcnEnoent = lcnRlNotMapped) = false := by decide
        have hnext' : attr.highestVcn + 1 = v := by omega
        simp only [hanswer, Bool.false_eq_true, if_false, hv.ne', false_and, hnext',
          hlow, lt_irrefl]
        rw [if_neg (by omega)]
        refine ⟨_, L, rfl, rfl, hL, by simp [hnil], by simp [hnil], ?_, fun _ => rfl⟩
        rw [hend]
        exact hanswer

/-- The whole size of the attribute, as its first extent tells it. -/
theorem Carried.lastVcn_eq
    (h : Carried vol total attr 0 runs w) :
    attr.allocatedSize / 2 ^ vol.clusterSizeBits = total := by
  have hbits : (vol.clusterSize : Int) = 2 ^ vol.clusterSizeBits := by
    rw [vol.clusterSize_eq]
    rfl
  have hpos : (0 : Int) < 2 ^ vol.clusterSizeBits := by positivity
  rw [h.allocatedSize rfl, hbits, Int.mul_ediv_cancel _ hpos.ne']

/-- The first turn of the loop. -/
theorem Carried.mapExtents_first
    (h : Carried vol total attr 0 runs w)
    (hfsck : vol.onFsck = false)
    (hw : w ≤ total)
    (heap : AttrRecord → Nat → RunlistElement) :
    mapExtents vol heap (attr :: attrs) ⟨none, 0, 0, 0, false, false⟩ =
      if w ≤ 0 then
        .ok ⟨some (runs ++ gap w total ++ [enoentAt total]), w, total, w - 1, true, true⟩
      else
        mapExtents vol heap attrs
          ⟨some (runs ++ gap w total ++ [enoentAt total]), w, total, w - 1, true, true⟩ := by
  have hdec := h.decoded hfsck le_rfl hw (heap attr)
  have hS : extentElements 0 runs w total ++ [extentEnd 0 w total] =
      runs ++ gap w total ++ [enoentAt total] := by
    simp [extentElements, extentHead, extentEnd, gap, notMapped]
  have hhigh : attr.highestVcn = w - 1 := h.stored.highestVcn
  have hlow : attr.lowestVcn = 0 := h.stored.lowestVcn
  have hunmapped : rlVcnToLcn none 0 = lcnRlNotMapped := rfl
  rw [hS] at hdec
  rw [mapExtents, if_neg (by simp [nextExtentFits])]
  simp only [hunmapped, decide_true, if_true, hdec, hlow, ne_eq, not_true_eq_false,
    and_false, if_false, hhigh, h.lastVcn_eq, Int.sub_add_cancel]
  by_cases hzero : w ≤ 0
  · rw [if_pos hzero, if_pos hzero]
  · rw [if_neg hzero, if_neg hzero, if_neg (by omega)]

/-- An empty first extent of an attribute that is not empty cannot be read. -/
theorem mapWholeRunlist_empty
    (hfsck : vol.onFsck = false)
    (heap : AttrRecord → Nat → RunlistElement)
    (hattr : Carried vol total attr 0 [] 0)
    (htotal : 0 < total) :
    mapWholeRunlist vol heap none (attr :: attrs) = .error .eio := by
  have hhigh : ¬(-1 = total - 1) := by omega
  unfold mapWholeRunlist
  rw [hattr.mapExtents_first hfsck htotal.le heap]
  simp [hhigh]

theorem mapWholeRunlist_zero
    (hfsck : vol.onFsck = false)
    (heap : AttrRecord → Nat → RunlistElement)
    (hattr : Carried vol 0 attr 0 [] 0) :
    mapWholeRunlist vol heap none (attr :: attrs) = .ok (some [enoentAt 0]) := by
  unfold mapWholeRunlist
  rw [hattr.mapExtents_first hfsck le_rfl heap]
  simp [gap]

/-- The loop maps what the records carry. -/
theorem mapWholeRunlist_carried
    (hfsck : vol.onFsck = false)
    (heap : AttrRecord → Nat → RunlistElement)
    (hattr : Carried vol total attr 0 runs w)
    {suf : List RunlistElement}
    (hattrs : CarriedFrom vol total w suf attrs)
    (hne : runs ≠ []) :
    ∃ M, mapWholeRunlist vol heap none (attr :: attrs) = .ok (some (M ++ [enoentAt total])) ∧
      (∀ vcn, rlVcnToLcn (some (M ++ [enoentAt total])) vcn =
        rlVcnToLcn (some (runs ++ suf ++ [enoentAt total])) vcn) ∧
      ((runs ++ suf).IsChain (fun a b => rlAreMergeable a b = false) →
        M = runs ++ suf) := by
  have hsuf := hattrs.mappedRuns
  have htiles := hattr.mapped.tiles
  have hw := hattr.mapped.lt hne
  have hall : Tiles 0 (runs ++ suf) total :=
    tiles_append_iff.mpr ⟨w, htiles, hsuf.tiles⟩
  obtain ⟨st', M, hrun, hM, hMtiles, hsame, hexact, hmapped, hfound⟩ :=
    mapExtents_carried hfsck heap hattrs hw htiles
      (show (⟨some (runs ++ gap w total ++ [enoentAt total]), w, total, w - 1,
        true, true⟩ : MapState).nextVcn = w from rfl) rfl
  refine ⟨M, ?_, rlVcnToLcn_eq_of_lcnIn hMtiles hall rfl hsame, hexact⟩
  unfold mapWholeRunlist
  rw [hattr.mapExtents_first hfsck hsuf.le heap, if_neg (by omega), hrun]
  simp only [hfound rfl, hmapped, hM, not_true_eq_false, if_false, Bool.false_eq_true, false_and]

end Reading

end NtfsPlus.Libntfs
