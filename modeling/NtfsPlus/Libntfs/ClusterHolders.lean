import NtfsPlus.Libntfs.ClusterFree
import NtfsPlus.Libntfs.RunlistIo

/-!
# The holders of clusters

Runlists come from `ntfs_cluster_alloc` and go back with `ntfs_cluster_free_from_rl`, in any
order.  `holders_exclusive` and `holders_isolated` are what holds after every history.
-/

namespace NtfsPlus.Libntfs

section Model

/-- A volume, and the runlists that were allocated on it and not freed. -/
structure Holders where
  vol : AllocVolume
  held : List Runlist

inductive HolderOp where
  | alloc (io : Nat → Bool) (startVcn count startLcn : Int) (zone : AllocationZone)
  | free (rl : Runlist)

/-- The runs of a search with their terminator. -/
def terminated (startVcn : Int) (runs : Runlist) : Runlist :=
  runs.reverse ++ [⟨endVcn startVcn runs, lcnRlNotMapped, 0⟩]

/-- A search that fails gives its clusters back.  Only what is held is freed. -/
def HolderOp.apply (s : Holders) : HolderOp → Holders
  | .alloc io startVcn count startLcn zone =>
    if count ≤ 0 ∨ startLcn < -1 then
      s
    else
      match allocRun startVcn (allocFuel s.vol)
          (allocStart s.vol io count.toNat startLcn zone) with
      | none => s
      | some (.done vol runs) => ⟨vol, terminated startVcn runs :: s.held⟩
      | some (.fail _ st) => ⟨clusterFreeFromRl st.vol (terminated startVcn st.runs), s.held⟩
  | .free rl =>
    if rl ∈ s.held then ⟨clusterFreeFromRl s.vol rl, s.held.erase rl⟩ else s

/-- The clusters of a runlist. -/
def heldClusters (rl : Runlist) : List Nat :=
  (rl.flatMap clustersOf).map fun p => p.2.toNat

/-- No cluster is held twice, none was in use at first, and no others came into use. -/
structure Exclusive (vol₀ vol : AllocVolume) (held : List Runlist) : Prop where
  nodup : (held.flatMap heldClusters).Nodup
  apart : ∀ c ∈ held.flatMap heldClusters, vol₀.occupied c = false
  occupied : ∀ c, vol.occupied c = true ↔
    vol₀.occupied c = true ∨ c ∈ held.flatMap heldClusters
  oracle : oracleByte vol.fsck = oracleByte vol₀.fsck
  freed : ∀ rl ∈ held, ∀ c, c ∈ heldClusters rl ↔
    ∃ run ∈ runsOfRl rl, run.1 ≤ c ∧ c < run.1 + run.2

end Model

section Histories

variable {vol₀ vol vol' : AllocVolume} {startVcn : Int} {runs rl : Runlist} {held : List Runlist}

theorem runsOfRl_terminated
    (startVcn : Int)
    (runs : Runlist) :
    runsOfRl (terminated startVcn runs) = runsOfRl runs.reverse := by
  rw [terminated]
  induction runs.reverse with
  | nil => simp [runsOfRl]
  | cons e l ih =>
    by_cases he : e.length = 0
    · simp [runsOfRl, he]
    · by_cases hlcn : 0 ≤ e.lcn <;> simpa [runsOfRl, he, hlcn] using ih

/-- Clusters that a search takes were held by nobody. -/
theorem Exclusive.alloc
    {count clusters : Nat} {cs : List Nat}
    (h : Exclusive vol₀ vol held)
    (hp : AllocProgress vol startVcn count vol' runs clusters cs) :
    Exclusive vol₀ vol' (terminated startVcn runs :: held) := by
  have hcs : heldClusters (terminated startVcn runs) = cs := by
    have hpairs := congrArg (List.map Int.toNat) (vcnPairs_snd startVcn cs)
    simpa [heldClusters, terminated, hp.describes.pairs, clustersOf, Function.comp_def]
      using hpairs
  have hnot : ∀ c ∈ cs, ¬(vol₀.occupied c = true ∨ c ∈ held.flatMap heldClusters) := by
    intro c hc hor
    exact absurd ((h.occupied c).mpr hor) (by simp [hp.free c hc])
  refine ⟨?_, ?_, fun c => ?_, hp.oracle.trans h.oracle, List.forall_mem_cons.mpr ⟨?_, h.freed⟩⟩
  · rw [List.flatMap_cons, hcs]
    refine List.nodup_append.mpr ⟨hp.nodup, h.nodup, ?_⟩
    rintro a ha b hb rfl
    exact hnot a ha (Or.inr hb)
  · rw [List.flatMap_cons, hcs]
    refine List.forall_mem_append.mpr ⟨fun c hc => ?_, h.apart⟩
    exact Bool.eq_false_of_not_eq_true fun hocc => hnot c hc (Or.inl hocc)
  · rw [List.flatMap_cons, hcs, List.mem_append, or_left_comm, ← h.occupied]
    have horigin := hp.origin c
    simp only [AllocVolume.occupied, oracleAt, hp.oracle, Bool.or_eq_true] at horigin ⊢
    grind [hp.keeps c, hp.taken c]
  · intro c
    rw [hcs, runsOfRl_terminated]
    refine ⟨hp.describes.run_of_mem, ?_⟩
    rintro ⟨run, hrun, hlo, hhi⟩
    exact hp.describes.mem_of_run hrun hlo hhi

/-- Freeing a runlist that is held clears its clusters and no others. -/
theorem Exclusive.free
    (h : Exclusive vol₀ vol (rl :: held)) :
    Exclusive vol₀ (clusterFreeFromRl vol rl) held := by
  obtain ⟨hnodup, hapart, hocc, horacle₀, hfreed⟩ := h
  have horacle := oracleByte_freeRuns vol (runsOfRl rl)
  rw [List.flatMap_cons] at hnodup hapart
  refine ⟨hnodup.of_append_right, fun c hc => hapart c (List.mem_append_right _ hc),
    fun c => ?_, horacle.trans horacle₀, fun rl hrl => hfreed rl (List.mem_cons_of_mem _ hrl)⟩
  have hbits : bitAt (freeRuns vol (runsOfRl rl)).bitmap c = true ↔
      bitAt vol.bitmap c = true ∧ c ∉ heldClusters rl := by
    rw [(freeRuns_spec vol _).2.2, hfreed rl List.mem_cons_self]
    simp only [not_exists, not_and]
  have hdisjoint : c ∈ heldClusters rl → c ∉ held.flatMap heldClusters :=
    fun hrl => List.disjoint_of_nodup_append hnodup hrl
  have hocc := hocc c
  have hapart := hapart c
  simp only [AllocVolume.occupied, oracleAt, clusterFreeFromRl, horacle, horacle₀,
    List.flatMap_cons, List.mem_append, Bool.or_eq_true] at hocc hapart ⊢
  grind

/-- Every operation keeps the runlists disjoint. -/
theorem HolderOp.apply_exclusive
    {s : Holders}
    (h : Exclusive vol₀ s.vol s.held)
    (op : HolderOp) :
    Exclusive vol₀ (op.apply s).vol (op.apply s).held := by
  cases op with
  | free rl =>
    rw [HolderOp.apply]
    split_ifs with hrl
    · have hcons := List.perm_cons_erase hrl
      have hperm := hcons.flatMap_right heldClusters
      apply Exclusive.free
      exact ⟨hperm.nodup_iff.mp h.nodup, fun c hc => h.apart c (hperm.mem_iff.mpr hc),
        fun c => (h.occupied c).trans (or_congr_right hperm.mem_iff), h.oracle,
        fun rl hrl => h.freed rl (hcons.mem_iff.mpr hrl)⟩
    · exact h
  | alloc io startVcn count startLcn zone =>
    rw [HolderOp.apply]
    split_ifs with hargs
    · exact h
    have hstart := allocStart_searching s.vol io startVcn (show 0 < count.toNat by omega)
      startLcn zone
    cases hrun : allocRun startVcn (allocFuel s.vol)
        (allocStart s.vol io count.toNat startLcn zone) with
    | none => exact h
    | some e =>
      cases e with
      | done vol runs => exact h.alloc (allocRun_progress hstart hrun).choose_spec
      | fail err st => exact (h.alloc (allocRun_fail_progress hstart hrun).choose_spec).free

/-- So does every run of operations. -/
theorem Exclusive.run
    {s : Holders}
    (h : Exclusive vol₀ s.vol s.held)
    (ops : List HolderOp) :
    Exclusive vol₀ (ops.foldl HolderOp.apply s).vol (ops.foldl HolderOp.apply s).held := by
  induction ops generalizing s with
  | nil => exact h
  | cons op ops ih => exact ih (op.apply_exclusive h)

theorem exclusive_nil
    (vol : AllocVolume) :
    Exclusive vol vol [] :=
  ⟨List.nodup_nil, by simp, by simp, rfl, by simp⟩

/-- Every history of allocations and frees keeps the holders apart. -/
theorem holders_exclusive
    (vol : AllocVolume)
    (ops : List HolderOp) :
    let s := ops.foldl HolderOp.apply ⟨vol, []⟩
    Exclusive vol s.vol s.held :=
  Exclusive.run (s := ⟨vol, []⟩) (exclusive_nil vol) ops

end Histories

section Writes

open ClusterFile

/-- The byte of the device is in a cluster of the runlist. -/
def InRl (cs y : Int) (rl : Runlist) : Prop :=
  ∃ e ∈ rl, 0 ≤ e.lcn ∧ e.lcn * cs ≤ y ∧ y < (e.lcn + e.length) * cs

variable {cs y : Int} {rl : Runlist} {volRo devRo : Bool} {b : Int → UInt8} (io : Io)

/-- A write changes no byte outside of its range. -/
theorem ntfsPwrite_outside
    {pos count : Int}
    (bufPos : Int)
    (hy : ¬(pos ≤ y ∧ y < pos + count)) :
    (ntfsPwrite devRo b pos count bufPos io).2.mem y = io.mem y := by
  unfold ntfsPwrite takeSync
  split_ifs with hneg hzero
  · rfl
  · rfl
  · rfl
  have hspec := moveLoop_spec b bufPos pos io.answers io.mem (show 0 ≤ count by omega) le_rfl
  generalize moveLoop b bufPos pos io.answers count 0 io.mem = r at hspec ⊢
  obtain ⟨err | m, answers, mem⟩ := r
  · rw [← hspec.2]
    cases io.syncs <;> rfl
  · have hmem : mem y = io.mem y := by rw [hspec.2.2, overwrite_outside _ _ (by omega)]
    dsimp only
    cases io.syncs <;> split_ifs <;> exact hmem

/-- Moving one run changes no byte outside of it. -/
theorem moveRun_outside
    {start n : Int}
    (total : Int)
    (hy : ¬(start ≤ y ∧ y < start + n)) :
    (moveRun (writeRun volRo devRo b) start total n io).2.mem y = io.mem y := by
  have hcall (io : Io) : (writeRun volRo devRo b start total n io).2.mem y = io.mem y := by
    unfold writeRun
    split_ifs
    · rfl
    · exact ntfsPwrite_outside io total hy
  unfold moveRun
  generalize io.answers.length = k
  induction k generalizing io with
  | zero => exact hcall io
  | succ k ih =>
    have hnext := hcall io
    rw [retryInterrupted]
    split
    · rename_i io' heq
      rw [heq] at hnext
      exact (ih io').trans hnext
    · exact hnext

/-- A write changes no byte outside of the runlist. -/
theorem transferRuns_outside
    {ofs : Int}
    (hy : ¬InRl cs y rl)
    (hofs : 0 ≤ ofs)
    (count total : Int) :
    (transferRuns cs writeHole (writeRun volRo devRo b) rl ofs count total
      io).2.2.mem y = io.mem y := by
  induction rl generalizing ofs count total io with
  | nil => rfl
  | cons e rest ih =>
    simp only [InRl, List.exists_mem_cons_iff, not_or] at hy
    have hmove (hlcn : 0 ≤ e.lcn) : (moveRun (writeRun volRo devRo b) (e.lcn * cs + ofs) total
        (min count (e.length * cs - ofs)) io).2.mem y = io.mem y := by
      refine moveRun_outside io total fun hin => hy.1 ⟨hlcn, by omega, ?_⟩
      rw [add_mul]
      omega
    rw [transferRuns]
    grind [writeHole, InRl]

theorem seekByte_le
    (cs pos : Int)
    (rl : Runlist)
    {ofs : Int}
    (hofs : ofs ≤ pos) :
    (seekByte cs pos rl ofs).2 ≤ pos ∧ (seekByte cs pos rl ofs).1 <:+ rl := by
  induction rl generalizing ofs with
  | nil => exact ⟨hofs, List.suffix_rfl⟩
  | cons e rest ih =>
    rw [seekByte]
    split_ifs with hseek
    · exact ⟨(ih hseek.2).1, (ih hseek.2).2.trans (List.suffix_cons e rest)⟩
    · exact ⟨hofs, List.suffix_rfl⟩

/-- Whatever the device answers, a write stays inside of the clusters of the runlist. -/
theorem rlPwriteDev_outside
    (hy : ¬InRl cs y rl)
    (pos count : Int) :
    (rlPwriteDev cs volRo devRo b rl 0 pos count io).2.mem y = io.mem y := by
  have hresult : ∀ r, (transferResult r).2 = r.2.2 := by
    rintro ⟨_ | err, total, io⟩ <;> rfl
  unfold rlPwriteDev
  split_ifs with hbad
  · rfl
  · rfl
  · obtain ⟨hle, hsuffix⟩ := seekByte_le cs pos rl (show 0 ≤ pos by omega)
    dsimp only
    rw [hresult]
    refine transferRuns_outside io (mt ?_ hy) (by omega) _ _
    rintro ⟨e, he, hin⟩
    exact ⟨e, hsuffix.subset he, hin⟩

theorem InRl.mem_heldClusters
    (hcs : 0 < cs)
    (h : InRl cs y rl) :
    (y / cs).toNat ∈ heldClusters rl := by
  obtain ⟨e, he, hlcn, hlo, hhi⟩ := h
  have hlow := Int.le_ediv_of_mul_le hcs hlo
  have hhigh := Int.ediv_lt_of_lt_mul hcs hhi
  refine List.mem_map.mpr ⟨(e.vcn + (y / cs - e.lcn), y / cs), ?_, rfl⟩
  exact List.mem_flatMap.mpr ⟨e, he, mem_clustersOf.mpr (by omega)⟩

/-- A write through the first runlist changes no byte in the clusters of the second one. -/
def Untouched (cs : Int) (rl rl' : Runlist) : Prop :=
  ∀ volRo devRo b pos count io y, InRl cs y rl' →
    (rlPwriteDev cs volRo devRo b rl 0 pos count io).2.mem y = io.mem y

/-- Disjoint runlists do not touch each other's bytes. -/
theorem untouched_of_disjoint
    {rl' : Runlist}
    (hcs : 0 < cs)
    (h : (heldClusters rl).Disjoint (heldClusters rl')) :
    Untouched cs rl rl' := by
  intro volRo devRo b pos count io y hin
  refine rlPwriteDev_outside io (fun hrl => ?_) pos count
  exact h (hrl.mem_heldClusters hcs) (hin.mem_heldClusters hcs)

/-- Whatever the device answers, the runlists that are held do not touch one another. -/
theorem holders_isolated
    (vol : AllocVolume)
    (ops : List HolderOp)
    (clusterSizeBits : Nat) :
    (ops.foldl HolderOp.apply ⟨vol, []⟩).held.Pairwise fun rl rl' =>
      Untouched (2 ^ clusterSizeBits) rl rl' ∧ Untouched (2 ^ clusterSizeBits) rl' rl := by
  have hrun := Exclusive.run (s := ⟨vol, []⟩) (exclusive_nil vol) ops
  refine (List.nodup_flatMap.mp hrun.nodup).2.imp fun h => ?_
  exact ⟨untouched_of_disjoint (by positivity) h, untouched_of_disjoint (by positivity) h.symm⟩

end Writes

end NtfsPlus.Libntfs
