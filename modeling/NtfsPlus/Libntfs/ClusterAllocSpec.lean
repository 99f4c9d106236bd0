import NtfsPlus.Libntfs.ClusterAlloc
import NtfsPlus.Libntfs.FsckDuplicates

/-!
# What the cluster allocator allocates

`AllocProgress` relates the variables of a search to the volume it began with: the
runs describe a list of distinct clusters that were free, and the bitmap on
disk differs from the first one by those clusters and by clusters of the
oracle.  Searching one window keeps it (`AllocProgress.window`), so every step
does, and so does a whole search (`allocRun_progress`).

Nothing in the search looks at `nr_clusters` once a window is read.
`clusterAlloc_in_volume_iff` says what follows for the clusters that are
allocated.
-/

namespace NtfsPlus.Libntfs

section Oracle

/-- A byte of the occupancy oracle; there is none outside of fsck. -/
def oracleByte (fsck : Option FsckAlloc) (i : Nat) : UInt8 :=
  match fsck with
  | none => 0
  | some f => findAllocLcnbmpBlock f i (i % ntfsBufSize)

/-- The oracle knows a cluster to be in use. -/
def oracleAt (vol : AllocVolume) (n : Nat) : Bool :=
  bitAt (oracleByte vol.fsck) n

/-- A cluster is in use on disk or for the oracle. -/
def AllocVolume.occupied (vol : AllocVolume) (n : Nat) : Bool :=
  bitAt vol.bitmap n || oracleAt vol n

theorem findAllocLcnbmpBlock_congr
    (f : FsckAlloc)
    {i j : Nat}
    (h : i / ntfsBufSize = j / ntfsBufSize) :
    findAllocLcnbmpBlock f i = findAllocLcnbmpBlock f j := by
  unfold findAllocLcnbmpBlock fbRoundDown
  rw [h]

/-- Each byte of the window is joined with the one of the shadow bitmap. -/
theorem orAllocLcnbmpFrom_apply
    (f : FsckAlloc)
    (bytePos nbytes : Nat)
    {fuel done : Nat}
    (hfuel : nbytes ≤ fuel + done)
    (dst : Bytes)
    (j : Nat) :
    orAllocLcnbmpFrom f bytePos nbytes fuel done dst j =
      if done ≤ j ∧ j < nbytes then dst j ||| oracleByte (some f) (bytePos + j) else dst j := by
  induction fuel generalizing done dst with
  | zero => rw [orAllocLcnbmpFrom, if_neg (by omega)]
  | succ fuel ih =>
    rw [orAllocLcnbmpFrom]
    by_cases hmore : done < nbytes
    · rw [if_pos hmore]
      have hoff : (bytePos + done) % ntfsBufSize < ntfsBufSize := Nat.mod_lt _ (by decide)
      generalize hc : min (ntfsBufSize - (bytePos + done) % ntfsBufSize) (nbytes - done) = chunk
      have hchunk : 0 < chunk ∧ chunk ≤ nbytes - done ∧
          (bytePos + done) % ntfsBufSize + chunk ≤ ntfsBufSize := by omega
      rw [ih (by omega)]
      by_cases hin : done ≤ j ∧ j < done + chunk
      · rw [if_neg (by omega), if_pos hin, if_pos (by omega)]
        have hdiv : (bytePos + done) / ntfsBufSize = (bytePos + j) / ntfsBufSize := by
          simp only [ntfsBufSize] at hchunk ⊢
          omega
        have hmod : (bytePos + done) % ntfsBufSize + (j - done) = (bytePos + j) % ntfsBufSize := by
          simp only [ntfsBufSize] at hchunk ⊢
          omega
        rw [hmod, findAllocLcnbmpBlock_congr f hdiv]
        rfl
      · rw [if_neg hin]
        split
        · rw [if_pos (by omega)]
        · rw [if_neg (by omega)]
    · rw [if_neg hmore, if_neg (by omega)]

/-- A window shows which clusters are occupied. -/
theorem bitAt_readAllocWindow
    (vol : AllocVolume)
    (pos br : Nat)
    {j : Nat}
    (hj : j < 8 * br) :
    bitAt (readAllocWindow vol pos br) j = vol.occupied (8 * pos + j) := by
  have hdiv : (8 * pos + j) / 8 = pos + j / 8 := by omega
  have hmod : (8 * pos + j) % 8 = j % 8 := by omega
  simp only [AllocVolume.occupied, oracleAt, bitAt, hdiv, hmod]
  unfold readAllocWindow
  cases hf : vol.fsck with
  | none => simp [oracleByte]
  | some f =>
    dsimp only
    rw [orAllocLcnbmp, orAllocLcnbmpFrom_apply f pos br (by omega), if_pos (by omega),
      UInt8.toNat_or, Nat.testBit_or]

end Oracle

section Runs

/-- Clusters with consecutive VCNs. -/
def vcnPairs (startVcn : Int) (cs : List Nat) : List (Int × Int) :=
  cs.mapIdx (fun (i : Nat) (c : Nat) => (startVcn + (i : Int), (c : Int)))

theorem vcnPairs_concat
    (startVcn : Int)
    (cs : List Nat)
    (c : Nat) :
    vcnPairs startVcn (cs ++ [c]) =
      vcnPairs startVcn cs ++ [(startVcn + cs.length, (c : Int))] := by
  simp [vcnPairs]

/-- The runs, the last one first, hold the clusters in order. -/
structure Describes (startVcn : Int) (runs : Runlist) (cs : List Nat) : Prop where
  pos : ∀ e ∈ runs, 0 < e.length
  pairs : runs.reverse.flatMap clustersOf = vcnPairs startVcn cs
  last : endVcn startVcn runs = startVcn + cs.length

theorem clustersOf_one
    (vcn lcn : Int) :
    clustersOf ⟨vcn, lcn, 1⟩ = [(vcn, lcn)] := by
  simp [clustersOf]

/-- The runlist describes one cluster more. -/
theorem addCluster_describes
    {startVcn : Int} {runs : Runlist} {cs : List Nat}
    (h : Describes startVcn runs cs)
    (c : Nat) :
    Describes startVcn (addCluster startVcn runs c) (cs ++ [c]) := by
  obtain ⟨hpos, hpairs, hlast⟩ := h
  cases runs with
  | nil =>
    have hzero : cs.length = 0 := by
      have : startVcn = startVcn + (cs.length : Int) := hlast
      omega
    obtain rfl := List.length_eq_zero_iff.mp hzero
    refine ⟨by simp [addCluster], ?_, ?_⟩
    · simp [addCluster, vcnPairs, clustersOf_one]
    · simp [addCluster, endVcn]
  | cons last rest =>
    have hl := hpos last (by simp)
    have hend : last.vcn + last.length = startVcn + cs.length := hlast
    rw [addCluster]
    split_ifs
    · refine ⟨?_, ?_, ?_⟩
      · intro e he
        rcases List.mem_cons.mp he with rfl | he
        · show 0 < last.length + 1
          omega
        · exact hpos e (by simp [he])
      · rw [vcnPairs_concat, ← hpairs]
        have hc : last.lcn + last.length = c := by omega
        simp only [List.reverse_cons, List.flatMap_append, List.flatMap_cons, List.flatMap_nil,
          List.append_nil]
        rw [clustersOf_succ (by omega) hend hc, List.append_assoc]
      · show last.vcn + (last.length + 1) = _
        simp only [List.length_append, List.length_cons, List.length_nil]
        omega
    · refine ⟨?_, ?_, ?_⟩
      · intro e he
        rcases List.mem_cons.mp he with rfl | he
        · exact Int.one_pos
        · exact hpos e he
      · rw [vcnPairs_concat, ← hpairs, List.reverse_cons, List.flatMap_append,
          List.flatMap_singleton, clustersOf_one, hend]
      · show last.vcn + last.length + 1 = _
        simp only [List.length_append, List.length_cons, List.length_nil]
        omega

end Runs

section Windows

/-- What `takeRun` does: it takes `k` free clusters in a row. -/
structure Takes (startVcn : Int) (bmpPos lcn n k : Nat) (w w' : AllocWindow) (e : RunEnd) :
    Prop where
  le : k ≤ n
  free : ∀ j, lcn ≤ j → j < lcn + k → bitAt w.buf j = false
  buf : ∀ j, bitAt w'.buf j = (bitAt w.buf j || decide (lcn ≤ j ∧ j < lcn + k))
  clusters : w'.clusters + k = w.clusters
  ended : (∃ c, e = .done c) ↔ w'.clusters = 0
  writeback : w'.writeback = (w.writeback || decide (0 < k))
  describes : ∀ cs, Describes startVcn w.runs cs →
    Describes startVcn w'.runs (cs ++ (List.range k).map (fun i => lcn + i + bmpPos))
  bitmap : w'.vol.bitmap = w.vol.bitmap
  bitmapSize : w'.vol.bitmapSize = w.vol.bitmapSize
  oracle : oracleByte w'.vol.fsck = oracleByte w.vol.fsck

theorem oracleByte_note
    (vol : AllocVolume)
    (lcn : Nat) :
    oracleByte (vol.note lcn).fsck = oracleByte vol.fsck := by
  unfold AllocVolume.note
  cases hf : vol.fsck with
  | none => rfl
  | some f =>
    cases setLcnbmpRange f.vol lcn 1 1 with
    | ok v => rfl
    | error err => rfl

/-- A window of which nothing is taken. -/
theorem takes_none
    (startVcn : Int)
    (bmpPos lcn n : Nat)
    {w : AllocWindow} {e : RunEnd}
    (hended : (∃ c, e = .done c) ↔ w.clusters = 0) :
    Takes startVcn bmpPos lcn n 0 w w e where
  le := Nat.zero_le n
  free := by omega
  buf := by
    intro j
    rw [decide_eq_false (by omega), Bool.or_false]
  clusters := rfl
  ended := hended
  writeback := by simp
  describes := by simp
  bitmap := rfl
  bitmapSize := rfl
  oracle := rfl

/-- One more cluster is taken. -/
theorem Takes.cons
    {startVcn : Int} {bmpPos lcn n k : Nat} {w w' : AllocWindow} {e : RunEnd}
    (hbit : bitAt w.buf lcn = false)
    (hpos : 0 < w.clusters)
    (h : Takes startVcn bmpPos (lcn + 1) n k (w.take startVcn bmpPos lcn) w' e) :
    Takes startVcn bmpPos lcn (n + 1) (k + 1) w w' e where
  le := Nat.succ_le_succ h.le
  free := by
    intro j hlow hhigh
    by_cases hj : j = lcn
    · rw [hj]
      exact hbit
    · have hfree := h.free j (by omega) (by omega)
      have hset := bitAt_bitSet w.buf lcn j true
      rw [if_neg hj] at hset
      exact hset.symm.trans hfree
  buf := by
    intro j
    have hset := bitAt_bitSet w.buf lcn j true
    rw [h.buf j, show bitAt (w.take startVcn bmpPos lcn).buf j = _ from hset]
    split_ifs
    · rw [decide_eq_true (show lcn ≤ j ∧ j < lcn + (k + 1) by omega)]
      simp
    · congr 1
      apply decide_eq_decide.mpr
      omega
  clusters := by
    have h' := h.clusters
    have htake : (w.take startVcn bmpPos lcn).clusters = w.clusters - 1 := rfl
    omega
  ended := h.ended
  writeback := by
    rw [h.writeback, show (w.take startVcn bmpPos lcn).writeback = true from rfl]
    simp
  describes := by
    intro cs hcs
    have h' := h.describes _ (addCluster_describes hcs (lcn + bmpPos))
    have hshift : (fun i => lcn + i + bmpPos) ∘ Nat.succ = fun i => lcn + 1 + i + bmpPos := by
      funext i
      simp only [Function.comp_apply]
      omega
    rw [List.append_assoc] at h'
    rw [List.range_succ_eq_map, List.map_cons, List.map_map, hshift]
    exact h'
  bitmap := h.bitmap
  bitmapSize := h.bitmapSize
  oracle := h.oracle.trans (oracleByte_note _ _)

/-- The inner loop takes free clusters in a row. -/
theorem takeRun_takes
    (startVcn : Int)
    (bmpPos n lcn : Nat)
    {w : AllocWindow}
    (hpos : 0 < w.clusters) :
    ∃ k, Takes startVcn bmpPos lcn n k w (takeRun startVcn bmpPos n lcn w).1
      (takeRun startVcn bmpPos n lcn w).2 := by
  have hnone : ∀ {e : RunEnd}, (∀ c, e ≠ .done c) → ((∃ c, e = .done c) ↔ w.clusters = 0) :=
    fun he => ⟨fun ⟨c, hc⟩ => absurd hc (he c), fun h => by omega⟩
  induction n generalizing lcn w with
  | zero => exact ⟨0, takes_none startVcn bmpPos lcn 0 (hnone (by simp [takeRun]))⟩
  | succ n ih =>
    rw [takeRun]
    cases hbit : bitAt w.buf lcn with
    | true =>
      exact ⟨0, takes_none startVcn bmpPos lcn _ (hnone (by simp))⟩
    | false =>
      by_cases hlast : (w.take startVcn bmpPos lcn).clusters = 0
      · rw [if_pos hlast]
        exact ⟨1, Takes.cons hbit hpos (takes_none startVcn bmpPos (lcn + 1) n
          ⟨fun _ => hlast, fun _ => ⟨_, rfl⟩⟩)⟩
      · rw [if_neg hlast]
        obtain ⟨k, hk⟩ := ih (lcn + 1) (Nat.pos_of_ne_zero hlast)
          (fun he => ⟨fun ⟨c, hc⟩ => absurd hc (he c), fun h => absurd h hlast⟩)
        exact ⟨k + 1, hk.cons hbit hpos⟩

/-- So does the scan of a window. -/
theorem scanWindow_takes
    (startVcn : Int)
    (bmpPos br lcn : Nat)
    (hasGuess : Bool)
    {w : AllocWindow}
    (hpos : 0 < w.clusters) :
    ∃ lcn' k, Takes startVcn bmpPos lcn' (8 * br - lcn') k w
      (scanWindow startVcn bmpPos br lcn hasGuess w).1
      (scanWindow startVcn bmpPos br lcn hasGuess w).2.1 := by
  unfold scanWindow
  cases (if hasGuess then some lcn else maxEmptyBitRange w.buf br) with
  | none => exact ⟨0, 0, takes_none startVcn bmpPos 0 _ ⟨by simp, fun h => by omega⟩⟩
  | some lcn' => exact ⟨lcn', takeRun_takes startVcn bmpPos (8 * br - lcn') lcn' hpos⟩

end Windows

section Progress

/-- The clusters `cs` have been allocated on the volume `vol₀`, in this order. -/
structure AllocProgress (vol₀ : AllocVolume) (startVcn : Int) (count : Nat)
    (vol : AllocVolume) (runs : Runlist) (clusters : Nat) (cs : List Nat) : Prop where
  describes : Describes startVcn runs cs
  counted : cs.length + clusters = count
  nodup : cs.Nodup
  inside : ∀ c ∈ cs, c < 8 * vol₀.bitmapSize
  free : ∀ c ∈ cs, vol₀.occupied c = false
  keeps : ∀ n, bitAt vol₀.bitmap n = true → bitAt vol.bitmap n = true
  taken : ∀ c ∈ cs, bitAt vol.bitmap c = true
  origin : ∀ n, bitAt vol.bitmap n = true →
    bitAt vol₀.bitmap n = true ∨ n ∈ cs ∨ oracleAt vol₀ n = true
  bitmapSize : vol.bitmapSize = vol₀.bitmapSize
  oracle : oracleByte vol.fsck = oracleByte vol₀.fsck

variable {vol₀ : AllocVolume} {startVcn : Int} {count : Nat}

/-- Nothing is allocated at the start. -/
theorem AllocProgress.start
    (vol : AllocVolume)
    (startVcn : Int)
    (count : Nat) :
    AllocProgress vol startVcn count vol [] count [] where
  describes := ⟨by simp, rfl, by simp [endVcn]⟩
  counted := by simp
  nodup := List.nodup_nil
  inside := by simp
  free := by simp
  keeps := fun _ h => h
  taken := by simp
  origin := fun _ h => Or.inl h
  bitmapSize := rfl
  oracle := rfl

variable {vol : AllocVolume} {runs : Runlist} {clusters : Nat} {cs : List Nat}

/-- Zone positions do not matter to what is allocated. -/
theorem AllocProgress.congr
    {vol' : AllocVolume}
    (h : AllocProgress vol₀ startVcn count vol runs clusters cs)
    (hbitmap : vol'.bitmap = vol.bitmap)
    (hsize : vol'.bitmapSize = vol.bitmapSize)
    (hfsck : vol'.fsck = vol.fsck) :
    AllocProgress vol₀ startVcn count vol' runs clusters cs where
  describes := h.describes
  counted := h.counted
  nodup := h.nodup
  inside := h.inside
  free := h.free
  keeps := by rw [hbitmap]; exact h.keeps
  taken := by rw [hbitmap]; exact h.taken
  origin := by rw [hbitmap]; exact h.origin
  bitmapSize := hsize.trans h.bitmapSize
  oracle := by rw [hfsck]; exact h.oracle

/-- A window that is written back replaces its bits. -/
theorem bitAt_bitmapWriteback
    (vol : AllocVolume)
    (pos br : Nat)
    (buf : Bytes)
    (n : Nat) :
    bitAt (bitmapWriteback vol pos br buf).bitmap n =
      if 8 * pos ≤ n ∧ n < 8 * (pos + br) then bitAt buf (n - 8 * pos) else bitAt vol.bitmap n := by
  have hdiv : 8 * pos ≤ n → (n - 8 * pos) / 8 = n / 8 - pos := fun h => by omega
  have hmod : 8 * pos ≤ n → (n - 8 * pos) % 8 = n % 8 := fun h => by omega
  split_ifs with hin
  · simp only [bitAt, bitmapWriteback, hdiv hin.1, hmod hin.1]
    rw [if_pos (by omega)]
  · simp only [bitAt, bitmapWriteback]
    rw [if_neg (by omega)]

/-- A cluster that a window shows to be free has been free from the start. -/
theorem AllocProgress.free_of_window
    (h : AllocProgress vol₀ startVcn count vol runs clusters cs)
    {n : Nat}
    (hn : vol.occupied n = false) :
    vol₀.occupied n = false ∧ n ∉ cs := by
  simp only [AllocVolume.occupied, oracleAt, Bool.or_eq_false_iff] at hn ⊢
  rw [h.oracle] at hn
  refine ⟨⟨?_, hn.2⟩, fun hmem => ?_⟩
  · by_contra hset
    exact absurd (h.keeps n (Bool.eq_true_of_not_eq_false hset)) (by simp [hn.1])
  · exact absurd (h.taken n hmem) (by simp [hn.1])

/-- The clusters of a window are added to the progress. -/
theorem AllocProgress.window
    (h : AllocProgress vol₀ startVcn count vol runs clusters cs)
    {pos br lcn k : Nat} {w : AllocWindow} {e : RunEnd}
    (hbr : pos + br ≤ vol.bitmapSize)
    (ht : Takes startVcn (8 * pos) lcn (8 * br - lcn) k
      ⟨vol, readAllocWindow vol pos br, false, clusters, runs⟩ w e) :
    AllocProgress vol₀ startVcn count (writtenVolume w pos br) w.runs w.clusters
      (cs ++ (List.range k).map (fun i => lcn + i + 8 * pos)) := by
  have hle := ht.le
  have hdescribes := ht.describes cs h.describes
  have hlen : ((List.range k).map (fun i => lcn + i + 8 * pos)).length = k := by simp
  have hnodup : ((List.range k).map (fun i => lcn + i + 8 * pos)).Nodup := by
    rw [List.nodup_map_iff_inj_on List.nodup_range]
    omega
  have hnew : ∀ n, n ∈ (List.range k).map (fun i => lcn + i + 8 * pos) ↔
      lcn ≤ n - 8 * pos ∧ n - 8 * pos < lcn + k ∧ 8 * pos ≤ n := by
    intro n
    simp only [List.mem_map, List.mem_range]
    exact ⟨by rintro ⟨i, hi, rfl⟩; omega, fun h => ⟨n - 8 * pos - lcn, by omega, by omega⟩⟩
  generalize (List.range k).map (fun i => lcn + i + 8 * pos) = new at *
  have hfree : ∀ c ∈ new, vol₀.occupied c = false ∧ c ∉ cs := by
    intro c hc
    obtain ⟨hlow, hhigh, hpos⟩ := (hnew c).mp hc
    have hbit := ht.free _ hlow hhigh
    rw [bitAt_readAllocWindow vol pos br (by omega), Nat.add_sub_cancel' hpos] at hbit
    exact h.free_of_window hbit
  -- the bitmap afterwards: the old one, the clusters taken and clusters of the oracle
  have hbits : ∀ n, bitAt (writtenVolume w pos br).bitmap n = true ↔
      bitAt vol.bitmap n = true ∨ n ∈ new ∨
        (8 * pos ≤ n ∧ n < 8 * (pos + br) ∧ 0 < k) ∧ oracleAt vol n = true := by
    intro n
    have hwb : w.writeback = decide (0 < k) := by simpa using ht.writeback
    rw [hnew, writtenVolume, hwb]
    by_cases hk : 0 < k
    · rw [decide_eq_true hk, if_pos rfl, bitAt_bitmapWriteback]
      split_ifs with hin
      · rw [ht.buf, bitAt_readAllocWindow vol pos br (by omega), Nat.add_sub_cancel' hin.1,
          AllocVolume.occupied, Bool.or_eq_true, Bool.or_eq_true, decide_eq_true_eq]
        tauto
      · have hout : ¬ (lcn ≤ n - 8 * pos ∧ n - 8 * pos < lcn + k ∧ 8 * pos ≤ n) := by omega
        rw [ht.bitmap]
        tauto
    · have hnone : ¬ (lcn ≤ n - 8 * pos ∧ n - 8 * pos < lcn + k ∧ 8 * pos ≤ n) := by omega
      rw [decide_eq_false hk, if_neg (by decide), ht.bitmap]
      tauto
  refine ⟨hdescribes, ?_, List.nodup_append.mpr ⟨h.nodup, hnodup, ?_⟩,
    List.forall_mem_append.mpr ⟨h.inside, ?_⟩,
    List.forall_mem_append.mpr ⟨h.free, fun c hc => (hfree c hc).1⟩,
    fun n hn => (hbits n).mpr (Or.inl (h.keeps n hn)),
    List.forall_mem_append.mpr ⟨fun c hc => (hbits c).mpr (Or.inl (h.taken c hc)),
      fun c hc => (hbits c).mpr (Or.inr (Or.inl hc))⟩, ?_, ?_, ?_⟩
  · have hk : w.clusters + k = clusters := ht.clusters
    have := h.counted
    rw [List.length_append]
    omega
  · rintro a ha b hb rfl
    exact (hfree a hb).2 ha
  · intro c hc
    have := (hnew c).mp hc
    rw [← h.bitmapSize]
    omega
  · intro n hn
    rcases (hbits n).mp hn with hn | hn | ⟨-, ho⟩
    · rcases h.origin n hn with hn | hn | hn
      · exact Or.inl hn
      · exact Or.inr (Or.inl (List.mem_append_left _ hn))
      · exact Or.inr (Or.inr hn)
    · exact Or.inr (Or.inl (List.mem_append_right _ hn))
    · rw [oracleAt, h.oracle] at ho
      exact Or.inr (Or.inr ho)
  · unfold writtenVolume
    split_ifs <;> exact ht.bitmapSize.trans h.bitmapSize
  · unfold writtenVolume
    split_ifs <;> exact ht.oracle.trans h.oracle

end Progress

section Steps

/-- Where the search goes on after a window without the last cluster. -/
structure WindowNext (st : AllocState) (w : AllocWindow) (br : Nat) (st' : AllocState) : Prop where
  vol : st'.vol = writtenVolume w (st.bmpPos / 8) br
  runs : st'.runs = w.runs
  clusters : st'.clusters = w.clusters
  searchZone : st'.searchZone = st.searchZone
  doneZones : st'.doneZones = st.doneZones
  used : st'.usedZonePos = true
  pass2 : st.pass2 = true → st'.pass2 = true
  moves : st.usedZonePos = true → st'.pass2 = st.pass2 ∧ (st'.label = .zonePassDone ∨
      st'.label = .top ∧ st'.bmpPos = st.bmpPos / 8 * 8 + 8 * br)
  label : st'.label ≠ .doneZonesCheck

/-- Behind a window the search goes on in the zone or ends its pass. -/
theorem advance_next
    (st : AllocState)
    (br : Nat)
    (w : AllocWindow)
    (hasGuess : Bool) :
    WindowNext st w br (advance (st.scanned br w hasGuess) br) := by
  unfold advance AllocState.scanned
  cases hused : st.usedZonePos with
  | true =>
    refine ⟨rfl, rfl, rfl, rfl, rfl, by simp, fun h => h, fun _ => ⟨rfl, ?_⟩, ?_⟩
    · by_cases hpos : st.bmpPos / 8 * 8 + 8 * br < st.zoneEnd
      · exact Or.inr ⟨if_pos hpos, rfl⟩
      · exact Or.inl (if_neg hpos)
    · dsimp only
      split_ifs <;> simp
  | false =>
    refine ⟨rfl, rfl, rfl, rfl, rfl, rfl, fun h => by simp [h], fun h => by simp [hused] at h, ?_⟩
    dsimp only
    split_ifs <;> simp

/-- What a step that reads a window can do. -/
theorem stepTop_cases
    (startVcn : Int)
    {st : AllocState}
    (hpos : 0 < st.clusters) :
    stepTop startVcn st = .goto { st with label := .zonePassDone } ∨
    stepTop startVcn st = .fail .eio st ∨
    ∃ br lcn k w e, 0 < br ∧ st.bmpPos / 8 + br ≤ st.vol.bitmapSize ∧
      Takes startVcn (8 * (st.bmpPos / 8)) lcn (8 * br - lcn) k
        ⟨st.vol, readAllocWindow st.vol (st.bmpPos / 8) br, false, st.clusters, st.runs⟩ w e ∧
      ((w.clusters = 0 ∧ ∃ tc, stepTop startVcn st = .done (if st.usedZonePos then
              clusterUpdateZonePos (writtenVolume w (st.bmpPos / 8) br) st.searchZone tc
            else writtenVolume w (st.bmpPos / 8) br) w.runs) ∨
        (0 < w.clusters ∧ ∃ st', stepTop startVcn st = .goto st' ∧ WindowNext st w br st')) := by
  unfold stepTop
  by_cases hfull : st.vol.fullZones st.searchZone = true
  · rw [if_pos hfull]
    exact Or.inl rfl
  rw [if_neg hfull]
  dsimp only
  generalize hb : min lcnbmpAllocSize (st.vol.bitmapSize - st.bmpPos / 8) = br
  by_cases hbr : br = 0
  · rw [if_pos hbr]
    exact Or.inl rfl
  rw [if_neg hbr]
  by_cases hio : st.io 0 = true
  · rw [if_pos hio]
    exact Or.inr (Or.inl rfl)
  rw [if_neg hio]
  obtain ⟨lcn, k, ht⟩ := scanWindow_takes startVcn (8 * (st.bmpPos / 8)) br (st.bmpPos % 8)
    st.hasGuess (w := ⟨st.vol, readAllocWindow st.vol (st.bmpPos / 8) br, false, st.clusters,
      st.runs⟩) hpos
  generalize scanWindow startVcn (8 * (st.bmpPos / 8)) br (st.bmpPos % 8) st.hasGuess
    ⟨st.vol, readAllocWindow st.vol (st.bmpPos / 8) br, false, st.clusters, st.runs⟩ = r at ht ⊢
  obtain ⟨w, e, guess⟩ := r
  unfold afterWindow
  by_cases hwb : (w.writeback && st.io 1) = true
  · rw [if_pos hwb]
    exact Or.inr (Or.inl rfl)
  rw [if_neg hwb]
  refine Or.inr (Or.inr ⟨br, lcn, k, w, e, Nat.pos_of_ne_zero hbr, by omega, ht, ?_⟩)
  have hgo : (∀ c, e ≠ .done c) → 0 < w.clusters := by
    intro he
    by_contra hzero
    obtain ⟨c, hc⟩ := ht.ended.mpr (Nat.eq_zero_of_not_pos hzero)
    exact he c hc
  cases e with
  | done c => exact Or.inl ⟨ht.ended.mp ⟨c, rfl⟩, c + 1 + lcnbmpAllocSize, rfl⟩
  | used => exact Or.inr ⟨hgo (by simp), _, rfl, advance_next st br w guess⟩
  | exhausted => exact Or.inr ⟨hgo (by simp), _, rfl, advance_next st br w guess⟩

end Steps

section Results

variable {vol₀ : AllocVolume} {startVcn : Int} {count : Nat}

/-- The variables of a search are in progress. -/
def Searching (vol₀ : AllocVolume) (startVcn : Int) (count : Nat) (st : AllocState) : Prop :=
  0 < st.clusters ∧ ∃ cs, AllocProgress vol₀ startVcn count st.vol st.runs st.clusters cs

variable {vol : AllocVolume} {st : AllocState}

variable {runs rl : Runlist} {clusters : Nat} {cs : List Nat} {vol' : AllocVolume}
variable {io : Nat → Bool} {zone : AllocationZone}

theorem clusterUpdateZonePos_progress
    (h : AllocProgress vol₀ startVcn count vol runs clusters cs)
    (zone : Zone)
    (tc : Nat) :
    AllocProgress vol₀ startVcn count (clusterUpdateZonePos vol zone tc) runs clusters cs := by
  cases zone with
  | mft => exact h.congr rfl rfl rfl
  | data1 => exact h.congr rfl rfl rfl
  | data2 => exact h.congr rfl rfl rfl

/-- Updating the zone positions at the end keeps the progress. -/
theorem leftVolume_progress
    (h : AllocProgress vol₀ startVcn count st.vol st.runs clusters cs) :
    AllocProgress vol₀ startVcn count (leftVolume st) st.runs clusters cs := by
  unfold leftVolume
  cases hr : st.runs with
  | nil =>
    rw [hr] at h
    exact h.congr rfl rfl rfl
  | cons last rest =>
    rw [hr] at h
    split_ifs
    · refine clusterUpdateZonePos_progress ?_ _ _
      exact h.congr rfl rfl rfl
    · exact h.congr rfl rfl rfl

/-- One step of a search keeps the progress, and the last one completes it. -/
theorem allocStep_progress
    (h : Searching vol₀ startVcn count st) :
    match allocStep startVcn st with
    | .goto st' => Searching vol₀ startVcn count st'
    | .done vol runs => ∃ cs, AllocProgress vol₀ startVcn count vol runs 0 cs
    | .fail _ _ => True := by
  obtain ⟨hpos, cs, hp⟩ := h
  unfold allocStep
  cases hl : st.label with
  | top =>
    rcases stepTop_cases startVcn hpos with
      heq | heq | ⟨br, lcn, k, w, e, hbr, hsize, ht, ⟨hzero, tc, heq⟩ | ⟨hw, st', heq, hnext⟩⟩
    · rw [heq]
      exact ⟨hpos, cs, hp⟩
    · rw [heq]
      trivial
    · have hwin := hp.window hsize ht
      rw [heq]
      rw [hzero] at hwin
      split_ifs
      · exact ⟨_, clusterUpdateZonePos_progress hwin _ _⟩
      · exact ⟨_, hwin⟩
    · have hwin := hp.window hsize ht
      rw [heq]
      rw [← hnext.vol, ← hnext.runs, ← hnext.clusters] at hwin
      rw [← hnext.clusters] at hw
      exact ⟨hw, _, hwin⟩
  | zonePassDone =>
    unfold stepZonePassDone
    split_ifs
    · exact ⟨hpos, cs, hp⟩
    · exact ⟨hpos, cs, hp⟩
  | doneZonesCheck =>
    unfold stepDoneZonesCheck
    dsimp only
    split_ifs
    · trivial
    · exact ⟨hpos, cs, leftVolume_progress hp⟩
    · exact ⟨hpos, cs, leftVolume_progress hp⟩

/-- A search that succeeds has allocated what it says. -/
theorem allocRun_progress
    {fuel : Nat}
    (h : Searching vol₀ startVcn count st)
    (hrun : allocRun startVcn fuel st = some (.done vol runs)) :
    ∃ cs, AllocProgress vol₀ startVcn count vol runs 0 cs := by
  induction fuel generalizing st with
  | zero => simp [allocRun] at hrun
  | succ fuel ih =>
    have hstep := allocStep_progress h
    rw [allocRun] at hrun
    cases hnext : allocStep startVcn st with
    | goto st' =>
      rw [hnext] at hstep hrun
      exact ih hstep hrun
    | done vol' runs' =>
      rw [hnext] at hstep hrun
      cases hrun
      exact hstep
    | fail err st' =>
      rw [hnext] at hrun
      cases hrun

/-- The runlist that is returned, and what was allocated. -/
theorem clusterAlloc_runs
    {count startLcn : Int}
    (h : clusterAlloc vol io startVcn count startLcn zone = some (.ok (vol', rl)))
    (hcount : count ≠ 0) :
    ∃ runs cs, rl = runs.reverse ++ [unmappedAt (startVcn + count)] ∧
      AllocProgress vol startVcn count.toNat vol' runs 0 cs := by
  unfold clusterAlloc at h
  by_cases hbad : count < 0 ∨ startLcn < -1
  · rw [if_pos hbad] at h
    simp at h
  rw [if_neg hbad, if_neg hcount] at h
  have hstart : Searching vol startVcn count.toNat
      (allocStart vol io count.toNat startLcn zone) := by
    refine ⟨?_, [], AllocProgress.start vol startVcn count.toNat⟩
    show 0 < count.toNat
    omega
  cases hrun : allocRun startVcn (allocFuel vol) (allocStart vol io count.toNat startLcn zone) with
  | none =>
    rw [hrun] at h
    simp at h
  | some e =>
    rw [hrun] at h
    cases e with
    | fail err st => simp at h
    | done vol₁ runs =>
      obtain ⟨rfl, rfl⟩ := h
      obtain ⟨cs, hp⟩ := allocRun_progress hstart hrun
      refine ⟨runs, cs, ?_, hp⟩
      have hlen := hp.counted
      rw [hp.describes.last, unmappedAt, show (cs.length : Int) = count by omega]

/-- The clusters of the result, in the order of their VCNs. -/
theorem clusterAlloc_progress
    {count startLcn : Int}
    (h : clusterAlloc vol io startVcn count startLcn zone = some (.ok (vol', rl))) :
    ∃ runs cs, rl.flatMap clustersOf = vcnPairs startVcn cs ∧
      AllocProgress vol startVcn count.toNat vol' runs 0 cs := by
  by_cases hzero : count = 0
  · subst hzero
    unfold clusterAlloc at h
    by_cases hbad : (0 : Int) < 0 ∨ startLcn < -1
    · rw [if_pos hbad] at h
      simp at h
    rw [if_neg hbad] at h
    obtain ⟨rfl, rfl⟩ := h
    exact ⟨[], [], by simp [vcnPairs, clustersOf], AllocProgress.start vol startVcn 0⟩
  · obtain ⟨runs, cs, rfl, hp⟩ := clusterAlloc_runs h hzero
    refine ⟨runs, cs, ?_, hp⟩
    rw [List.flatMap_append, hp.describes.pairs]
    simp [clustersOf, unmappedAt]

/-- The VCNs are consecutive. -/
theorem vcnPairs_fst
    (startVcn : Int)
    (cs : List Nat) :
    (vcnPairs startVcn cs).map Prod.fst =
      (List.range cs.length).map (fun (i : Nat) => startVcn + i) := by
  apply List.ext_getElem
  · simp [vcnPairs]
  · simp [vcnPairs]

theorem vcnPairs_snd
    (startVcn : Int)
    (cs : List Nat) :
    (vcnPairs startVcn cs).map Prod.snd = cs.map (fun (c : Nat) => (c : Int)) := by
  apply List.ext_getElem
  · simp [vcnPairs]
  · simp [vcnPairs]

/--
When `ntfs_cluster_alloc` succeeds, its runlist maps the VCNs that were asked
for, in order, to distinct clusters that were free on disk and for the oracle.
They are marked on disk afterwards, and apart from them only bits of the oracle
have changed there.
-/
theorem clusterAlloc_allocates
    {vol vol' : AllocVolume} {io : Nat → Bool} {startVcn count startLcn : Int}
    {zone : AllocationZone} {rl : Runlist}
    (h : clusterAlloc vol io startVcn count startLcn zone = some (.ok (vol', rl))) :
    (rl.flatMap clustersOf).map Prod.fst =
      (List.range count.toNat).map (fun (i : Nat) => startVcn + i) ∧
    ((rl.flatMap clustersOf).map Prod.snd).Nodup ∧
    (∀ l ∈ (rl.flatMap clustersOf).map Prod.snd,
      0 ≤ l ∧ bitAt vol.bitmap l.toNat = false ∧ oracleAt vol l.toNat = false ∧
        bitAt vol'.bitmap l.toNat = true) ∧
    ∀ n, bitAt vol'.bitmap n ≠ bitAt vol.bitmap n →
      (n : Int) ∈ (rl.flatMap clustersOf).map Prod.snd ∨ oracleAt vol n = true := by
  obtain ⟨runs, cs, hpairs, hp⟩ := clusterAlloc_progress h
  have hlen : cs.length = count.toNat := hp.counted
  rw [hpairs, vcnPairs_fst, vcnPairs_snd, hlen]
  refine ⟨rfl, hp.nodup.map (fun _ _ => Int.ofNat.inj), ?_, ?_⟩
  · intro l hl
    obtain ⟨c, hc, rfl⟩ := List.mem_map.mp hl
    have hfree := hp.free c hc
    simp only [AllocVolume.occupied, Bool.or_eq_false_iff] at hfree
    exact ⟨Int.natCast_nonneg c, hfree.1, hfree.2, hp.taken c hc⟩
  · intro n hn
    cases hafter : bitAt vol'.bitmap n with
    | false =>
      cases hbefore : bitAt vol.bitmap n with
      | false => exact absurd (hafter.trans hbefore.symm) hn
      | true =>
        rw [hp.keeps n hbefore] at hafter
        cases hafter
    | true =>
      rcases hp.origin n hafter with hbefore | hmem | horacle
      · exact absurd (hafter.trans hbefore.symm) hn
      · exact Or.inl (List.mem_map.mpr ⟨n, hmem, rfl⟩)
      · exact Or.inr horacle

/-- A volume with 64 clusters, every other one of them in use. -/
def alternatingVolume : AllocVolume where
  nrClusters := 64
  mftLcn := 4
  mftZoneStart := 0
  mftZoneEnd := 12
  mftZonePos := 4
  data1ZonePos := 12
  data2ZonePos := 0
  fullZones := fun _ => false
  freeClusters := none
  bitmap := fun _ => 0xaa
  bitmapSize := 8
  fsck := none

theorem clusterAlloc_allocates_two :
    ∃ vol' rl, clusterAlloc alternatingVolume (fun _ => false) 5 2 (-1) .dataZone =
        some (.ok (vol', rl)) ∧
      (rl.flatMap clustersOf).map Prod.fst = [5, 6] ∧
      ((rl.flatMap clustersOf).map Prod.snd).Nodup := by
  have hok : ∃ r, clusterAlloc alternatingVolume (fun _ => false) 5 2 (-1) .dataZone =
      some (.ok r) := by
    set_option maxRecDepth 2000 in
    exact ⟨_, rfl⟩
  obtain ⟨⟨vol', rl⟩, hr⟩ := hok
  have hspec := clusterAlloc_allocates hr
  exact ⟨vol', rl, hr, hspec.1, hspec.2.1⟩

end Results

section InsideVolume

/-- A free cluster at the hint is taken at once. -/
theorem stepTop_hint
    (startVcn : Int)
    (st : AllocState)
    (hfull : st.vol.fullZones st.searchZone = false)
    (hio : ∀ i, st.io i = false)
    (hguess : st.hasGuess = true)
    (hclusters : st.clusters = 1)
    (hruns : st.runs = [])
    (hin : st.bmpPos / 8 < st.vol.bitmapSize)
    (hfree : st.vol.occupied st.bmpPos = false) :
    ∃ vol', stepTop startVcn st = .done vol' [⟨startVcn, st.bmpPos, 1⟩] := by
  unfold stepTop
  rw [if_neg (by simp [hfull])]
  dsimp only
  generalize hb : min lcnbmpAllocSize (st.vol.bitmapSize - st.bmpPos / 8) = br
  have hbr : 0 < br := by
    have : 0 < lcnbmpAllocSize := by decide
    omega
  rw [if_neg (by omega), if_neg (by simp [hio])]
  obtain ⟨n, hn⟩ : ∃ n, 8 * br - st.bmpPos % 8 = n + 1 := ⟨8 * br - st.bmpPos % 8 - 1, by omega⟩
  have hbit : bitAt (readAllocWindow st.vol (st.bmpPos / 8) br) (st.bmpPos % 8) = false := by
    rw [bitAt_readAllocWindow _ _ _ (by omega), Nat.div_add_mod]
    exact hfree
  have hpos : st.bmpPos % 8 + 8 * (st.bmpPos / 8) = st.bmpPos := by omega
  rw [scanWindow, hguess, if_pos rfl]
  dsimp only
  rw [hn, takeRun, if_neg (by simp [hbit])]
  simp only [AllocWindow.take, hclusters, hruns, hpos, if_true]
  rw [afterWindow, if_neg (by simp [hio])]
  exact ⟨_, rfl⟩

/-- With one data zone that is not full, `ntfs_cluster_alloc` returns the hint itself if it is
free. -/
theorem clusterAlloc_hint
    (vol : AllocVolume)
    (hstart : vol.mftZoneStart = 0)
    (hend : vol.mftZoneEnd = 0)
    (hfull : vol.fullZones .data1 = false)
    (startVcn : Int)
    {n : Nat}
    (hin : n < 8 * vol.bitmapSize)
    (hfree : vol.occupied n = false) :
    ∃ vol', clusterAlloc vol (fun _ => false) startVcn 1 n .dataZone =
      some (.ok (vol', [⟨startVcn, n, 1⟩, ⟨startVcn + 1, lcnRlNotMapped, 0⟩])) := by
  have hsearch : allocStart vol (fun _ => false) 1 n .dataZone =
      { allocStart vol (fun _ => false) 1 n .dataZone with
        label := .top, bmpPos := n, searchZone := .data1, hasGuess := true } := by
    simp [allocStart, hstart, hend]
  obtain ⟨vol', hstep⟩ := stepTop_hint startVcn
    ({ allocStart vol (fun _ => false) 1 n .dataZone with
      label := .top, bmpPos := n, searchZone := .data1, hasGuess := true })
    hfull (fun _ => rfl) rfl rfl rfl (show n / 8 < vol.bitmapSize by omega) hfree
  obtain ⟨fuel, hfuel⟩ : ∃ fuel, allocFuel vol = fuel + 1 :=
    ⟨allocFuel vol - 1, by unfold allocFuel; omega⟩
  refine ⟨vol', ?_⟩
  rw [clusterAlloc, Int.toNat_one, hsearch, hfuel, allocRun, allocStep, hstep]
  rfl

/--
The clusters that are allocated lie inside the volume, for every zone layout and
every hint, if and only if all bits of the bitmap behind the last cluster are
set on disk or in the oracle.
-/
theorem clusterAlloc_in_volume_iff
    (bitmap : Bytes)
    (bitmapSize nrClusters : Nat)
    (fsck : Option FsckAlloc) :
    (∀ vol : AllocVolume, vol.bitmap = bitmap → vol.bitmapSize = bitmapSize →
      vol.nrClusters = nrClusters → vol.fsck = fsck →
      ∀ io startVcn count startLcn zone vol' rl,
        clusterAlloc vol io startVcn count startLcn zone = some (.ok (vol', rl)) →
        ∀ p ∈ rl.flatMap clustersOf, p.2 < nrClusters) ↔
    ∀ n, nrClusters ≤ n → n < 8 * bitmapSize →
      bitAt bitmap n = true ∨ bitAt (oracleByte fsck) n = true := by
  constructor
  · intro h n hlow hhigh
    by_contra hfree
    let vol : AllocVolume := ⟨nrClusters, 0, 0, 0, 0, 0, 0, fun _ => false, none, bitmap,
      bitmapSize, fsck⟩
    have hocc : vol.occupied n = false := by simpa [AllocVolume.occupied, oracleAt] using hfree
    obtain ⟨vol', hok⟩ := clusterAlloc_hint vol rfl rfl rfl 0 hhigh hocc
    have hlt := h vol rfl rfl rfl rfl _ _ _ _ _ _ _ hok (0, (n : Int)) (by simp [clustersOf])
    omega
  · rintro h vol rfl rfl rfl rfl io startVcn count startLcn zone vol' rl hok p hp
    obtain ⟨runs, cs, hpairs, hprogress⟩ := clusterAlloc_progress hok
    have hmem : p.2 ∈ cs.map (fun (c : Nat) => (c : Int)) := by
      rw [← vcnPairs_snd startVcn, ← hpairs]
      exact List.mem_map_of_mem hp
    obtain ⟨c, hc, hpc⟩ := List.mem_map.mp hmem
    by_contra hge
    have hfree := hprogress.free c hc
    simp only [AllocVolume.occupied, oracleAt, Bool.or_eq_false_iff] at hfree
    rcases h c (by omega) (hprogress.inside c hc) with hset | hset
    · rw [hfree.1] at hset
      cases hset
    · rw [hfree.2] at hset
      cases hset

/-- A full volume of 12 clusters, whose bitmap has four clear bits behind the last one. -/
def paddedVolume : AllocVolume where
  nrClusters := 12
  mftLcn := 2
  mftZoneStart := 0
  mftZoneEnd := 4
  mftZonePos := 2
  data1ZonePos := 4
  data2ZonePos := 0
  fullZones := fun _ => false
  freeClusters := none
  bitmap := fun i => if i = 0 then 0xff else 0x0f
  bitmapSize := 2
  fsck := none

/-- Cluster 12 of a volume with 12 clusters is allocated. -/
theorem clusterAlloc_behind_volume :
    ∃ vol', clusterAlloc paddedVolume (fun _ => false) 0 1 (-1) .dataZone =
      some (.ok (vol', [⟨0, 12, 1⟩, ⟨1, lcnRlNotMapped, 0⟩])) := by
  set_option maxRecDepth 2000 in
  exact ⟨_, rfl⟩

end InsideVolume

end NtfsPlus.Libntfs
