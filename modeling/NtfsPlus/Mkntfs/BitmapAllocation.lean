import NtfsPlus.Lib.RunSet
import NtfsPlus.Lib.BitField
import Mathlib.Data.List.TakeWhile

/-!
# The allocation list of `mkntfs`

While it lays out a volume, `mkntfs` keeps the allocated clusters as a list of runs.
`bitmap_allocate` adds a range to the list and `bitmap_deallocate` takes one out of it;
`bitmap_build` turns a section of the list into the bits of `$Bitmap`.  A range is recorded
behind the last run that starts no later, and that run is the only one it is joined with:
the list stays sorted with runs that do not touch as long as every range asked for is free
and the cluster behind it is free as well.  Where memory is the subject, `bitmapAllocateIf` says
whether there is a list node for the range; the overflow of cluster numbers is left out.
-/

namespace NtfsPlus.Mkntfs

section Operations

/-- `bitmap_allocate`: the value returned and the list afterwards; `node` tells whether
`ntfs_malloc` gives a list node. -/
def bitmapAllocateIf (node : Bool) (l : List Run) (lcn length : Nat) : Bool × List Run :=
  if length = 0 then
    (true, l)
  else
    let before := l.takeWhile (·.lcn ≤ lcn)
    let after := l.dropWhile (·.lcn ≤ lcn)
    let done := !(before.getLast?.any (fun q => q.lcn + q.length > lcn) ||
      after.head?.any (fun p => lcn + length > p.lcn))
    let added := if node then (done, before ++ ⟨lcn, length⟩ :: after) else (false, l)
    match before.getLast? with
    | some q =>
      if q.lcn + q.length = lcn then
        (done, before.dropLast ++ ⟨q.lcn, q.length + length⟩ :: after)
      else
        added
    | none => added

/-- `bitmap_allocate` as long as there is memory. -/
def bitmapAllocate (l : List Run) (lcn length : Nat) : Bool × List Run :=
  bitmapAllocateIf true l lcn length

/-- The run has a common portion with the range. -/
def common (lcn length : Nat) (p : Run) : Bool :=
  max p.lcn lcn < min (p.lcn + p.length) (lcn + length)

/-- The parts of a run outside `first … last` are allocated again. -/
def reallocate (kept : List Run) (p : Run) (first last : Nat) : Bool × List Run :=
  let begun := bitmapAllocate kept p.lcn (first - p.lcn)
  let ended := bitmapAllocate begun.2 last (p.lcn + p.length - last)
  (begun.1 && ended.1, ended.2)

/-- The search of `bitmap_deallocate`, started again after each run it has cut. -/
def deallocateLoop (lcn length : Nat) : Nat → List Run → Bool × List Run
  | 0, l => (true, l)
  | fuel + 1, l =>
    match l.dropWhile (fun p => !common lcn length p) with
    | [] => (true, l)
    | p :: rest =>
      let kept := l.takeWhile (fun p => !common lcn length p) ++ rest
      let cut := reallocate kept p (max p.lcn lcn) (min (p.lcn + p.length) (lcn + length))
      let others := deallocateLoop lcn length fuel cut.2
      (cut.1 && others.1, others.2)

/-- `bitmap_deallocate`: a round takes a run with a common portion out of the list, so there are
at most as many as the list has runs.  The nodes for the parts that are kept come after a node
has been freed, and are taken to be given. -/
def bitmapDeallocate (l : List Run) (lcn length : Nat) : Bool × List Run :=
  deallocateLoop lcn length l.length l

/-- `bitmap_get_and_set` of one cluster. -/
def bitmapGetAndSet (node : Bool) (l : List Run) (lcn : Nat) : Bool × List Run :=
  if (l.takeWhile (·.lcn ≤ lcn)).getLast?.any (fun q => q.lcn ≤ lcn ∧ q.lcn + q.length > lcn) then
    (true, l)
  else
    (false, (bitmapAllocateIf node l lcn 1).2)

/-- The loops of `bitmap_build` over single bits: the first one also stops at a full byte. -/
def setBits (align : Bool) (hi : Nat) : Nat → Bytes × Nat → Bytes × Nat
  | 0, s => s
  | fuel + 1, (buf, bn) =>
    if bn < hi ∧ (align = true → bn % 8 ≠ 0) then
      setBits align hi fuel (bitSet buf bn 1, bn + 1)
    else
      (buf, bn)

/-- The loop of `bitmap_build` over full bytes. -/
def setBytes (hi : Nat) : Nat → Bytes × Nat → Bytes × Nat
  | 0, s => s
  | fuel + 1, (buf, bn) =>
    if bn + 7 < hi then
      setBytes hi fuel (setByte buf (bn >>> 3) 255, bn + 8)
    else
      (buf, bn)

/-- The part of `bitmap_build` for one run. -/
def buildRun (lcn length : Nat) (buf : Bytes) (p : Run) : Bytes :=
  if common lcn length p then
    let first := max p.lcn lcn
    let hi := min (p.lcn + p.length) (lcn + length) - lcn
    let aligned := setBits true hi hi (buf, first - lcn)
    (setBits false hi hi (setBytes hi hi aligned)).1
  else
    buf

/-- `bitmap_build`. -/
def bitmapBuild (l : List Run) (buf : Bytes) (lcn length : Nat) : Bytes :=
  l.foldl (buildRun lcn length) fun j => if 8 * j < length then 0 else buf j

end Operations

section Allocate

variable {g lcn length c : Nat} {l A B : List Run}

/-- No cluster of the range is in the list, nor one of the `g` behind it. -/
def Free (g : Nat) (l : List Run) (lcn length : Nat) : Prop :=
  ∀ c, lcn ≤ c → c < lcn + length + g → ¬InRuns l c

theorem lt_of_mem_after
    {b : Run}
    (hl : RunsApart 0 l)
    (hb : b ∈ l.dropWhile (·.lcn ≤ lcn)) :
    lcn < b.lcn := by
  induction l with
  | nil => cases hb
  | cons a l ih =>
    obtain ⟨ha, hrest⟩ := List.pairwise_cons.mp hl.apart
    rw [List.dropWhile_cons] at hb
    split at hb
    · exact ih ⟨fun r hr => hl.pos r (List.mem_cons_of_mem a hr), hrest⟩ hb
    · next hstop =>
      have hgt : lcn < a.lcn := by simpa using hstop
      rcases List.mem_cons.mp hb with rfl | hb
      · exact hgt
      · have := ha b hb
        omega

/-- Where a range is recorded: behind the runs that start no later, the last of which it
extends if it begins where that run ends. -/
theorem bitmapAllocate_cases
    (lcn : Nat)
    (hpos : 0 < length)
    (hl : RunsApart 0 l) :
    ∃ A B, l = A ++ B ∧ (∀ a ∈ A, a.lcn ≤ lcn) ∧ (∀ b ∈ B, lcn < b.lcn) ∧
      ((bitmapAllocate l lcn length).1 = true ↔
        (∀ q ∈ A.getLast?, q.lcn + q.length ≤ lcn) ∧ ∀ p ∈ B.head?, lcn + length ≤ p.lcn) ∧
      ((∃ A' q, A = A' ++ [q] ∧ q.lcn + q.length = lcn ∧
          (bitmapAllocate l lcn length).2 = A' ++ ⟨q.lcn, q.length + length⟩ :: B) ∨
        (∀ q ∈ A.getLast?, q.lcn + q.length ≠ lcn) ∧
          (bitmapAllocate l lcn length).2 = A ++ ⟨lcn, length⟩ :: B) := by
  refine ⟨l.takeWhile (·.lcn ≤ lcn), l.dropWhile (·.lcn ≤ lcn),
    List.takeWhile_append_dropWhile.symm, fun a ha => by simpa using List.mem_takeWhile_imp ha,
    fun b hb => lt_of_mem_after hl hb, ?_⟩
  unfold bitmapAllocate bitmapAllocateIf
  rw [if_neg (by omega)]
  generalize l.takeWhile (·.lcn ≤ lcn) = A
  generalize l.dropWhile (·.lcn ≤ lcn) = B
  rcases A.eq_nil_or_concat' with rfl | ⟨A', q, rfl⟩
  · cases B <;> simp
  · by_cases hq : q.lcn + q.length = lcn
    · cases B <;> simp [hq]
    · cases B <;> simp [hq]

/-- Between the runs that start no later and those that start later. -/
theorem free_append_iff
    (hpos : 0 < length)
    (hl : RunsApart 0 (A ++ B))
    (hA : ∀ a ∈ A, a.lcn ≤ lcn)
    (hB : ∀ b ∈ B, lcn < b.lcn) :
    Free g (A ++ B) lcn length ↔
      (∀ a ∈ A, a.lcn + a.length ≤ lcn) ∧ ∀ b ∈ B, lcn + length + g ≤ b.lcn := by
  constructor
  · intro hfree
    constructor
    · intro a ha
      by_contra hlt
      exact hfree lcn le_rfl (by omega) ⟨a, List.mem_append_left B ha, hA a ha, by omega⟩
    · intro b hb
      have hlen := hl.pos b (List.mem_append_right A hb)
      have hlcn := hB b hb
      by_contra hlt
      exact hfree b.lcn (by omega) (by omega) ⟨b, List.mem_append_right A hb, le_rfl, by omega⟩
  · rintro ⟨hends, hstarts⟩ c hlo hhi ⟨r, hr, hr₁, hr₂⟩
    rcases List.mem_append.mp hr with h | h
    · have := hends r h
      omega
    · have := hstarts r h
      omega

/-- An allocation adds its clusters and no others. -/
theorem bitmapAllocate_inRuns
    (hl : RunsApart 0 l) :
    InRuns (bitmapAllocate l lcn length).2 c ↔ InRuns l c ∨ InRange lcn length c := by
  rcases Nat.eq_zero_or_pos length with rfl | hpos
  · simp [bitmapAllocate, bitmapAllocateIf, InRange]
  obtain ⟨A, B, rfl, -, -, -, ⟨A', q, rfl, hq, hres⟩ | ⟨-, hres⟩⟩ :=
    bitmapAllocate_cases lcn hpos hl
  · rw [hres, inRuns_insert, List.append_assoc, List.singleton_append, inRuns_insert, or_assoc]
    refine or_congr Iff.rfl ?_
    unfold InRange
    dsimp only
    omega
  · rw [hres, inRuns_insert]

/-- The runs stay apart exactly when the range and the clusters behind it are free. -/
theorem bitmapAllocate_apart_iff
    (lcn : Nat)
    (hg : g ≤ 1)
    (hpos : 0 < length)
    (hl : RunsApart g l) :
    RunsApart g (bitmapAllocate l lcn length).2 ↔ Free g l lcn length := by
  have hl₀ := hl.mono (Nat.zero_le g)
  obtain ⟨A, B, rfl, hA, hB, -, ⟨A', q, rfl, hq, hres⟩ | ⟨hlast, hres⟩⟩ :=
    bitmapAllocate_cases lcn hpos hl₀
  · rw [hres, free_append_iff hpos hl₀ hA hB]
    rw [List.append_assoc] at hl
    obtain ⟨hAB, hlen, hA', -⟩ := runsApart_insert_iff.mp hl
    rw [runsApart_insert_iff]
    dsimp only
    constructor
    · rintro ⟨-, -, -, hstarts⟩
      refine ⟨fun a ha => ?_, fun b hb => by have := hstarts b hb; omega⟩
      rcases List.mem_append.mp ha with h | h
      · have := hA' a h
        omega
      · rw [List.mem_singleton.mp h, hq]
    · rintro ⟨-, hstarts⟩
      exact ⟨hAB, by omega, hA', fun b hb => by have := hstarts b hb; omega⟩
  · rw [hres, free_append_iff hpos hl₀ hA hB, runsApart_insert_iff]
    constructor
    · rintro ⟨-, -, hends, hstarts⟩
      exact ⟨fun a ha => by have := hends a ha; dsimp only at this; omega, hstarts⟩
    · rintro ⟨hends, hstarts⟩
      refine ⟨hl, hpos, hl.left.ends_le fun q hq => ?_, hstarts⟩
      have := hends q (List.mem_of_getLast? hq)
      have := hlast q hq
      dsimp only
      omega

/-- The value returned tells whether the range was free. -/
theorem bitmapAllocate_done_iff
    (hl : RunsApart 0 l)
    (lcn length : Nat) :
    (bitmapAllocate l lcn length).1 = true ↔ Free 0 l lcn length := by
  rcases Nat.eq_zero_or_pos length with rfl | hpos
  · simp [bitmapAllocate, bitmapAllocateIf, Free]
    omega
  obtain ⟨A, B, rfl, hA, hB, hdone, -⟩ := bitmapAllocate_cases lcn hpos hl
  rw [hdone, free_append_iff hpos hl hA hB]
  refine and_congr ⟨hl.left.ends_le, fun h q hq => h q (List.mem_of_getLast? hq)⟩
    ⟨fun h b hb => ?_, fun h p hp => h p (List.mem_of_head? hp)⟩
  cases B with
  | nil => cases hb
  | cons p B =>
    have hp := h p (by simp)
    rcases List.mem_cons.mp hb with rfl | hb
    · exact hp
    · have := (List.pairwise_cons.mp (List.pairwise_append.mp hl.apart).2.1).1 b hb
      omega

end Allocate

section Deallocate

variable {g lcn length : Nat} {l A B : List Run} {p : Run}

/-- A range inside a run that was taken out of the list is free, with the gap behind it. -/
theorem free_of_removed
    {a n : Nat}
    (h : RunsApart g (A ++ p :: B))
    (hlo : p.lcn ≤ a)
    (hhi : a + n ≤ p.lcn + p.length) :
    Free g (A ++ B) a n := by
  intro c hc₁ hc₂
  exact h.not_inRuns (by omega) (by omega)

/-- Allocating a free range. -/
theorem bitmapAllocate_free
    {a n : Nat}
    (hg : g ≤ 1)
    (hl : RunsApart g l)
    (hfree : Free g l a n) :
    (bitmapAllocate l a n).1 = true ∧ RunsApart g (bitmapAllocate l a n).2 ∧
      ∀ c, InRuns (bitmapAllocate l a n).2 c ↔ InRuns l c ∨ InRange a n c := by
  have hl₀ := hl.mono (Nat.zero_le g)
  refine ⟨(bitmapAllocate_done_iff hl₀ a n).mpr fun c hc₁ hc₂ => hfree c hc₁ (by omega), ?_,
    fun c => bitmapAllocate_inRuns hl₀⟩
  rcases Nat.eq_zero_or_pos n with rfl | hpos
  · exact hl
  · exact (bitmapAllocate_apart_iff a hg hpos hl).mpr hfree

/-- Taking a run out and allocating what lies outside `first … last` again. -/
theorem reallocate_spec
    {first last : Nat}
    (hg : g ≤ 1)
    (h : RunsApart g (A ++ p :: B))
    (h₁ : p.lcn ≤ first)
    (h₂ : first < last)
    (h₃ : last ≤ p.lcn + p.length) :
    (reallocate (A ++ B) p first last).1 = true ∧ RunsApart g (reallocate (A ++ B) p first last).2 ∧
      ∀ c, InRuns (reallocate (A ++ B) p first last).2 c ↔
        InRuns (A ++ p :: B) c ∧ ¬(first ≤ c ∧ c < last) := by
  have hAB := (runsApart_insert_iff.mp h).1
  obtain ⟨hdone₁, hapart₁, hmem₁⟩ := bitmapAllocate_free hg hAB
    (free_of_removed h le_rfl (n := first - p.lcn) (by omega))
  have hfree₂ : Free g (bitmapAllocate (A ++ B) p.lcn (first - p.lcn)).2 last
      (p.lcn + p.length - last) := by
    intro c hc₁ hc₂ hin
    rcases (hmem₁ c).mp hin with hin | hin
    · exact h.not_inRuns (by omega) (by omega) hin
    · unfold InRange at hin
      omega
  obtain ⟨hdone₂, hapart₂, hmem₂⟩ := bitmapAllocate_free hg hapart₁ hfree₂
  refine ⟨by simp [reallocate, hdone₁, hdone₂], hapart₂, fun c => ?_⟩
  have hout : p.lcn ≤ c → c < p.lcn + p.length → ¬InRuns (A ++ B) c := fun hc₁ hc₂ =>
    h.not_inRuns hc₁ (by omega)
  refine (hmem₂ c).trans ?_
  rw [hmem₁ c, inRuns_insert]
  by_cases hc : InRuns (A ++ B) c
  · have : ¬(p.lcn ≤ c ∧ c < p.lcn + p.length) := fun ⟨hc₁, hc₂⟩ => hout hc₁ hc₂ hc
    simp only [hc, true_or, true_and, true_iff]
    omega
  · simp only [hc, false_or, InRange]
    omega

/-- When a run shares a cluster with the range. -/
theorem common_iff : common lcn length p = true ↔
    ∃ c, InRange p.lcn p.length c ∧ InRange lcn length c := by
  unfold common InRange
  rw [decide_eq_true_iff]
  constructor
  · intro h
    exact ⟨max p.lcn lcn, by omega, by omega⟩
  · omega

/-- A range outside the one that is deallocated adds no run with a common portion. -/
theorem countP_bitmapAllocate
    {a n : Nat}
    (l : List Run)
    (hout : n = 0 ∨ a + n ≤ lcn ∨ lcn + length ≤ a) :
    (bitmapAllocate l a n).2.countP (common lcn length) = l.countP (common lcn length) := by
  unfold bitmapAllocate bitmapAllocateIf
  by_cases hn : n = 0
  · simp [hn]
  rw [if_neg hn]
  have hnew : common lcn length ⟨a, n⟩ = false := by
    simp only [common, decide_eq_false_iff_not]
    omega
  have hsplit := l.takeWhile_append_dropWhile (p := (·.lcn ≤ a))
  generalize l.takeWhile (·.lcn ≤ a) = A at hsplit ⊢
  generalize l.dropWhile (·.lcn ≤ a) = B at hsplit ⊢
  subst hsplit
  rcases A.eq_nil_or_concat' with rfl | ⟨A', q, rfl⟩
  · simp [hnew]
  · by_cases hq : q.lcn + q.length = a
    · have hjoined : common lcn length ⟨q.lcn, q.length + n⟩ = common lcn length q := by
        simp only [common, decide_eq_decide]
        omega
      simp [hq, hjoined, List.countP_cons]
    · simp [hq, hnew, List.countP_cons]

/-- A round leaves one run less that has a common portion, in any list. -/
theorem countP_reallocate
    (A B : List Run)
    (h : common lcn length p = true) :
    (reallocate (A ++ B) p (max p.lcn lcn)
        (min (p.lcn + p.length) (lcn + length))).2.countP (common lcn length) + 1 =
      (A ++ p :: B).countP (common lcn length) := by
  unfold reallocate
  rw [countP_bitmapAllocate _ (by omega), countP_bitmapAllocate _ (by omega)]
  simp [h, Nat.add_assoc]

theorem common_of_dropWhile
    {rest : List Run}
    (h : l.dropWhile (fun p => !common lcn length p) = p :: rest) :
    common lcn length p = true := by
  have hhead := l.dropWhile_get_zero_not (fun p => !common lcn length p) (by rw [h]; simp)
  simpa [h] using hhead

/-- The loop leaves no run with a common portion, also if runs overlap. -/
theorem deallocateLoop_complete : ∀ (fuel : Nat) (l : List Run),
    l.countP (common lcn length) ≤ fuel →
    ∀ p ∈ (deallocateLoop lcn length fuel l).2, common lcn length p = false
  | 0, l, hcount => by
    simpa [deallocateLoop] using List.countP_eq_zero.mp (Nat.le_zero.mp hcount)
  | fuel + 1, l, hcount => by
    unfold deallocateLoop
    match hdrop : l.dropWhile (fun p => !common lcn length p) with
    | [] => simpa using List.dropWhile_eq_nil_iff.mp hdrop
    | p :: rest =>
      have hround := countP_reallocate (l.takeWhile fun p => !common lcn length p) rest
        (common_of_dropWhile hdrop)
      rw [← hdrop, List.takeWhile_append_dropWhile] at hround
      exact deallocateLoop_complete fuel _ (by omega)

-- two runs that overlap are cut in two rounds
example : bitmapDeallocate [⟨0, 10⟩, ⟨2, 1⟩] 2 1 = (true, [⟨0, 2⟩, ⟨3, 7⟩]) := by decide

/-- What the rounds do to the set that sorted runs stand for. -/
theorem deallocateLoop_spec
    (hg : g ≤ 1) :
    ∀ (fuel : Nat) (l : List Run), RunsApart g l →
      (deallocateLoop lcn length fuel l).1 = true ∧
        RunsApart g (deallocateLoop lcn length fuel l).2 ∧
        ∀ c, ¬InRange lcn length c → (InRuns (deallocateLoop lcn length fuel l).2 c ↔ InRuns l c)
  | 0, l, hl => ⟨rfl, hl, fun _ _ => Iff.rfl⟩
  | fuel + 1, l, hl => by
    have hsplit := l.takeWhile_append_dropWhile (p := fun p => !common lcn length p)
    unfold deallocateLoop
    match hdrop : l.dropWhile (fun p => !common lcn length p) with
    | [] => exact ⟨rfl, hl, fun _ _ => Iff.rfl⟩
    | p :: rest =>
      have hlt : max p.lcn lcn < min (p.lcn + p.length) (lcn + length) :=
        of_decide_eq_true (common_of_dropWhile hdrop)
      rw [hdrop] at hsplit
      generalize l.takeWhile (fun p => !common lcn length p) = A at hsplit ⊢
      subst hsplit
      obtain ⟨hdone, hapart, hmem⟩ := reallocate_spec hg hl (le_max_left p.lcn lcn) hlt
        (min_le_left _ _)
      obtain ⟨hdone', hapart', hmem'⟩ := deallocateLoop_spec hg fuel _ hapart
      refine ⟨by simp [hdone, hdone'], hapart', fun c hc => (hmem' c hc).trans ?_⟩
      unfold InRange at hc
      rw [hmem c]
      exact and_iff_left (by omega)

/-- Deallocating a range takes its clusters out of the list, whether they were in it or not. -/
theorem bitmapDeallocate_spec
    (hg : g ≤ 1)
    (hl : RunsApart g l)
    (lcn length : Nat) :
    (bitmapDeallocate l lcn length).1 = true ∧ RunsApart g (bitmapDeallocate l lcn length).2 ∧
      ∀ c, InRuns (bitmapDeallocate l lcn length).2 c ↔ InRuns l c ∧ ¬InRange lcn length c := by
  obtain ⟨hdone, hapart, hmem⟩ :=
    @deallocateLoop_spec g lcn length hg l.length l hl
  refine ⟨hdone, hapart, fun c => ?_⟩
  by_cases hc : InRange lcn length c
  · refine iff_of_false (fun ⟨p, hp, hin⟩ => ?_) fun h => h.2 hc
    have hnone := deallocateLoop_complete l.length l List.countP_le_length p hp
    rw [common_iff.mpr ⟨c, hin, hc⟩] at hnone
    cases hnone
  · exact (hmem c hc).trans (and_iff_left hc).symm

end Deallocate

section Build

variable {hi k : Nat}

/-- From one state of the loops to a later one: the bits in between are set. -/
structure Fills (hi : Nat) (s r : Bytes × Nat) : Prop where
  le : s.2 ≤ r.2
  le_hi : r.2 ≤ hi
  bits : ∀ k, bitAt r.1 k = true ↔ bitAt s.1 k = true ∨ s.2 ≤ k ∧ k < r.2

theorem Fills.refl
    {s : Bytes × Nat}
    (h : s.2 ≤ hi) :
    Fills hi s s :=
  ⟨le_rfl, h, fun _ => ⟨.inl, fun h => h.resolve_right (by omega)⟩⟩

theorem Fills.trans
    {s t r : Bytes × Nat}
    (h : Fills hi s t)
    (h' : Fills hi t r) :
    Fills hi s r := by
  have hst := h.le
  have htr := h'.le
  refine ⟨hst.trans htr, h'.le_hi, fun k => ?_⟩
  rw [h'.bits, h.bits, or_assoc]
  refine or_congr_right' fun _ => ?_
  omega

/-- Setting one bit. -/
theorem fills_bitSet
    (buf : Bytes)
    {bn : Nat}
    (hbn : bn < hi) :
    Fills hi (buf, bn) (bitSet buf bn 1, bn + 1) := by
  refine ⟨Nat.le_succ bn, hbn, fun k => ?_⟩
  have hset : bitAt (bitSet buf bn 1) k = if k = bn then true else bitAt buf k :=
    bitAt_bitSet buf bn k true
  rw [hset]
  by_cases hk : k = bn
  · simp [hk]
  · rw [if_neg hk]
    exact ⟨.inl, fun h => h.resolve_right (by dsimp only; omega)⟩

/-- Setting eight bits at once. -/
theorem fills_fullByte
    (buf : Bytes)
    {bn : Nat}
    (hbn : bn % 8 = 0)
    (hhi : bn + 7 < hi) :
    Fills hi (buf, bn) (setByte buf (bn >>> 3) 255, bn + 8) := by
  refine ⟨Nat.le_add_right bn 8, hhi, fun k => ?_⟩
  unfold bitAt
  rw [Nat.shiftRight_eq_div_pow]
  dsimp only
  by_cases hk : k / 8 = bn / 2 ^ 3
  · rw [hk, setByte_same]
    have hall : ∀ j < 8, (255 : UInt8).toNat.testBit j = true := by decide
    simp only [hall _ (Nat.mod_lt k (by decide)), true_iff]
    omega
  · rw [setByte_of_ne _ _ hk]
    exact ⟨.inl, fun h => h.resolve_right (by omega)⟩

/-- The loop over bits, up to a byte boundary or to the end. -/
theorem setBits_fills
    (align : Bool) :
    ∀ (fuel : Nat) (s : Bytes × Nat), s.2 ≤ hi →
      hi ≤ s.2 + fuel → Fills hi s (setBits align hi fuel s) ∧
        ((setBits align hi fuel s).2 = hi ∨ align = true ∧ (setBits align hi fuel s).2 % 8 = 0)
  | 0, s, h₁, h₂ => ⟨.refl h₁, .inl (by simp only [setBits]; omega)⟩
  | fuel + 1, (buf, bn), h₁, h₂ => by
    unfold setBits
    split
    · next hgo =>
      obtain ⟨hfills, hstop⟩ := setBits_fills align fuel (bitSet buf bn 1, bn + 1) hgo.1
        (by dsimp only at h₂ ⊢; omega)
      exact ⟨(fills_bitSet buf hgo.1).trans hfills, hstop⟩
    · next hstop =>
      refine ⟨.refl h₁, ?_⟩
      by_cases hbn : bn < hi
      · exact .inr (by simpa [hbn] using hstop)
      · exact .inl (le_antisymm h₁ (Nat.not_lt.mp hbn))

/-- The loop over bytes. -/
theorem setBytes_fills : ∀ (fuel : Nat) (s : Bytes × Nat), s.2 = hi ∨ s.2 % 8 = 0 →
    s.2 ≤ hi → Fills hi s (setBytes hi fuel s)
  | 0, _, _, h₁ => .refl h₁
  | fuel + 1, (buf, bn), hbn, h₁ => by
    unfold setBytes
    split
    · next hgo =>
      have haligned : bn % 8 = 0 := hbn.resolve_left (by dsimp only; omega)
      exact (fills_fullByte buf haligned hgo).trans
        (setBytes_fills fuel _ (.inr (by dsimp only; omega)) (by dsimp only; omega))
    · exact .refl h₁

variable {lcn length : Nat}

/-- One run of the list in the buffer. -/
theorem bitAt_buildRun
    (buf : Bytes)
    (p : Run) :
    bitAt (buildRun lcn length buf p) k = true ↔
      bitAt buf k = true ∨ k < length ∧ InRange p.lcn p.length (lcn + k) := by
  unfold buildRun
  split
  · next hcommon =>
    have hlt : max p.lcn lcn < min (p.lcn + p.length) (lcn + length) := of_decide_eq_true hcommon
    dsimp only
    generalize hhi : min (p.lcn + p.length) (lcn + length) - lcn = hi
    generalize hbn : max p.lcn lcn - lcn = bn
    have hle : bn ≤ hi := by omega
    obtain ⟨hbegin, haligned⟩ := setBits_fills true hi (buf, bn) hle (Nat.le_add_left hi bn)
    have hbytes := setBytes_fills hi _ (haligned.imp id And.right) hbegin.le_hi
    obtain ⟨hend, hstop⟩ := setBits_fills false hi _ hbytes.le_hi (Nat.le_add_left hi _)
    have hlast := hstop.resolve_right (by simp)
    rw [((hbegin.trans hbytes).trans hend).bits k]
    refine or_congr_right' fun _ => ?_
    unfold InRange
    omega
  · next hcommon =>
    refine ⟨.inl, fun h => h.resolve_right fun ⟨hk, hin⟩ => hcommon ?_⟩
    exact common_iff.mpr ⟨lcn + k, hin, by unfold InRange; omega⟩

/-- All runs of the list in the buffer. -/
theorem bitAt_foldl_buildRun
    (l : List Run) :
    ∀ buf : Bytes,
      bitAt (l.foldl (buildRun lcn length) buf) k = true ↔
        bitAt buf k = true ∨ k < length ∧ InRuns l (lcn + k) := by
  induction l with
  | nil => simp [InRuns]
  | cons p l ih =>
    intro buf
    rw [List.foldl_cons, ih, bitAt_buildRun, inRuns_cons, or_assoc, ← and_or_left]

/-- The bits of a section are those of the list; what is left of its last byte is zero and
the bytes behind it are unchanged. -/
theorem bitAt_bitmapBuild
    (l : List Run)
    (buf : Bytes) :
    bitAt (bitmapBuild l buf lcn length) k = true ↔
      k < length ∧ InRuns l (lcn + k) ∨ length ≤ 8 * (k / 8) ∧ bitAt buf k = true := by
  rw [bitmapBuild, bitAt_foldl_buildRun, or_comm]
  unfold bitAt
  by_cases hk : 8 * (k / 8) < length
  · simp [hk]
  · simp [hk, Nat.not_lt.mp hk]

end Build

section History

/-- A call that changes the list. -/
inductive BitmapOp where
  | allocate (lcn length : Nat)
  | deallocate (lcn length : Nat)

/-- The call on the list. -/
def BitmapOp.run (l : List Run) : BitmapOp → Bool × List Run
  | .allocate lcn length => bitmapAllocate l lcn length
  | .deallocate lcn length => bitmapDeallocate l lcn length

/-- The call on the set of allocated clusters. -/
def BitmapOp.apply (s : Set Nat) : BitmapOp → Set Nat
  | .allocate lcn length => {c | c ∈ s ∨ InRange lcn length c}
  | .deallocate lcn length => {c | c ∈ s ∧ ¬InRange lcn length c}

/-- The list stands for the set, as sorted runs that do not touch, and gives its bits. -/
structure Describes (l : List Run) (s : Set Nat) : Prop where
  apart : RunsApart 1 l
  mem : ∀ c, InRuns l c ↔ c ∈ s
  build : ∀ buf lcn length k, k < length →
    (bitAt (bitmapBuild l buf lcn length) k = true ↔ lcn + k ∈ s)

/-- The value returned is `FALSE` exactly for an allocation that overlaps the set. -/
def BitmapOp.Answers (l : List Run) (s : Set Nat) : BitmapOp → Prop
  | .allocate lcn length =>
    (bitmapAllocate l lcn length).1 = false ↔ ∃ c ∈ s, InRange lcn length c
  | .deallocate _ _ => True

/-- The list describes the set before and after every call, and every call answers. -/
def Faithful : List Run → Set Nat → List BitmapOp → Prop
  | l, s, [] => Describes l s
  | l, s, op :: ops => Describes l s ∧ op.Answers l s ∧ Faithful (op.run l).2 (op.apply s) ops

/-- An allocation asks for free clusters, and the cluster behind them is free too. -/
def BitmapOp.Spare (s : Set Nat) : BitmapOp → Prop
  | .allocate lcn length => 0 < length → ∀ c, lcn ≤ c → c ≤ lcn + length → c ∉ s
  | .deallocate _ _ => True

/-- Every call of the sequence does so. -/
def AllSpare : Set Nat → List BitmapOp → Prop
  | _, [] => True
  | s, op :: ops => op.Spare s ∧ AllSpare (op.apply s) ops

variable {l : List Run} {s : Set Nat} {op : BitmapOp}

theorem describes_of_mem
    (hl : RunsApart 1 l)
    (hmem : ∀ c, InRuns l c ↔ c ∈ s) :
    Describes l s := by
  refine ⟨hl, hmem, fun buf lcn length k hk => ?_⟩
  rw [bitAt_bitmapBuild, ← hmem]
  refine ⟨fun h => ?_, fun h => .inl ⟨hk, h⟩⟩
  rcases h with ⟨-, h⟩ | ⟨h, -⟩
  · exact h
  · omega

theorem Faithful.describes
    {ops : List BitmapOp}
    (h : Faithful l s ops) :
    Describes l s := by
  cases ops with
  | nil => exact h
  | cons op ops => exact h.1

/-- A list that describes the set answers as the set does. -/
theorem Describes.answers
    (h : Describes l s)
    (op : BitmapOp) :
    op.Answers l s := by
  cases op with
  | deallocate lcn length => trivial
  | allocate lcn length =>
    rw [BitmapOp.Answers, ← Bool.not_eq_true,
      bitmapAllocate_done_iff (h.apart.mono (Nat.zero_le 1))]
    unfold Free
    simp only [not_forall, not_not]
    constructor
    · rintro ⟨c, hlo, hhi, hin⟩
      exact ⟨c, (h.mem c).mp hin, hlo, hhi⟩
    · rintro ⟨c, hin, hlo, hhi⟩
      exact ⟨c, hlo, hhi, (h.mem c).mpr hin⟩

/-- One call: the list still describes the set exactly if the call was spare. -/
theorem Describes.run_iff
    (h : Describes l s)
    (op : BitmapOp) :
    Describes (op.run l).2 (op.apply s) ↔ op.Spare s := by
  have hl₀ := h.apart.mono (Nat.zero_le 1)
  cases op with
  | deallocate lcn length =>
    obtain ⟨-, hapart, hmem⟩ := bitmapDeallocate_spec le_rfl h.apart lcn length
    refine ⟨fun _ => trivial, fun _ => describes_of_mem hapart fun c => ?_⟩
    rw [BitmapOp.run, hmem c, h.mem c]
    rfl
  | allocate lcn length =>
    have hmem : ∀ c, InRuns (bitmapAllocate l lcn length).2 c ↔
        c ∈ (BitmapOp.allocate lcn length).apply s := fun c => by
      rw [bitmapAllocate_inRuns hl₀, h.mem c]
      rfl
    rcases Nat.eq_zero_or_pos length with rfl | hpos
    · exact ⟨fun _ hpos => absurd hpos (lt_irrefl 0), fun _ => describes_of_mem h.apart hmem⟩
    · have hapart := bitmapAllocate_apart_iff lcn le_rfl hpos h.apart
      constructor
      · intro hrun _ c hlo hhi hc
        exact hapart.mp hrun.apart c hlo (by omega) ((h.mem c).mpr hc)
      · intro hspare
        refine describes_of_mem (hapart.mpr fun c hlo hhi hc => ?_) hmem
        exact hspare hpos c hlo (by omega) ((h.mem c).mp hc)

theorem Describes.faithful_iff : ∀ {l : List Run} {s : Set Nat} {ops : List BitmapOp},
    Describes l s → (Faithful l s ops ↔ AllSpare s ops)
  | _, _, [], h => ⟨fun _ => trivial, fun _ => h⟩
  | l, s, op :: ops, h => by
    constructor
    · rintro ⟨-, -, hrest⟩
      have hrun := hrest.describes
      exact ⟨(h.run_iff op).mp hrun, (Describes.faithful_iff hrun).mp hrest⟩
    · rintro ⟨hspare, hrest⟩
      exact ⟨h, h.answers op, (Describes.faithful_iff ((h.run_iff op).mpr hspare)).mpr hrest⟩

/-- Over every sequence of calls from the empty list: the list describes the allocated set
and every allocation answers rightly, exactly when each allocated range and the cluster behind
it were free.  Clusters that are deallocated need not have been allocated. -/
theorem bitmapAllocation_faithful_iff
    (ops : List BitmapOp) :
    Faithful [] ∅ ops ↔ AllSpare ∅ ops := by
  refine Describes.faithful_iff (describes_of_mem ⟨by simp, List.Pairwise.nil⟩ fun c => ?_)
  simp [InRuns]

/-- A refused allocation is recorded all the same, and a later one then answers `TRUE` for an
allocated cluster. -/
theorem bitmapAllocation_refused :
    ¬Faithful [] ∅ [.allocate 0 10, .allocate 2 1, .allocate 5 1] ∧
      (bitmapAllocate (bitmapAllocate (bitmapAllocate [] 0 10).2 2 1).2 5 1).1 = true := by
  refine ⟨fun h => ?_, by decide⟩
  have hbad := h.2.2.2.2.1.apart.apart
  revert hbad
  decide

end History

end NtfsPlus.Mkntfs
