import NtfsPlus.Libntfs.RunlistCut

/-!
# Replacing a part of a runlist

`replace_runlist` of `ntfsresize` builds the runlist of an attribute again with new runs for
some of its VCNs.  An old run around the end of these VCNs is cut, but it is not stepped over:
the whole run is copied once more behind its rest.  The buffer has room for the old and the new
elements, but not for the terminator and for the elements that cutting adds.
-/

namespace NtfsPlus.Ntfsresize

open Libntfs

section Model

/-- The replacement counts its VCNs from `lowest_vcn`. -/
def moveRuns (lowestVcn : Int) (reprl : Runlist) : Runlist :=
  reprl.map fun e => { e with vcn := e.vcn + lowestVcn }

/-- A runlist without its terminator, and a replacement for its VCNs from `first` to `next`. -/
structure Replacement where
  old : Runlist
  reprl : Runlist
  lowestVcn : Int
  first : Int
  next : Int
  last : Int
  mapped : MappedRuns 0 old last
  tiles : Tiles first (moveRuns lowestVcn reprl) next
  inside : 0 ≤ first ∧ next ≤ last

/-- The old runs from VCN `s` on, as they are copied behind the new ones. -/
def oldRunsFrom (s : Int) : Runlist → Runlist
  | [] => []
  | e :: rest =>
    if e.vcn + e.length ≤ s then oldRunsFrom s rest
    -- `pold` still points to the run that is cut
    else if e.vcn < s then ⟨s, e.lcn + s - e.vcn, e.length - s + e.vcn⟩ :: e :: rest
    else e :: rest

/-- The elements that `replace_runlist` writes in front of the old terminator. -/
def replaceRunlist (r : Replacement) : Runlist :=
  runsUpto r.first r.old ++ (moveRuns r.lowestVcn r.reprl ++
    oldRunsFrom r.next (r.old.dropWhile fun e => e.vcn + e.length ≤ r.first))

/-- The size of its buffer. -/
def newSize (r : Replacement) : Nat :=
  (24 * (r.old.length + r.reprl.length) + 4095) / 4096 * 4096

/-- What is written is a runlist of the same VCNs, it maps the range as the replacement says and
the rest as before, and it lies in the buffer. -/
structure Replaced (r : Replacement) : Prop where
  contiguous : Tiles 0 (replaceRunlist r) r.last
  lookups : ∀ vcn, 0 ≤ vcn → vcn < r.last →
    rlVcnToLcn (some (replaceRunlist r ++ [enoentAt r.last])) vcn =
      if r.first ≤ vcn ∧ vcn < r.next then lcnIn (moveRuns r.lowestVcn r.reprl) vcn
      else rlVcnToLcn (some (r.old ++ [enoentAt r.last])) vcn
  room : 24 * ((replaceRunlist r).length + 1) ≤ newSize r

end Model

section Result

variable {s v w x : Int} {L : Runlist}

/-- VCN `s` lies inside a run, behind its first VCN. -/
def CutsRun (s : Int) (L : Runlist) : Prop :=
  ∃ e ∈ L, e.vcn < s ∧ s < e.vcn + e.length

theorem oldRunsFrom_dropWhile
    {a : Int}
    (h : a ≤ s) :
    oldRunsFrom s (L.dropWhile fun e => e.vcn + e.length ≤ a) = oldRunsFrom s L := by
  induction L with
  | nil => rfl
  | cons e rest ih =>
    rw [List.dropWhile_cons]
    split
    · next hend =>
      rw [ih, oldRunsFrom, if_pos ((of_decide_eq_true hend).trans h)]
    · rfl

/-- Where no run is cut, the old runs behind the range are copied once. -/
theorem oldRunsFrom_eq
    (htiles : Tiles v L w)
    (h : ¬CutsRun s L) :
    oldRunsFrom s L = runsFrom s L := by
  induction L generalizing v with
  | nil => rfl
  | cons e rest ih =>
    rw [oldRunsFrom, runsFrom]
    split_ifs with hend hcut
    · apply ih htiles.2.2
      rintro ⟨d, hd, hinside⟩
      exact h ⟨d, List.mem_cons_of_mem e hd, hinside⟩
    · exact absurd ⟨e, List.mem_cons_self, hcut, by omega⟩ h
    · rfl

/-- A run that is cut is copied again behind its rest, so the VCNs go back. -/
theorem oldRunsFrom_not_tiles
    (htiles : Tiles v L w)
    (h : CutsRun s L) :
    ¬Tiles s (oldRunsFrom s L) x := by
  induction L generalizing v with
  | nil =>
    obtain ⟨e, he, -⟩ := h
    cases he
  | cons e rest ih =>
    obtain ⟨hev, hpos, hrest⟩ := htiles
    obtain ⟨d, hd, hlo, hhi⟩ := h
    rcases List.mem_cons.mp hd with rfl | hd
    · rw [oldRunsFrom, if_neg (by omega), if_pos hlo]
      rintro ⟨-, -, hback, -⟩
      dsimp only at hback
      omega
    · have := (hrest.mem hd).1
      rw [oldRunsFrom, if_pos (by omega)]
      exact ih hrest ⟨d, hd, hlo, hhi⟩

/-- The elements that are written where no run is cut at the end of the range: the runs before
the range, the new ones, the runs behind the range and the terminator. -/
def written (r : Replacement) : Nat :=
  (runsUpto r.first r.old).length + r.reprl.length + (runsFrom r.next r.old).length + 1

/-- Passing over the runs in front of the range first changes nothing behind it. -/
theorem replaceRunlist_eq
    (r : Replacement) :
    replaceRunlist r = runsUpto r.first r.old ++
      (moveRuns r.lowestVcn r.reprl ++ oldRunsFrom r.next r.old) := by
  rw [replaceRunlist, oldRunsFrom_dropWhile r.tiles.le]

/-- The elements in front of the range. -/
theorem Replacement.upto_tiles
    (r : Replacement) :
    Tiles 0 (runsUpto r.first r.old) r.first := by
  have hle := r.tiles.le
  obtain ⟨hfirst, hlast⟩ := r.inside
  exact (r.mapped.runsUpto hfirst (by omega)).tiles

/-- The VCNs follow one another exactly when the range does not end inside an old run. -/
theorem replaceRunlist_tiles_iff
    (r : Replacement) :
    Tiles 0 (replaceRunlist r) r.last ↔ ¬CutsRun r.next r.old := by
  have hold := r.mapped.tiles
  rw [replaceRunlist_eq]
  constructor
  · intro hcontiguous hcut
    obtain ⟨m, hm, hrest⟩ := tiles_append_iff.mp hcontiguous
    obtain ⟨n, hn, hbehind⟩ := tiles_append_iff.mp hrest
    rw [hm.end_unique r.upto_tiles] at hn
    rw [hn.end_unique r.tiles] at hbehind
    exact oldRunsFrom_not_tiles hold hcut hbehind
  · intro hcut
    have hle := r.tiles.le
    obtain ⟨hfirst, hlast⟩ := r.inside
    have hbehind := (r.mapped.runsFrom (s := r.next) (by omega) hlast).tiles
    rw [← oldRunsFrom_eq hold hcut] at hbehind
    exact tiles_append_iff.mpr ⟨_, r.upto_tiles, tiles_append_iff.mpr ⟨_, r.tiles, hbehind⟩⟩

/-- Where no run is cut, `written` counts the elements. -/
theorem replaceRunlist_length
    {r : Replacement}
    (hcut : ¬CutsRun r.next r.old) :
    (replaceRunlist r).length + 1 = written r := by
  rw [replaceRunlist_eq, oldRunsFrom_eq r.mapped.tiles hcut, written, List.length_append,
    List.length_append, moveRuns, List.length_map]
  omega

/-- Where no run is cut, only the range is mapped anew. -/
theorem lcnIn_replaceRunlist
    {r : Replacement} {vcn : Int}
    (hcut : ¬CutsRun r.next r.old)
    (hlo : 0 ≤ vcn) :
    lcnIn (replaceRunlist r) vcn =
      if r.first ≤ vcn ∧ vcn < r.next then lcnIn (moveRuns r.lowestVcn r.reprl) vcn
      else lcnIn r.old vcn := by
  have hle := r.tiles.le
  have hold := r.mapped.tiles
  obtain ⟨hfirst, hlast⟩ := r.inside
  rw [replaceRunlist_eq, oldRunsFrom_eq hold hcut]
  by_cases hbefore : vcn < r.first
  · rw [if_neg (by omega), lcnIn_append_left r.upto_tiles hlo hbefore,
      lcnIn_runsUpto hold hlo hbefore]
  · rw [lcnIn_append_right r.upto_tiles (by omega)]
    by_cases hin : vcn < r.next
    · rw [if_pos ⟨by omega, hin⟩, lcnIn_append_left r.tiles (by omega) hin]
    · rw [if_neg (by omega), lcnIn_append_right r.tiles (by omega),
        lcnIn_runsFrom hold (by omega) (by omega)]

/-- The runlist is replaced as it should exactly when the range does not end inside an old run
and the elements fit into the buffer. -/
theorem replaceRunlist_replaced_iff
    (r : Replacement) :
    Replaced r ↔ ¬CutsRun r.next r.old ∧ 24 * written r ≤ newSize r := by
  constructor
  · rintro ⟨hcontiguous, -, hroom⟩
    have hcut := (replaceRunlist_tiles_iff r).mp hcontiguous
    exact ⟨hcut, replaceRunlist_length hcut ▸ hroom⟩
  · rintro ⟨hcut, hfits⟩
    have hcontiguous := (replaceRunlist_tiles_iff r).mpr hcut
    refine ⟨hcontiguous, fun vcn hlo hhi => ?_, replaceRunlist_length hcut ▸ hfits⟩
    rw [rlVcnToLcn_inside hcontiguous rfl le_rfl hlo hhi,
      rlVcnToLcn_inside r.mapped.tiles rfl le_rfl hlo hhi, lcnIn_replaceRunlist hcut hlo]

/-- One cluster in the middle of a run of three is replaced: the run is copied again whole. -/
theorem replaceRunlist_in_run :
    ¬Replaced ⟨[⟨0, 100, 3⟩], [⟨0, 7, 1⟩], 1, 1, 2, 3,
      ⟨rfl, by constructor <;> decide, rfl⟩, by simp [Tiles, moveRuns], by decide⟩ := by
  intro h
  have hrun : Tiles 0 [⟨0, 100, 1⟩, ⟨1, 7, 1⟩, ⟨2, 102, 1⟩, ⟨0, 100, 3⟩] 3 := h.contiguous
  simp [Tiles] at hrun

end Result

end NtfsPlus.Ntfsresize
