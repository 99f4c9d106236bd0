import NtfsPlus.Libntfs.RunlistCut

/-!
# Punching a hole into a runlist

`ntfs_rl_find_vcn` and `ntfs_rl_punch_hole` of `libntfs/runlist.c`.  The array
that is passed is the runlist up to its terminator, so `dst_cnt` is its length;
`punch_rl` is asked for.

The runs before the hole, the hole and the runs behind it are put together, and
holes that meet are made one.  `punchHole_iff` is the main result: the hole
replaces exactly the punched VCNs if and only if it does not reach past the end
of the runlist.  The end VCN is cut off at the end of the runlist, the length of
the hole that is stored is not.
-/

namespace NtfsPlus.Libntfs

open SignedBytes

section PunchHole

/-- The loop of `ntfs_rl_find_vcn`, as an index. -/
def rlFindVcnFrom (vcn : Int) : Nat → Runlist → Option Nat
  | _, [] => none
  | i, [e] => if e.length = 0 ∧ e.lcn = lcnEnoent then some i else none
  | i, e :: next :: rest =>
    if e.length = 0 then
      if e.lcn = lcnEnoent then some i else none
    else if vcn < next.vcn then
      if e.lcn ≥ lcnHole then some i else none
    else
      rlFindVcnFrom vcn (i + 1) (next :: rest)

/-- `ntfs_rl_find_vcn`. -/
def rlFindVcn (rl : Runlist) (vcn : Int) : Option Nat :=
  if vcn < 0 then
    none
  else
    match rl with
    | [] => none
    | e :: rest => if vcn < e.vcn then none else rlFindVcnFrom vcn 0 (e :: rest)

/-- The LCN of what is left of a run after its first clusters. -/
def shiftLcn (lcn firstCnt : Int) : Int :=
  if lcn > lcnHole then lcn + firstCnt else lcn

/-- The first part of the new runlist: `i` is the index of the run at the start. -/
def punchFirst (dst : Runlist) (startVcn : Int) (i : Nat) : Runlist :=
  let s := elemAt dst i
  dst.take i ++ (if s.vcn ≠ startVcn then [{ s with length := startVcn - s.vcn }] else [])

/-- The third part of the new runlist: `k` is the index of the run at the end. -/
def punchThird (dst : Runlist) (endVcn : Int) (k : Nat) : Runlist :=
  let e := elemAt dst k
  let firstCnt := endVcn - e.vcn + 1
  (if e.vcn + e.length - 1 ≠ endVcn then
    [⟨endVcn + 1, shiftLcn e.lcn firstCnt, e.length - firstCnt⟩]
  else
    []) ++ dst.drop (k + 1)

/-- `punch_rl`: the runs from index `i` to `k`, cut at both ends. -/
def punchedRl (dst : Runlist) (startVcn endVcn : Int) (i k : Nat) : Runlist :=
  let s := elemAt dst i
  let e := elemAt dst k
  let beginSplit := s.vcn ≠ startVcn
  let endSplit := e.vcn + e.length - 1 ≠ endVcn
  let copied := (dst.drop i).take (k - i + 1)
  let begun :=
    if beginSplit then
      copied.modify 0 fun p =>
        ⟨startVcn, shiftLcn p.lcn (startVcn - s.vcn), p.length - (startVcn - s.vcn)⟩
    else
      copied
  let firstCnt := endVcn - e.vcn + 1
  let ended :=
    if endSplit then
      begun.modify (k - i) fun p =>
        { p with
          length :=
            -- `one_split_3`: the run is divided into left, hole and right
            if i = k ∧ beginSplit ∧ endSplit then
              p.length - (e.length - firstCnt)
            else
              firstCnt }
    else
      begun
  let last := elemAt ended (k - i)
  ended ++ [⟨last.vcn + last.length, lcnEnoent, 0⟩]

/-- Make the hole at index `first.length` one with the holes next to it. -/
def fuseHole (first : Runlist) (hole : RunlistElement) (third : Runlist) (newCnt : Nat) : Runlist :=
  let newRl := first ++ hole :: third
  let n := first.length
  let left := elemAt newRl (n - 1)
  let right := elemAt newRl (n + 1)
  if n > 0 ∧ left.lcn = lcnHole then
    if n + 1 < newCnt ∧ right.lcn = lcnHole then
      newRl.take (n - 1) ++
        { left with length := left.length + hole.length + right.length } :: newRl.drop (n + 2)
    else
      newRl.take (n - 1) ++
        { left with length := left.length + hole.length } :: newRl.drop (n + 1)
  else if n + 1 < newCnt ∧ right.lcn = lcnHole then
    newRl.take n ++ { hole with length := hole.length + right.length } :: newRl.drop (n + 2)
  else
    newRl

/-- `ntfs_rl_punch_hole`: the new runlist and `punch_rl`, or `none` for `NULL`. -/
def rlPunchHole (dst : Runlist) (startVcn len : Int) : Option (Runlist × Runlist) :=
  let cnt := dst.length
  if cnt < 2 ∨ (elemAt dst (cnt - 1)).length ≠ 0 then
    none
  else
    let final := elemAt dst (cnt - 2)
    let endVcn := min (s64 (startVcn + len - 1)) (final.vcn + final.length - 1)
    match rlFindVcn dst startVcn with
    | none => none
    | some i =>
      if (elemAt dst i).lcn ≤ lcnEnoent then
        none
      else
        match rlFindVcn dst endVcn with
        | none => none
        | some k =>
          if (elemAt dst k).lcn ≤ lcnEnoent then
            none
          else
            some
              (fuseHole (punchFirst dst startVcn i) ⟨startVcn, lcnHole, len⟩
                  (punchThird dst endVcn k) (cnt - (k - i + 1) + 3),
                punchedRl dst startVcn endVcn i k)

end PunchHole

section Finding

variable {v w vcn : Int} {A B : Runlist} {e t : RunlistElement}

theorem Tiles.first_terminated
    {L : Runlist}
    (h : Tiles v L w)
    (ht : t.vcn = w) :
    ∃ next tail, L ++ [t] = next :: tail ∧ next.vcn = v := by
  cases L with
  | nil => exact ⟨t, [], rfl, ht.trans h⟩
  | cons f L => exact ⟨f, L ++ [t], rfl, h.1⟩

theorem rlFindVcnFrom_covering
    (h : Tiles v (A ++ e :: B) w)
    (ht : t.vcn = w)
    (hmapped : lcnHole ≤ e.lcn)
    (hlo : e.vcn ≤ vcn)
    (hhi : vcn < e.vcn + e.length)
    (i : Nat) :
    rlFindVcnFrom vcn i (A ++ e :: B ++ [t]) = some (i + A.length) := by
  induction A generalizing v i with
  | nil =>
    obtain ⟨hv, hpos, hrest⟩ := h
    obtain ⟨next, tail, hnext, hvcn⟩ := hrest.first_terminated ht
    rw [List.nil_append, List.cons_append, hnext, rlFindVcnFrom, if_neg (by omega),
      if_pos (by omega), if_pos hmapped]
    rfl
  | cons a A ih =>
    rw [List.cons_append] at h
    obtain ⟨hv, hpos, hrest⟩ := h
    have hle := (hrest.mem (e := e) (by simp)).1
    obtain ⟨next, tail, hnext, hvcn⟩ := hrest.first_terminated ht
    have hstep := ih hrest (i + 1)
    rw [hnext] at hstep
    rw [List.cons_append, List.cons_append, hnext, rlFindVcnFrom, if_neg (by omega),
      if_neg (by omega), hstep, List.length_cons]
    congr 1
    omega

theorem rlFindVcn_covering
    (vcn : Int)
    (h : Tiles v (A ++ e :: B) w)
    (ht : t.vcn = w)
    (hv : 0 ≤ v)
    (hmapped : lcnHole ≤ e.lcn)
    (hlo : e.vcn ≤ vcn)
    (hhi : vcn < e.vcn + e.length) :
    rlFindVcn (A ++ e :: B ++ [t]) vcn = some A.length := by
  have hfound := rlFindVcnFrom_covering h ht hmapped hlo hhi 0
  have hbefore := (h.mem (e := e) (by simp)).1
  unfold rlFindVcn
  rw [if_neg (by omega)]
  obtain ⟨f, rest, hf, hfv⟩ := h.first_terminated ht
  rw [hf] at hfound ⊢
  dsimp only
  rw [if_neg (by omega), hfound, Nat.zero_add]

end Finding

section Parts

variable {v w : Int} {A B : Runlist} {e t : RunlistElement}

theorem elemAt_at
    (A B : Runlist)
    (e t : RunlistElement) :
    elemAt (A ++ e :: B ++ [t]) A.length = e := by
  rw [List.append_assoc, List.cons_append, elemAt_append_cons]

theorem shiftedRun_eq
    (s : Int)
    (e : RunlistElement) :
    ⟨s, shiftLcn e.lcn (s - e.vcn), e.length - (s - e.vcn)⟩ = restOfRun s e := by
  congr 1

variable {startVcn : Int} {D : Runlist}

/-- The first part of the new runlist is the runs up to the start. -/
theorem punchFirst_eq
    (h : Tiles v (A ++ e :: B) w)
    (hlo : e.vcn ≤ startVcn)
    (hhi : startVcn < e.vcn + e.length) :
    punchFirst (A ++ e :: B ++ [t]) startVcn A.length = runsUpto startVcn (A ++ e :: B) := by
  obtain ⟨m, hA, hm, hpos, -⟩ := tiles_append_iff.mp h
  unfold punchFirst
  dsimp only
  rw [elemAt_at, runsUpto_append hA (by omega), List.append_assoc, List.take_left]
  rw [runsUpto, if_neg (show ¬ e.vcn + e.length ≤ startVcn by omega)]
  by_cases hsplit : e.vcn = startVcn
  · rw [if_neg (not_not.mpr hsplit), if_neg (by omega)]
  · rw [if_pos hsplit, if_pos (by omega)]
    rfl

/-- The third part of the new runlist is the runs behind the end. -/
theorem punchThird_eq
    (h : Tiles v (A ++ e :: B) w)
    (endVcn : Int)
    (hlo : e.vcn ≤ endVcn)
    (hhi : endVcn < e.vcn + e.length) :
    punchThird (A ++ e :: B ++ [t]) endVcn A.length =
      runsFrom (endVcn + 1) (A ++ e :: B) ++ [t] := by
  obtain ⟨m, hA, hm, hpos, hB⟩ := tiles_append_iff.mp h
  unfold punchThird
  have hdrop : (A ++ e :: B ++ [t]).drop (A.length + 1) = B ++ [t] := by
    rw [List.append_assoc, ← List.drop_drop, List.drop_left]
    rfl
  rw [elemAt_at, runsFrom_append hA (by omega), hdrop, ← List.append_assoc]
  by_cases hsplit : e.vcn + e.length - 1 = endVcn
  · rw [if_neg (by simp [hsplit]), runsFrom, if_pos (by omega)]
    have hend : m + e.length = endVcn + 1 := by omega
    rw [hend] at hB
    rw [hB.runsFrom_self]
    rfl
  · rw [if_pos hsplit, runsFrom_inside B (by omega) (by omega)]
    have hcnt : endVcn - e.vcn + 1 = endVcn + 1 - e.vcn := by omega
    rw [hcnt]
    rfl

theorem elemAt_far
    (A B D : Runlist)
    (s e t : RunlistElement) :
    elemAt (A ++ s :: (B ++ e :: D) ++ [t]) (A.length + (B.length + 1)) = e := by
  have := elemAt_at (A ++ s :: B) D e t
  simpa [Nat.add_comm 1] using this

theorem modify_concat
    (F : Runlist)
    (l : RunlistElement)
    (f : RunlistElement → RunlistElement) :
    (F ++ [l]).modify F.length f = F ++ [f l] := by
  induction F with
  | nil => rfl
  | cons x F ih => simp [ih]

/-- The last run of `punch_rl`, cut behind the end, and the terminator. -/
theorem cutLast_eq
    (F : Runlist)
    {l : RunlistElement} {m endVcn length : Int}
    (hF : Tiles m F l.vcn)
    (hD : Tiles (l.vcn + l.length) D w)
    (hlo : l.vcn ≤ endVcn)
    (hhi : endVcn < l.vcn + l.length)
    (hlength : l.vcn + l.length - 1 ≠ endVcn → length = endVcn + 1 - l.vcn) :
    let ended :=
      if l.vcn + l.length - 1 ≠ endVcn then F ++ [{ l with length := length }]
      else F ++ [l]
    ended ++ [⟨(elemAt ended F.length).vcn + (elemAt ended F.length).length, lcnEnoent, 0⟩] =
      runsUpto (endVcn + 1) (F ++ l :: D) ++ [enoentAt (endVcn + 1)] := by
  intro ended
  rw [runsUpto_append hF (by omega), runsUpto]
  by_cases hsplit : l.vcn + l.length - 1 = endVcn
  · have hended : ended = F ++ [l] := if_neg (not_not.mpr hsplit)
    have hend : l.vcn + l.length = endVcn + 1 := by omega
    rw [hend] at hD
    rw [if_pos (by omega), hD.runsUpto_start, hended, elemAt_append_cons, hend]
    rfl
  · have hended : ended = F ++ [{ l with length := length }] := if_pos hsplit
    have hend : l.vcn + length = endVcn + 1 := by
      omega
    rw [if_neg (by omega), if_pos (by omega), hended, elemAt_append_cons]
    rw [hend, startOfRun, ← hlength hsplit]
    rfl

theorem punchedRl_one
    (h : Tiles v (A ++ e :: B) w)
    (endVcn : Int)
    (hlo : e.vcn ≤ startVcn)
    (hle : startVcn ≤ endVcn)
    (hhi : endVcn < e.vcn + e.length) :
    punchedRl (A ++ e :: B ++ [t]) startVcn endVcn A.length A.length =
      runsUpto (endVcn + 1) (runsFrom startVcn (A ++ e :: B)) ++ [enoentAt (endVcn + 1)] := by
  obtain ⟨m, hA, hm, hpos, hB⟩ := tiles_append_iff.mp h
  have hcopied : ((A ++ e :: B ++ [t]).drop A.length).take (A.length - A.length + 1) = [e] := by
    simp
  have hbegun : (if e.vcn ≠ startVcn then [restOfRun startVcn e] else [e]) =
      [restOfRun startVcn e] := by
    split_ifs with hsplit
    · rfl
    · rw [restOfRun_self (by omega)]
  unfold punchedRl
  rw [elemAt_at, hcopied, runsFrom_append hA (by omega), runsFrom_inside B hlo (by omega)]
  simp only [Nat.sub_self, List.modify_zero_cons, shiftedRun_eq, hbegun]
  have hlength : (restOfRun startVcn e).length = e.length - (startVcn - e.vcn) := rfl
  have hend : e.vcn + e.length = (restOfRun startVcn e).vcn + (restOfRun startVcn e).length := by
    show e.vcn + e.length = startVcn + (e.length - (startVcn - e.vcn))
    omega
  rw [← hm, hend] at hB
  rw [hend]
  refine cutLast_eq [] (m := startVcn) rfl hB hle (by omega) ?_
  intro hsplit
  split_ifs with hthree
  · omega
  · have hbegin : e.vcn = startVcn := by
      by_contra hbegin
      exact hthree ⟨trivial, hbegin, hsplit⟩
    omega

theorem punchedRl_more
    {s : RunlistElement}
    (h : Tiles v (A ++ s :: (B ++ e :: D)) w)
    (endVcn : Int)
    (hlo : s.vcn ≤ startVcn)
    (hin : startVcn < s.vcn + s.length)
    (hle : e.vcn ≤ endVcn)
    (hhi : endVcn < e.vcn + e.length) :
    punchedRl (A ++ s :: (B ++ e :: D) ++ [t]) startVcn endVcn A.length
        (A.length + (B.length + 1)) =
      runsUpto (endVcn + 1) (runsFrom startVcn (A ++ s :: (B ++ e :: D))) ++
        [enoentAt (endVcn + 1)] := by
  obtain ⟨m, hA, hm, hpos, hrest⟩ := tiles_append_iff.mp h
  obtain ⟨k, hB, hk, hepos, hD⟩ := tiles_append_iff.mp hrest
  have hindex : A.length + (B.length + 1) - A.length = B.length + 1 := by omega
  have hcopied : ((A ++ s :: (B ++ e :: D) ++ [t]).drop A.length).take
      (A.length + (B.length + 1) - A.length + 1) = s :: (B ++ [e]) := by
    simp [List.take_append]
  have hbegun : (if s.vcn ≠ startVcn then restOfRun startVcn s :: (B ++ [e])
      else s :: (B ++ [e])) = restOfRun startVcn s :: (B ++ [e]) := by
    split_ifs with hsplit
    · rfl
    · rw [restOfRun_self (by omega)]
  have hstart : (restOfRun startVcn s).vcn + (restOfRun startVcn s).length = m + s.length := by
    show startVcn + (s.length - (startVcn - s.vcn)) = m + s.length
    omega
  have hF : Tiles startVcn (restOfRun startVcn s :: B) e.vcn := by
    refine ⟨rfl, ?_, ?_⟩
    · show 0 < s.length - (startVcn - s.vcn)
      omega
    · rw [show startVcn + (restOfRun startVcn s).length = m + s.length from hstart, hk]
      exact hB
  unfold punchedRl
  rw [elemAt_at, elemAt_far, hcopied, runsFrom_append hA (by omega),
    runsFrom_inside _ hlo hin, hindex]
  simp only [List.modify_zero_cons, shiftedRun_eq, hbegun]
  -- the hole begins and ends in different runs
  have hone : ¬ (A.length = A.length + (B.length + 1) ∧
      s.vcn ≠ startVcn ∧ e.vcn + e.length - 1 ≠ endVcn) := by
    omega
  have hlast := modify_concat (restOfRun startVcn s :: B) e
    (fun p => { p with length := endVcn - e.vcn + 1 })
  rw [List.cons_append, List.length_cons] at hlast
  simp only [if_neg hone, hlast]
  exact cutLast_eq (restOfRun startVcn s :: B) hF (hk ▸ hD) hle hhi (fun _ => by omega)

end Parts

section Fusing

variable {A C : Runlist} {x h r : RunlistElement} {v m w : Int}

theorem rlAreMergeable_hole_right
    (hlink : x.vcn + x.length = h.vcn)
    (hhole : h.lcn = lcnHole) :
    rlAreMergeable x h = decide (x.lcn = lcnHole) := by
  rw [Bool.eq_iff_iff, rlAreMergeable_iff, decide_eq_true_iff, hhole]
  unfold lcnRlNotMapped lcnHole
  omega

theorem rlAreMergeable_hole_left
    (hhole : h.lcn = lcnHole)
    (hlink : r.lcn = lcnHole → h.vcn + h.length = r.vcn) :
    rlAreMergeable h r = decide (r.lcn = lcnHole) := by
  rw [Bool.eq_iff_iff, rlAreMergeable_iff, decide_eq_true_iff]
  unfold lcnRlNotMapped lcnHole at *
  omega

theorem fuseHole_eq
    (A : Runlist)
    {R : Runlist} {newCnt : Nat}
    (hcnt : A.length + 1 < newCnt)
    (hhole : h.lcn = lcnHole)
    (hleft : ∀ x ∈ A.getLast?, x.vcn + x.length = h.vcn)
    (hright : r.lcn = lcnHole → h.vcn + h.length = r.vcn) :
    fuseHole A h (r :: R) newCnt = joinEnds (joinEnds A [h]) (r :: R) := by
  have hr := rlAreMergeable_hole_left hhole hright
  have helemR : elemAt (A ++ h :: r :: R) (A.length + 1) = r := by
    simpa using elemAt_append_cons (A ++ [h]) R r
  unfold fuseHole
  dsimp only
  rw [helemR]
  rcases List.eq_nil_or_concat A with rfl | ⟨A', x, rfl⟩
  · rw [if_neg (by simp), joinEnds_nil]
    by_cases hmerge : r.lcn = lcnHole
    · rw [if_pos ⟨hcnt, hmerge⟩]
      exact (joinEnds_join (A := []) (by simp [hr, hmerge])).symm
    · rw [if_neg (fun hc => hmerge hc.2)]
      exact (joinEnds_apart (A := []) (by simp [hr, hmerge])).symm
  · rw [List.concat_eq_append] at *
    have hlink := hleft x (by simp)
    have hx := rlAreMergeable_hole_right hlink hhole
    have helemL : elemAt (A' ++ [x] ++ h :: r :: R) ((A' ++ [x]).length - 1) = x := by simp
    have htake : (A' ++ [x] ++ h :: r :: R).take ((A' ++ [x]).length - 1) = A' := by simp
    have hdrop : ∀ n, (A' ++ [x] ++ h :: r :: R).drop ((A' ++ [x]).length + n) =
        (h :: r :: R).drop n := by
      intro n
      rw [← List.drop_drop, List.drop_left]
    rw [helemL, htake, hdrop, hdrop, List.take_left]
    by_cases hmergeL : x.lcn = lcnHole
    · have hjoined : rlAreMergeable (joinRuns x h) r = decide (r.lcn = lcnHole) := by
        refine rlAreMergeable_hole_left hmergeL fun hrl => ?_
        show x.vcn + (x.length + h.length) = r.vcn
        omega
      rw [if_pos ⟨by simp, hmergeL⟩, joinEnds_join (by simp [hx, hmergeL])]
      by_cases hmerge : r.lcn = lcnHole
      · rw [if_pos ⟨hcnt, hmerge⟩, joinEnds_join (by simp [hjoined, hmerge])]
        rfl
      · rw [if_neg (fun hc => hmerge hc.2), joinEnds_apart (by simp [hjoined, hmerge])]
        simp [joinRuns]
    · rw [if_neg (fun hc => hmergeL hc.2), joinEnds_apart (by simp [hx, hmergeL])]
      by_cases hmerge : r.lcn = lcnHole
      · rw [if_pos ⟨hcnt, hmerge⟩, joinEnds_join (by simp [hr, hmerge])]
        rfl
      · rw [if_neg (fun hc => hmerge hc.2), joinEnds_apart (by simp [hr, hmerge])]
        simp

theorem MappedRun.joinRuns
    {c : RunlistElement}
    (hx : MappedRun x)
    (hc : MappedRun c)
    (hlink : x.vcn + x.length = c.vcn)
    (hmerge : rlAreMergeable x c = true) :
    MappedRun (joinRuns x c) := by
  obtain ⟨hxpos, hxmapped, hxvcn, hxend, hxlcn⟩ := hx
  obtain ⟨hcpos, hcmapped, hcvcn, hcend, hclcn⟩ := hc
  refine ⟨?_, hxmapped, hxvcn, ?_, ?_⟩
  · show 0 < x.length + c.length
    omega
  · show x.vcn + (x.length + c.length) < 2 ^ 63
    omega
  · intro hreal
    show x.lcn + (x.length + c.length) < 2 ^ 63
    rw [rlAreMergeable_iff] at hmerge
    unfold lcnRlNotMapped lcnHole at hmerge
    omega

theorem MappedRuns.joinEnds
    (hA : MappedRuns v A m)
    (hC : MappedRuns m C w) :
    MappedRuns v (joinEnds A C) w := by
  rcases joinEnds_cases A C with hplain | ⟨A', x, c, C', rfl, rfl, hmerge, hjoin⟩
  · rw [hplain]
    exact mappedRuns_append_iff.mpr ⟨m, hA, hC⟩
  · rw [hjoin]
    obtain ⟨p, hA', hxv, hx, hxm⟩ := mappedRuns_append_iff.mp hA
    have hm : m = p + x.length := hxm
    obtain ⟨hcv, hc, hC'⟩ := hC
    refine mappedRuns_append_iff.mpr ⟨p, hA', hxv, hx.joinRuns hc (by omega) hmerge, ?_⟩
    have hend : p + (Libntfs.joinRuns x c).length = m + c.length := by
      show p + (x.length + c.length) = m + c.length
      omega
    rw [hend]
    exact hC'

theorem rlAreMergeable_joinRuns
    {c : RunlistElement}
    (d : RunlistElement)
    (hlink : x.vcn + x.length = c.vcn)
    (hmerge : rlAreMergeable x c = true) :
    rlAreMergeable (joinRuns x c) d = rlAreMergeable c d := by
  have hlcn : (joinRuns x c).lcn = x.lcn := rfl
  have hlength : (joinRuns x c).length = x.length + c.length := rfl
  rw [rlAreMergeable_iff] at hmerge
  unfold lcnRlNotMapped lcnHole at *
  apply rlAreMergeable_of_end
  · show x.vcn + (x.length + c.length) = c.vcn + c.length
    omega
  · omega

theorem isChain_joinEnds
    (hA : MappedRuns v A m)
    (hC : MappedRuns m C w)
    (hsepA : A.IsChain (fun a b => rlAreMergeable a b = false))
    (hsepC : C.IsChain (fun a b => rlAreMergeable a b = false)) :
    (joinEnds A C).IsChain (fun a b => rlAreMergeable a b = false) := by
  cases C with
  | nil => exact hsepA
  | cons c C =>
    rcases List.eq_nil_or_concat A with rfl | ⟨A', x, rfl⟩
    · exact hsepC
    · rw [List.concat_eq_append] at *
      obtain ⟨hsepA', -, hlast⟩ := List.isChain_append.mp hsepA
      obtain ⟨hhead, hsepC'⟩ := List.isChain_cons.mp hsepC
      obtain ⟨p, -, hxv, hx, hxm⟩ := mappedRuns_append_iff.mp hA
      have hm : m = p + x.length := hxm
      cases hmerge : rlAreMergeable x c with
      | true =>
        rw [joinEnds_join hmerge]
        refine List.isChain_append.mpr ⟨hsepA', List.isChain_cons.mpr ⟨?_, hsepC'⟩, ?_⟩
        · intro d hd
          rw [rlAreMergeable_joinRuns d (by rw [hC.1]; omega) hmerge]
          exact hhead d hd
        · intro a ha b hb
          obtain rfl : joinRuns x c = b := by simpa using hb
          exact (rlAreMergeable_congr rfl rfl).trans (hlast a ha x (by simp))
      | false =>
        rw [joinEnds_apart hmerge]
        refine List.isChain_append.mpr ⟨hsepA, hsepC, ?_⟩
        intro a ha b hb
        obtain rfl : x = a := by simpa using ha
        obtain rfl : c = b := by simpa using hb
        exact hmerge

end Fusing

section Result

variable {runs : List RunlistElement} {w startVcn len : Int}

theorem rlPunchHole_found
    {dst : Runlist} {endVcn : Int} {i k : Nat}
    (hcnt : 2 ≤ dst.length)
    (hterm : (elemAt dst (dst.length - 1)).length = 0)
    (hend : min (s64 (startVcn + len - 1))
      ((elemAt dst (dst.length - 2)).vcn + (elemAt dst (dst.length - 2)).length - 1) = endVcn)
    (hi : rlFindVcn dst startVcn = some i)
    (hk : rlFindVcn dst endVcn = some k)
    (himapped : lcnHole ≤ (elemAt dst i).lcn)
    (hkmapped : lcnHole ≤ (elemAt dst k).lcn) :
    rlPunchHole dst startVcn len =
      some (fuseHole (punchFirst dst startVcn i) ⟨startVcn, lcnHole, len⟩
          (punchThird dst endVcn k) (dst.length - (k - i + 1) + 3),
        punchedRl dst startVcn endVcn i k) := by
  have henoent : lcnEnoent < lcnHole := by decide
  unfold rlPunchHole
  dsimp only
  rw [if_neg (by omega), hend, hi]
  dsimp only
  rw [if_neg (by omega), hk]
  dsimp only
  rw [if_neg (by omega)]

theorem Tiles.getLast_end
    {v m : Int} {A : Runlist}
    (h : Tiles v A m) :
    ∀ x ∈ A.getLast?, x.vcn + x.length = m := by
  intro x hx
  rcases List.eq_nil_or_concat A with rfl | ⟨A', y, rfl⟩
  · simp at hx
  · rw [List.concat_eq_append] at *
    obtain rfl : y = x := by simpa using hx
    have hend := (h.ends (by simp)).2
    rwa [lastOf_concat] at hend

/-- The VCN behind the hole. -/
def punchStop (w startVcn len : Int) : Int :=
  min (startVcn + len) w

/-- The hole that is stored. -/
def punchedHole (startVcn len : Int) : RunlistElement :=
  ⟨startVcn, lcnHole, len⟩

theorem joinEnds_terminator
    (X C : Runlist)
    (w : Int) :
    joinEnds X (C ++ [enoentAt w]) = joinEnds X C ++ [enoentAt w] := by
  cases C with
  | nil =>
    rcases List.eq_nil_or_concat X with rfl | ⟨X', x, rfl⟩
    · simp [joinEnds]
    · rw [List.concat_eq_append, List.nil_append, joinEnds_apart]
      · simp [joinEnds]
      · have hlcn : (enoentAt w).lcn = -3 := rfl
        rw [Bool.eq_false_iff, ne_eq, rlAreMergeable_iff]
        unfold lcnRlNotMapped lcnHole
        omega
  | cons c C => exact joinEnds_append X [enoentAt w] (List.cons_ne_nil c C)

/-- The runs before the hole, the hole and the runs behind it. -/
def punchedRuns (runs : Runlist) (startVcn len stop : Int) : Runlist :=
  joinEnds (joinEnds (runsUpto startVcn runs) [punchedHole startVcn len]) (runsFrom stop runs)

theorem fuseHole_cut
    (h : MappedRuns 0 runs w)
    (hs : 0 ≤ startVcn)
    (hsw : startVcn < w)
    {stop : Int}
    (hstop : stop = startVcn + len ∨ stop = w)
    (hlo : 0 ≤ stop)
    (hhi : stop ≤ w)
    {newCnt : Nat}
    (hcnt : (runsUpto startVcn runs).length + 1 < newCnt) :
    fuseHole (runsUpto startVcn runs) (punchedHole startVcn len)
        (runsFrom stop runs ++ [enoentAt w]) newCnt =
      punchedRuns runs startVcn len stop ++ [enoentAt w] := by
  have hfirst := (h.runsUpto hs hsw.le).tiles
  have hthird := (h.runsFrom hlo hhi).tiles
  obtain ⟨r, R, hr, hlink⟩ : ∃ r R, runsFrom stop runs ++ [enoentAt w] = r :: R ∧
      (r.lcn = lcnHole → startVcn + len = r.vcn) := by
    cases hcase : runsFrom stop runs with
    | nil => exact ⟨enoentAt w, [], rfl, fun hlcn => absurd hlcn (enoentAt_lcn_lt w).ne⟩
    | cons r R =>
      rw [hcase] at hthird
      have hpos := hthird.2.1
      have hle := hthird.2.2.le
      have hvcn := hthird.1
      exact ⟨r, R ++ [enoentAt w], rfl, fun _ => by omega⟩
  rw [punchedRuns, ← joinEnds_terminator, hr]
  exact fuseHole_eq (runsUpto startVcn runs) hcnt rfl hfirst.getLast_end hlink

/-- The new runlist and `punch_rl`, from the runs before, in and behind the hole. -/
theorem rlPunchHole_eq
    (h : MappedRuns 0 runs w)
    (hs : 0 ≤ startVcn)
    (hsw : startVcn < w)
    (hlen : 1 ≤ len)
    (hrange : startVcn + len ≤ 2 ^ 63) :
    rlPunchHole (runs ++ [enoentAt w]) startVcn len =
      some
        (punchedRuns runs startVcn len (punchStop w startVcn len) ++ [enoentAt w],
          runsUpto (punchStop w startVcn len) (runsFrom startVcn runs) ++
            [enoentAt (punchStop w startVcn len)]) := by
  have htiles := h.tiles
  have hne : runs ≠ [] := by
    rintro rfl
    have hw : w = 0 := h
    omega
  have hpos : 0 < runs.length := List.length_pos_iff.mpr hne
  obtain ⟨stop, hstop⟩ : ∃ stop, punchStop w startVcn len = stop := ⟨_, rfl⟩
  have hstop' : stop = startVcn + len ∨ stop = w ∧ w ≤ startVcn + len := by
    unfold punchStop at hstop
    omega
  have hstopLe : stop ≤ w := by
    unfold punchStop at hstop
    omega
  have hend : min (s64 (startVcn + len - 1))
      ((elemAt (runs ++ [enoentAt w]) ((runs ++ [enoentAt w]).length - 2)).vcn +
        (elemAt (runs ++ [enoentAt w]) ((runs ++ [enoentAt w]).length - 2)).length - 1) =
      stop - 1 := by
    have hfinal : elemAt (runs ++ [enoentAt w]) ((runs ++ [enoentAt w]).length - 2) =
        lastOf runs := by
      rw [elemAt_append_left (by simp; omega)]
      simp [lastOf]
    rw [hfinal, (htiles.ends hne).2, s64_of_inS64 ⟨by omega, by omega⟩]
    omega
  have hcnt : 2 ≤ (runs ++ [enoentAt w]).length := by
    simp
    omega
  have hterm : (elemAt (runs ++ [enoentAt w]) ((runs ++ [enoentAt w]).length - 1)).length =
      0 := by
    simp [enoentAt]
  rw [hstop]
  obtain ⟨A, s, B, rfl, hslo, hshi⟩ := htiles.locate hs hsw
  have hsm := (h.mappedRun (e := s) (by simp)).lcn_ge
  have hi := rlFindVcn_covering (t := enoentAt w) startVcn htiles rfl le_rfl hsm hslo hshi
  have hfirst := punchFirst_eq (t := enoentAt w) htiles hslo hshi
  have hfirstLen : (runsUpto startVcn (A ++ s :: B)).length ≤ A.length + 1 := by
    rw [← hfirst, punchFirst]
    split_ifs <;> simp
  have himapped : lcnHole ≤ (elemAt (A ++ s :: B ++ [enoentAt w]) A.length).lcn := by
    rw [elemAt_at]
    exact hsm
  -- the same for the run at the end, which is found at `k`
  obtain ⟨k, hik, hkr, hk, hkmapped, hthird, hpunched⟩ : ∃ k, A.length ≤ k ∧
      k < (A ++ s :: B).length ∧
      rlFindVcn (A ++ s :: B ++ [enoentAt w]) (stop - 1) = some k ∧
      lcnHole ≤ (elemAt (A ++ s :: B ++ [enoentAt w]) k).lcn ∧
      punchThird (A ++ s :: B ++ [enoentAt w]) (stop - 1) k =
        runsFrom (stop - 1 + 1) (A ++ s :: B) ++ [enoentAt w] ∧
      punchedRl (A ++ s :: B ++ [enoentAt w]) startVcn (stop - 1) A.length k =
        runsUpto (stop - 1 + 1) (runsFrom startVcn (A ++ s :: B)) ++
          [enoentAt (stop - 1 + 1)] := by
    by_cases hone : stop - 1 < s.vcn + s.length
    · exact ⟨A.length, le_rfl, by simp,
        rlFindVcn_covering (stop - 1) htiles rfl le_rfl hsm (by omega) hone, himapped,
        punchThird_eq htiles (stop - 1) (by omega) hone,
        punchedRl_one htiles (stop - 1) hslo (by omega) hone⟩
    · obtain ⟨m, -, hsv, -, hB⟩ := tiles_append_iff.mp htiles
      obtain ⟨C, e, D, rfl, helo, hehi⟩ :=
        hB.locate (show m + s.length ≤ stop - 1 by omega) (by omega)
      have hem := (h.mappedRun (e := e) (by simp)).lcn_ge
      have hassoc : A ++ s :: (C ++ e :: D) = (A ++ s :: C) ++ e :: D := by simp
      have hlength : (A ++ s :: C).length = A.length + (C.length + 1) := by simp
      refine ⟨A.length + (C.length + 1), by omega, by simp, ?_, ?_, ?_,
        punchedRl_more htiles (stop - 1) hslo hshi helo hehi⟩
      · rw [hassoc] at htiles ⊢
        rw [← hlength]
        exact rlFindVcn_covering (stop - 1) htiles rfl le_rfl hem helo hehi
      · rw [elemAt_far]
        exact hem
      · rw [hassoc] at htiles ⊢
        rw [← hlength]
        exact punchThird_eq htiles (stop - 1) helo hehi
  rw [rlPunchHole_found hcnt hterm hend hi hk himapped hkmapped, hfirst, hthird, hpunched,
    Int.sub_add_cancel]
  congr 2
  refine fuseHole_cut h hs hsw (by omega) (by omega) hstopLe ?_
  rw [List.length_append]
  omega

/--
The result of punching a hole: a well-formed runlist of the same length with the
hole at the punched VCNs, and the former runs of these VCNs.
-/
def PunchedWell
    (runs : List RunlistElement) (w startVcn len : Int)
    (result : Option (Runlist × Runlist)) : Prop :=
  ∃ newRuns punched, result = some (newRuns ++ [enoentAt w],
      punched ++ [enoentAt (punchStop w startVcn len)]) ∧
    WellFormed newRuns w ∧
    (∀ vcn, rlVcnToLcn (some (newRuns ++ [enoentAt w])) vcn =
      if startVcn ≤ vcn ∧ vcn < punchStop w startVcn len then lcnHole
      else rlVcnToLcn (some (runs ++ [enoentAt w])) vcn) ∧
    MappedRuns startVcn punched (punchStop w startVcn len) ∧
    ∀ vcn, startVcn ≤ vcn → vcn < punchStop w startVcn len →
      rlVcnToLcn (some (punched ++ [enoentAt (punchStop w startVcn len)])) vcn =
        rlVcnToLcn (some (runs ++ [enoentAt w])) vcn

theorem MappedRuns.meetMapped
    {v : Int}
    (h : MappedRuns v runs w)
    (X : Runlist) :
    MeetMapped X runs := by
  cases runs with
  | nil => exact Or.inr (Or.inl rfl)
  | cons e rest => exact Or.inr (Or.inr (Or.inr h.2.1.lcn_ge))

theorem MappedRuns.end_lt
    {v : Int}
    (h : MappedRuns v runs w)
    (hne : runs ≠ []) :
    w < 2 ^ 63 := by
  have hmem : runs.getLast hne ∈ runs := List.getLast_mem hne
  have hend := h.tiles.getLast_end (runs.getLast hne) (List.getLast?_eq_some_getLast hne)
  have := (h.mappedRun hmem).vcn_end
  omega

theorem mappedRuns_punchedHole
    (hs : 0 ≤ startVcn)
    (hlen : 1 ≤ len)
    (hend : startVcn + len < 2 ^ 63) :
    MappedRuns startVcn [punchedHole startVcn len] (startVcn + len) := by
  refine ⟨rfl, ⟨?_, Or.inr rfl, hs, hend, ?_⟩, rfl⟩
  · show 0 < len
    omega
  · have hlcn : (punchedHole startVcn len).lcn = -1 := rfl
    omega

theorem punchedRuns_spec
    (h : WellFormed runs w)
    (hs : 0 ≤ startVcn)
    (hlen : 1 ≤ len)
    (hfit : startVcn + len ≤ w)
    (hw : w < 2 ^ 63) :
    WellFormed (punchedRuns runs startVcn len (startVcn + len)) w ∧
      ∀ vcn, 0 ≤ vcn → vcn < w → lcnIn (punchedRuns runs startVcn len (startVcn + len)) vcn =
        if startVcn ≤ vcn ∧ vcn < startVcn + len then lcnHole else lcnIn runs vcn := by
  have htiles := h.mapped.tiles
  have hfirst := h.mapped.runsUpto hs (by omega)
  have hthird := h.mapped.runsFrom (by omega) hfit
  have hhole := mappedRuns_punchedHole hs hlen (by omega)
  have hleft := hfirst.joinEnds hhole
  have hmeet : MeetMapped (runsUpto startVcn runs) [punchedHole startVcn len] :=
    Or.inr (Or.inr (Or.inr le_rfl))
  obtain ⟨-, hlookLeft⟩ := joinEnds_spec hfirst.tiles hhole.tiles hmeet
  obtain ⟨-, hlook⟩ := joinEnds_spec hleft.tiles hthird.tiles (hthird.meetMapped _)
  refine ⟨⟨hleft.joinEnds hthird,
    isChain_joinEnds hleft hthird (isChain_joinEnds hfirst hhole ?_ ?_) ?_⟩, ?_⟩
  · exact isChain_runsUpto h.separate
  · exact List.isChain_singleton _
  · exact isChain_runsFrom h.separate
  intro vcn hlo hhi
  rw [punchedRuns, hlook vcn hlo hhi]
  by_cases hbehind : startVcn + len ≤ vcn
  · rw [lcnIn_append_right hleft.tiles hbehind, if_neg (by omega),
      lcnIn_runsFrom htiles (by omega) hbehind]
  · rw [lcnIn_append_left hleft.tiles hlo (by omega), hlookLeft vcn hlo (by omega)]
    by_cases hbefore : vcn < startVcn
    · rw [lcnIn_append_left hfirst.tiles hlo hbefore, if_neg (by omega),
        lcnIn_runsUpto htiles hlo hbefore]
    · have hin : (punchedHole startVcn len).vcn ≤ vcn ∧
          vcn < (punchedHole startVcn len).vcn + (punchedHole startVcn len).length := by
        show startVcn ≤ vcn ∧ vcn < startVcn + len
        omega
      rw [lcnIn_append_right hfirst.tiles (by omega), lcnIn, if_pos hin,
        if_pos ⟨by omega, by omega⟩]
      rfl

/-- A part of the runs that is replaced is replaced in the lookups of the runlist. -/
theorem rlVcnToLcn_replaced
    {L M : Runlist} {p q lcn : Int}
    (hL : Tiles 0 L w)
    (hM : Tiles 0 M w)
    (hp : 0 ≤ p)
    (hq : q ≤ w)
    (hlook : ∀ vcn, 0 ≤ vcn → vcn < w →
      lcnIn L vcn = if p ≤ vcn ∧ vcn < q then lcn else lcnIn M vcn)
    (vcn : Int) :
    rlVcnToLcn (some (L ++ [enoentAt w])) vcn =
      if p ≤ vcn ∧ vcn < q then lcn else rlVcnToLcn (some (M ++ [enoentAt w])) vcn := by
  by_cases hneg : vcn < 0
  · rw [if_neg (by omega)]
    simp [rlVcnToLcn, hneg]
  · by_cases hin : vcn < w
    · rw [rlVcnToLcn_inside hL rfl le_rfl (by omega) hin,
        rlVcnToLcn_inside hM rfl le_rfl (by omega) hin, hlook vcn (by omega) hin]
    · rw [if_neg (by omega), rlVcnToLcn_tiles hL rfl (by omega), rlVcnToLcn_tiles hM rfl (by omega),
        rlVcnToLcnFrom_behind hL rfl (by omega),
        rlVcnToLcnFrom_behind hM rfl (by omega)]

/-- A hole that reaches past the end is stored with its whole length. -/
theorem rlPunchHole_past
    (h : MappedRuns 0 runs w)
    (hs : 0 ≤ startVcn)
    (hsw : startVcn < w)
    (hlen : 1 ≤ len)
    (hpast : w < startVcn + len)
    (hrange : startVcn + len ≤ 2 ^ 63) :
    ∃ newRuns punched, Tiles 0 newRuns (startVcn + len) ∧
      rlPunchHole (runs ++ [enoentAt w]) startVcn len =
        some (newRuns ++ [enoentAt w], punched) := by
  have hfirst := (h.runsUpto hs hsw.le).tiles
  have hstop : punchStop w startVcn len = w := by
    unfold punchStop
    omega
  have hnil : runsFrom w runs = [] :=
    (h.runsFrom h.le le_rfl).tiles.eq_nil le_rfl
  have hhole : Tiles startVcn [punchedHole startVcn len] (startVcn + len) :=
    ⟨rfl, show 0 < len by omega, rfl⟩
  obtain ⟨htiles, -⟩ := joinEnds_spec hfirst hhole (Or.inr (Or.inr (Or.inr le_rfl)))
  refine ⟨joinEnds (runsUpto startVcn runs) [punchedHole startVcn len],
    runsUpto w (runsFrom startVcn runs) ++ [enoentAt w], htiles, ?_⟩
  rw [rlPunchHole_eq h hs hsw hlen hrange, hstop, punchedRuns, hnil]
  rfl

/-- The end VCN wraps around when the hole would reach beyond all VCNs. -/
theorem rlPunchHole_wrapped
    (hs : 0 ≤ startVcn)
    (hlen : len < 2 ^ 63)
    (hpast : 2 ^ 63 < startVcn + len)
    (hsw : startVcn < 2 ^ 63)
    (rl : Runlist) :
    rlPunchHole rl startVcn len = none := by
  have hwrap := s64_of_ge (show 2 ^ 63 ≤ startVcn + len - 1 by omega) (by omega)
  have hneg : ∀ x, rlFindVcn rl (min (s64 (startVcn + len - 1)) x) = none := by
    intro x
    unfold rlFindVcn
    rw [if_pos (by rw [hwrap]; omega)]
  unfold rlPunchHole
  dsimp only
  split_ifs
  · rfl
  · rw [hneg]
    cases rlFindVcn rl startVcn with
    | none => rfl
    | some i => simp

/--
Punching a hole replaces exactly the punched VCNs, in a runlist of the same
length, if and only if the hole ends inside the runlist.
-/
theorem punchHole_iff
    (h : WellFormed runs w)
    (hs : 0 ≤ startVcn)
    (hsw : startVcn < w)
    (hlen : 1 ≤ len)
    (hlen' : len < 2 ^ 63) :
    PunchedWell runs w startVcn len (rlPunchHole (runs ++ [enoentAt w]) startVcn len) ↔
      startVcn + len ≤ w := by
  have hne : runs ≠ [] := by
    rintro rfl
    have hw : w = 0 := h.mapped
    omega
  have hw := h.mapped.end_lt hne
  constructor
  · rintro ⟨newRuns, punched, hresult, hwell, -⟩
    by_contra hpast
    by_cases hrange : startVcn + len ≤ 2 ^ 63
    · obtain ⟨L, P, hL, heq⟩ := rlPunchHole_past h.mapped hs hsw hlen (by omega) hrange
      rw [heq] at hresult
      have hsame : L = newRuns :=
        List.append_cancel_right (congrArg Prod.fst (Option.some.inj hresult))
      subst hsame
      have := hL.end_unique hwell.mapped.tiles
      omega
    · rw [rlPunchHole_wrapped hs hlen' (by omega) (by omega)] at hresult
      cases hresult
  · intro hfit
    have hstop : punchStop w startVcn len = startVcn + len := by
      unfold punchStop
      omega
    obtain ⟨hwell, hlook⟩ := punchedRuns_spec h hs hlen hfit hw
    have hfrom := h.mapped.runsFrom hs hsw.le
    have hpunched := hfrom.runsUpto (by omega) hfit
    refine ⟨_, runsUpto (startVcn + len) (runsFrom startVcn runs), ?_, hwell, ?_, ?_, ?_⟩
    · rw [rlPunchHole_eq h.mapped hs hsw hlen (by omega), hstop]
    · intro vcn
      rw [hstop]
      exact rlVcnToLcn_replaced hwell.mapped.tiles h.mapped.tiles (by omega) hfit hlook vcn
    · rw [hstop]
      exact hpunched
    · intro vcn hlo hhi
      rw [hstop] at hhi ⊢
      rw [rlVcnToLcn_inside hpunched.tiles rfl hs hlo hhi,
        rlVcnToLcn_inside h.mapped.tiles rfl le_rfl (by omega) (by omega),
        lcnIn_runsUpto hfrom.tiles hlo hhi, lcnIn_runsFrom h.mapped.tiles hs hlo]

/-- Runs of four clusters, a hole of four and six clusters. -/
def holedRuns : List RunlistElement :=
  [⟨0, 100, 4⟩, ⟨4, lcnHole, 4⟩, ⟨8, 200, 6⟩]

theorem wellFormed_holedRuns : WellFormed holedRuns 14 where
  mapped := by decide
  separate := by decide

/-- A hole from the first run to the third takes in the hole between them. -/
theorem punchHole_across :
    WellFormed holedRuns 14 ∧
      PunchedWell holedRuns 14 2 8 (rlPunchHole (holedRuns ++ [enoentAt 14]) 2 8) :=
  ⟨wellFormed_holedRuns, (punchHole_iff wellFormed_holedRuns (by decide) (by decide) (by decide)
      (by decide)).mpr (by decide)⟩

/-- The hole of eight clusters at VCN 10 reaches to 18, the runlist to 14. -/
theorem punchHole_past_end :
    rlPunchHole (holedRuns ++ [enoentAt 14]) 10 8 =
        some ([⟨0, 100, 4⟩, ⟨4, lcnHole, 4⟩, ⟨8, 200, 2⟩, ⟨10, lcnHole, 8⟩, enoentAt 14],
          [⟨10, 202, 4⟩, enoentAt 14]) ∧
      ¬ PunchedWell holedRuns 14 10 8 (rlPunchHole (holedRuns ++ [enoentAt 14]) 10 8) := by
  have hresult : rlPunchHole (holedRuns ++ [enoentAt 14]) 10 8 =
      some ([⟨0, 100, 4⟩, ⟨4, lcnHole, 4⟩, ⟨8, 200, 2⟩, ⟨10, lcnHole, 8⟩, enoentAt 14],
        [⟨10, 202, 4⟩, enoentAt 14]) := by
    decide +kernel
  refine ⟨hresult, ?_⟩
  rintro ⟨newRuns, punched, heq, hwell, -⟩
  have hsame : [⟨0, 100, 4⟩, ⟨4, lcnHole, 4⟩, ⟨8, 200, 2⟩, ⟨10, lcnHole, 8⟩] = newRuns :=
    List.append_cancel_right (congrArg Prod.fst (Option.some.inj heq))
  rw [← hsame] at hwell
  exact absurd hwell.mapped (by decide)

end Result

end NtfsPlus.Libntfs
