import NtfsPlus.Libntfs.RunlistMergeSpec

/-!
# Merging runs that can be joined

The four cases of `ntfs_runlists_merge_i` when the runs of the source can be
one run with their neighbours.  `joinEnds` puts two lists of runs behind each
other and joins the two that meet; what replace, insert and append leave is
`joinEnds` on the sides where the source touches the runs that are there.

Joining changes no lookup (`joinEnds_spec`), so a merge puts the source into
the unmapped element and leaves everything else as it was.
-/

namespace NtfsPlus.Libntfs

section Lookups

/-- What a run answers for a VCN inside it. -/
def RunlistElement.lcnOf (e : RunlistElement) (vcn : Int) : Int :=
  if e.lcn ≥ 0 then e.lcn + (vcn - e.vcn) else e.lcn

/-- The lookup of a VCN in elements without terminator. -/
def lcnIn : Runlist → Int → Int
  | [], _ => lcnEnoent
  | e :: rest, vcn =>
    if e.vcn ≤ vcn ∧ vcn < e.vcn + e.length then
      e.lcnOf vcn
    else
      lcnIn rest vcn

variable {A B : Runlist} {v m E vcn : Int}

theorem lcnIn_append_right
    (hA : Tiles v A m)
    (hm : m ≤ vcn) :
    lcnIn (A ++ B) vcn = lcnIn B vcn := by
  induction A generalizing v with
  | nil => rfl
  | cons e A ih =>
    obtain ⟨hv, hpos, hrest⟩ := hA
    have hle := hrest.le
    rw [List.cons_append, lcnIn, if_neg (by omega), ih hrest]

theorem lcnIn_append_left
    (hA : Tiles v A m)
    (hlo : v ≤ vcn)
    (hhi : vcn < m) :
    lcnIn (A ++ B) vcn = lcnIn A vcn := by
  induction A generalizing v with
  | nil =>
    have hm : m = v := hA
    omega
  | cons e A ih =>
    obtain ⟨hv, hpos, hrest⟩ := hA
    rw [List.cons_append, lcnIn, lcnIn]
    by_cases hin : e.vcn ≤ vcn ∧ vcn < e.vcn + e.length
    · rw [if_pos hin, if_pos hin]
    · rw [if_neg hin, if_neg hin, ih hrest (by omega)]

theorem lcnIn_covering
    {e : RunlistElement}
    (h : Tiles v (A ++ e :: B) E)
    (hlo : e.vcn ≤ vcn)
    (hhi : vcn < e.vcn + e.length) :
    lcnIn (A ++ e :: B) vcn = e.lcnOf vcn := by
  obtain ⟨m, hA, hrest⟩ := tiles_append_iff.mp h
  have hm : e.vcn = m := hrest.1
  rw [lcnIn_append_right hA (by omega), lcnIn, if_pos ⟨hlo, hhi⟩]

/-- Inside the range of its elements a runlist is looked up in them. -/
theorem rlVcnToLcn_inside
    {L : Runlist} {t : RunlistElement}
    (h : Tiles v L E)
    (ht : t.vcn = E)
    (hv : 0 ≤ v)
    (hlo : v ≤ vcn)
    (hhi : vcn < E) :
    rlVcnToLcn (some (L ++ [t])) vcn = lcnIn L vcn := by
  obtain ⟨A, e, B, rfl, he, he'⟩ := h.locate hlo hhi
  rw [rlVcnToLcn_from h ht hv hlo, rlVcnToLcnFrom_covering h ht he he', lcnIn_covering h he he']
  rfl

end Lookups

section Joining

/-- Two lists of runs, joined where the last run meets the first one. -/
def joinEnds (A : Runlist) : Runlist → Runlist
  | [] => A
  | c :: C =>
    if 0 < A.length ∧ rlAreMergeable (lastOf A) c then
      A.dropLast ++ joinRuns (lastOf A) c :: C
    else
      A ++ c :: C

variable {A B C : Runlist} {v m w : Int} {x c : RunlistElement}

@[simp] theorem lastOf_concat
    (A : Runlist)
    (x : RunlistElement) :
    lastOf (A ++ [x]) = x := by
  simp [lastOf]

theorem joinEnds_join
    (h : rlAreMergeable x c = true) :
    joinEnds (A ++ [x]) (c :: C) = A ++ joinRuns x c :: C := by
  unfold joinEnds
  simp [h]

theorem joinEnds_apart
    (h : rlAreMergeable x c = false) :
    joinEnds (A ++ [x]) (c :: C) = A ++ [x] ++ c :: C := by
  unfold joinEnds
  simp [h]

@[simp] theorem joinEnds_nil
    (C : Runlist) :
    joinEnds [] C = C := by
  cases C <;> simp [joinEnds]

theorem joinEnds_of_isChain
    (h : (A ++ C).IsChain (fun a b => rlAreMergeable a b = false)) :
    joinEnds A C = A ++ C := by
  cases C with
  | nil => simp [joinEnds]
  | cons c C =>
    rcases List.eq_nil_or_concat A with rfl | ⟨A', x, rfl⟩
    · simp [joinEnds]
    · rw [List.concat_eq_append] at *
      refine joinEnds_apart ?_
      rw [List.append_assoc] at h
      exact (List.isChain_cons_cons.mp (List.isChain_append.mp h).2.1).1

theorem joinEnds_ne_nil
    (A : Runlist)
    (hne : C ≠ []) :
    joinEnds A C ≠ [] := by
  obtain ⟨c, C', rfl⟩ := List.exists_cons_of_ne_nil hne
  rw [joinEnds]
  split_ifs <;> simp

theorem le_length_joinEnds
    (A C : Runlist) :
    A.length + C.length ≤ (joinEnds A C).length + 1 := by
  cases C with
  | nil => simp [joinEnds]
  | cons c C =>
    rw [joinEnds]
    split_ifs
    · simp
      omega
    · simp

theorem joinEnds_append
    (A : Runlist)
    (B : Runlist)
    (hne : C ≠ []) :
    joinEnds A (C ++ B) = joinEnds A C ++ B := by
  obtain ⟨c, C', rfl⟩ := List.exists_cons_of_ne_nil hne
  simp only [List.cons_append, joinEnds]
  split_ifs <;> simp

/-- Runs that are joined follow each other on the volume or are both holes. -/
theorem lcnOf_join
    (vcn : Int)
    (hlink : x.vcn + x.length = c.vcn)
    (hmapped : lcnHole ≤ x.lcn ∨ lcnHole ≤ c.lcn)
    (h : rlAreMergeable x c = true) :
    (joinRuns x c).lcnOf vcn = x.lcnOf vcn ∧ (joinRuns x c).lcnOf vcn = c.lcnOf vcn := by
  unfold rlAreMergeable at h
  unfold lcnHole lcnRlNotMapped at *
  unfold RunlistElement.lcnOf joinRuns
  dsimp only
  refine ⟨rfl, ?_⟩
  rw [if_neg (by omega), if_neg (by omega)] at h
  by_cases hreal : 0 ≤ x.lcn ∧ 0 ≤ c.lcn ∧ x.lcn + x.length = c.lcn
  · omega
  · rw [if_neg hreal] at h
    obtain ⟨hx, hc'⟩ := of_decide_eq_true h
    rw [hx, hc', if_neg (by decide), if_neg (by decide)]

/-- Two tilings that meet are joined or only put behind each other. -/
theorem joinEnds_cases
    (A C : Runlist) :
    joinEnds A C = A ++ C ∨ ∃ A' x c C', A = A' ++ [x] ∧ C = c :: C' ∧ rlAreMergeable x c = true ∧
        joinEnds A C = A' ++ joinRuns x c :: C' := by
  cases C with
  | nil => exact Or.inl (by simp [joinEnds])
  | cons c C' =>
    rcases List.eq_nil_or_concat A with rfl | ⟨A', x, rfl⟩
    · exact Or.inl (by simp)
    · rw [List.concat_eq_append]
      cases h : rlAreMergeable x c with
      | true => exact Or.inr ⟨A', x, c, C', rfl, rfl, h, joinEnds_join h⟩
      | false => exact Or.inl (joinEnds_apart h)

/-- One side of the place where two lists meet is mapped. -/
def MeetMapped (A C : Runlist) : Prop :=
  A = [] ∨ C = [] ∨ lcnHole ≤ (lastOf A).lcn ∨ lcnHole ≤ (elemAt C 0).lcn

/-- The joined list covers the same VCNs and answers the same lookups. -/
theorem joinEnds_spec
    (hA : Tiles v A m)
    (hC : Tiles m C w)
    (hmeet : MeetMapped A C) :
    Tiles v (joinEnds A C) w ∧
      ∀ vcn, v ≤ vcn → vcn < w → lcnIn (joinEnds A C) vcn = lcnIn (A ++ C) vcn := by
  rcases joinEnds_cases A C with hplain | ⟨A', x, c, C', rfl, rfl, hmerge, hjoin⟩
  · rw [hplain]
    exact ⟨tiles_append_iff.mpr ⟨m, hA, hC⟩, fun _ _ _ => rfl⟩
  · have hmapped : lcnHole ≤ x.lcn ∨ lcnHole ≤ c.lcn := by
      rcases hmeet with h | h | h | h
      · simp at h
      · simp at h
      · exact Or.inl (by simpa using h)
      · exact Or.inr h
    rw [hjoin]
    obtain ⟨p, hA', hx⟩ := tiles_append_iff.mp hA
    have hxv : x.vcn = p := hx.1
    have hxm : m = p + x.length := hx.2.2
    have hcv : c.vcn = m := hC.1
    have hxpos := hx.2.1
    have hcpos := hC.2.1
    have htiles : Tiles v (A' ++ joinRuns x c :: C') w := by
      refine tiles_append_iff.mpr ⟨p, hA', hxv, ?_, ?_⟩
      · show 0 < x.length + c.length
        omega
      · have hstart : p + (joinRuns x c).length = m + c.length := by
          show p + (x.length + c.length) = m + c.length
          omega
        rw [hstart]
        exact hC.2.2
    refine ⟨htiles, ?_⟩
    intro vcn hlo hhi
    have hlcn := lcnOf_join vcn (by omega) hmapped
      hmerge
    by_cases hbefore : vcn < p
    · rw [lcnIn_append_left hA' hlo hbefore, List.append_assoc, lcnIn_append_left hA' hlo hbefore]
    · rw [lcnIn_append_right hA' (by omega), List.append_assoc, lcnIn_append_right hA' (by omega)]
      simp only [List.singleton_append, lcnIn]
      show (if x.vcn ≤ vcn ∧ vcn < x.vcn + (x.length + c.length) then
        (joinRuns x c).lcnOf vcn else lcnIn C' vcn) = _
      by_cases hx' : vcn < x.vcn + x.length
      · rw [if_pos (by omega), if_pos (by omega)]
        exact hlcn.1
      · rw [if_neg (show ¬(x.vcn ≤ vcn ∧ vcn < x.vcn + x.length) by omega)]
        by_cases hc' : vcn < c.vcn + c.length
        · rw [if_pos (by omega), if_pos (by omega)]
          exact hlcn.2
        · rw [if_neg (by omega), if_neg (by omega)]

end Joining

section Sides

variable {A C R : Runlist} {d : RunlistElement}

theorem rlAreMergeable_congr
    {e f g : RunlistElement}
    (hvcn : f.vcn = g.vcn)
    (hlcn : f.lcn = g.lcn) :
    rlAreMergeable e f = rlAreMergeable e g := by
  unfold rlAreMergeable
  rw [hvcn, hlcn]

theorem joinRight_eq
    (A : Runlist)
    (d : RunlistElement)
    (R : Runlist)
    (hC : C ≠ []) :
    joinRight C (A ++ d :: R) (A.length + 1) (mergesRight (A ++ d :: R) C A.length) ++
          R.drop (mergesRight (A ++ d :: R) C A.length).toNat =
      joinEnds C R := by
  cases R with
  | nil =>
    have hmerges : mergesRight (A ++ [d]) C A.length = false := by simp [mergesRight]
    rw [hmerges]
    simp [joinRight, joinEnds]
  | cons r R' =>
    obtain ⟨C', c, rfl⟩ : ∃ pre e, C = pre ++ [e] :=
      ⟨C.dropLast, C.getLast hC, (List.dropLast_append_getLast _).symm⟩
    have hmerges : mergesRight (A ++ d :: r :: R') (C' ++ [c]) A.length = rlAreMergeable c r := by
      unfold mergesRight
      simp [elemAt]
    have hnext : elemAt (A ++ d :: r :: R') (A.length + 1) = r := by
      rw [elemAt_length_add]
      rfl
    rw [hmerges]
    cases h : rlAreMergeable c r with
    | true =>
      have hlen : (C' ++ [c]).length - 1 = C'.length := by simp
      rw [joinEnds_join h, joinRight, hnext, hlen, modify_append_cons]
      simp
    | false =>
      rw [joinEnds_apart h]
      simp [joinRight]

/-- Joining on the right keeps the number of runs, and where the first starts. -/
theorem joinRight_first
    (C dst : Runlist)
    (i : Nat)
    (right : Bool) :
    (joinRight C dst i right).length = C.length ∧
      (elemAt (joinRight C dst i right) 0).vcn = (elemAt C 0).vcn ∧
      (elemAt (joinRight C dst i right) 0).lcn = (elemAt C 0).lcn := by
  cases right with
  | false => simp [joinRight]
  | true =>
    rcases List.eq_nil_or_concat C with rfl | ⟨C', c, rfl⟩
    · simp [joinRight]
    · rw [joinRight]
      cases C' with
      | nil => simp [elemAt, joinRuns]
      | cons e C' => simp [elemAt]

theorem joinRight_ne_nil
    (hC : C ≠ [])
    (dst : Runlist)
    (i : Nat)
    (right : Bool) :
    joinRight C dst i right ≠ [] := by
  rwa [Ne, ← List.length_eq_zero_iff, (joinRight_first C dst i right).1, List.length_eq_zero_iff]

theorem joinLeft_eq
    {C' : Runlist}
    (hC : C' ≠ [])
    (hvcn : (elemAt C' 0).vcn = (elemAt C 0).vcn)
    (hlcn : (elemAt C' 0).lcn = (elemAt C 0).lcn) :
    ∃ A', joinLeft C' (A ++ d :: R) (A.length - 1)
        (mergesLeft (A ++ d :: R) C A.length) = A' ++ d :: R ∧
      A'.length = A.length ∧
      A' ++ C'.drop (mergesLeft (A ++ d :: R) C A.length).toNat = joinEnds A C' := by
  obtain ⟨c, C'', rfl⟩ := List.exists_cons_of_ne_nil hC
  rcases List.eq_nil_or_concat A with rfl | ⟨A', x, rfl⟩
  · refine ⟨[], ?_, rfl, ?_⟩ <;> simp [mergesLeft, joinLeft]
  · rw [List.concat_eq_append]
    have hmerges : mergesLeft (A' ++ [x] ++ d :: R) C (A' ++ [x]).length = rlAreMergeable x c := by
      unfold mergesLeft
      rw [← rlAreMergeable_congr hvcn hlcn]
      simp [elemAt]
    rw [hmerges]
    cases h : rlAreMergeable x c with
    | true =>
      have hlen : (A' ++ [x]).length - 1 = A'.length := by simp
      refine ⟨A' ++ [joinRuns x c], ?_, by simp, ?_⟩
      · rw [joinLeft, hlen, List.append_assoc, List.singleton_append, modify_append_cons]
        simp [elemAt]
      · rw [joinEnds_join h]
        simp
    | false =>
      refine ⟨A' ++ [x], by simp [joinLeft], rfl, ?_⟩
      rw [joinEnds_apart h]
      simp

end Sides

section Cases

variable {A B C R : Runlist} {a b x y E l : Int} {d t : RunlistElement}

/-- What is left of an element that nothing is stored in: a hole or not mapped. -/
def leftOver (l x y : Int) : RunlistElement :=
  ⟨x, l, y - x⟩

@[simp]
theorem leftOver_lcn
    (l x y : Int) :
    (leftOver l x y).lcn = l :=
  rfl

variable {right : Bool} {J D : Runlist}

/-- `ntfs_rl_replace` before it looks at the element behind the source. -/
theorem rlReplace_spliced
    (hC : C ≠ [])
    (hright : mergesRight (A ++ d :: R) C A.length = right)
    (hJ : joinEnds A (joinRight C (A ++ d :: R) (A.length + 1) right) = J)
    {M : Runlist}
    (hM : J ++ R.drop right.toNat ++
      (A ++ d :: R).drop (J ++ R.drop right.toNat).length = M) :
    rlReplace (A ++ d :: R) C A.length =
      if R.drop right.toNat ≠ [] ∧ (elemAt M J.length).lcn = lcnEnoent then
        followPrevious M J.length
      else
        M := by
  have hfirst := joinRight_first C (A ++ d :: R) (A.length + 1) right
  unfold rlReplace
  dsimp only
  rw [hright]
  generalize joinRight C (A ++ d :: R) (A.length + 1) right = C' at *
  have hpos : 0 < C.length := List.length_pos_iff.mpr hC
  have hC' : C' ≠ [] := List.length_pos_iff.mp (by omega)
  obtain ⟨A', hjoined, hlen, hleft⟩ :=
    @joinLeft_eq A C R d C' hC' hfirst.2.1 hfirst.2.2
  have hone : (mergesLeft (A ++ d :: R) C A.length).toNat ≤ 1 := Bool.toNat_le _
  generalize mergesLeft (A ++ d :: R) C A.length = left at *
  have hX : J.length = A.length + C.length - left.toNat := by
    rw [← hJ, ← hleft, List.length_append, List.length_drop]
    omega
  rw [hjoined, ← hX]
  have htail : (A' ++ d :: R).drop (A.length + right.toNat + 1) = R.drop right.toNat := by
    have hsplit : A.length + right.toNat + 1 = A'.length + (right.toNat + 1) := by omega
    rw [hsplit, ← List.drop_drop, List.drop_left, List.drop_succ_cons]
  have hstale : ∀ n, A.length ≤ n → (A' ++ d :: R).drop n = (A ++ d :: R).drop n := by
    intro n hn
    rw [List.drop_append, List.drop_append, hlen,
      List.drop_eq_nil_of_le (by omega), List.drop_eq_nil_of_le hn]
  have hsplice : splice (A' ++ d :: R) A.length (A.length + right.toNat + 1)
      (C'.drop left.toNat) = M := by
    unfold splice
    dsimp only
    rw [htail, ← hlen, List.take_left, hleft, hJ, hstale, hM]
    rw [List.length_append]
    omega
  have hbehind : (A ++ d :: R).length > A.length + right.toNat + 1 ↔ R.drop right.toNat ≠ [] := by
    simp
    omega
  rw [hsplice]
  simp only [hbehind]

theorem rlReplace_joinEnds
    (hC : C ≠ [])
    (hfollow : ∀ e ∈ (R.drop (mergesRight (A ++ d :: R) C A.length).toNat).head?,
      ∃ z, Tiles 0 (joinEnds A (joinRight C (A ++ d :: R) (A.length + 1)
        (mergesRight (A ++ d :: R) C A.length))) z ∧ e.vcn = z) :
    rlReplace (A ++ d :: R) C A.length = joinEnds A (joinEnds C R) ++
        (A ++ d :: R).drop (joinEnds A (joinEnds C R)).length := by
  have hright := joinRight_eq A d R hC
  have hC' := joinRight_ne_nil hC (A ++ d :: R) (A.length + 1)
    (mergesRight (A ++ d :: R) C A.length)
  rw [rlReplace_spliced hC rfl rfl rfl]
  generalize mergesRight (A ++ d :: R) C A.length = right at *
  generalize joinRight C (A ++ d :: R) (A.length + 1) right = C' at *
  rw [← hright, joinEnds_append A (R.drop right.toNat) hC']
  split_ifs with hmarker
  · obtain ⟨r, R', hR⟩ := List.exists_cons_of_ne_nil hmarker.1
    obtain ⟨z, hz, hr⟩ := hfollow r (by rw [hR]; rfl)
    rw [List.append_assoc]
    refine followPrevious_eq_self rfl (joinEnds_ne_nil A hC') (hz.ends (joinEnds_ne_nil A hC')).2 ?_
    rw [hR]
    simpa using hr
  · rfl

theorem rlInsert_moved
    (hA : Tiles 0 A a)
    (htiles : Tiles a C b)
    (hC : C ≠ [])
    (hmeet : MeetMapped A C) :
    rlInsert (A ++ d :: R) C A.length =
      if d.lcn = lcnHole ∨ d.lcn = lcnRlNotMapped then
        reachNext (joinEnds A C ++ { d with vcn := b } :: R) (joinEnds A C).length
      else
        joinEnds A C ++ { d with vcn := b } :: R := by
  have hpos : 0 < C.length := List.length_pos_iff.mpr hC
  have hstart := (htiles.ends hC).1
  have hlen0 := (htiles.mem (elemAt_mem hpos)).2.1
  have hjoined := (joinEnds_spec hA htiles hmeet).1
  have hdisc : discontinuity (A ++ d :: R) C A.length = false := by
    unfold discontinuity
    rw [hstart]
    by_cases hempty : A.length = 0
    · obtain rfl := List.length_eq_zero_iff.mp hempty
      have ha : a = 0 := hA
      simp [ha]
    · have hends := (hA.ends (by rintro rfl; simp at hempty)).2
      rw [elemAt_append_left (by omega)]
      unfold lastOf at hends
      split_ifs <;> simp <;> omega
  obtain ⟨A', hset, hlen, hleft⟩ := @joinLeft_eq A C R d C hC rfl rfl
  have hone : (mergesLeft (A ++ d :: R) C A.length).toNat ≤ 1 := Bool.toNat_le _
  unfold rlInsert
  rw [hdisc]
  dsimp only
  rw [hset]
  generalize mergesLeft (A ++ d :: R) C A.length = left at *
  have hX : (joinEnds A C).length = A.length + C.length - left.toNat := by
    rw [← hleft, List.length_append, List.length_drop]
    omega
  have hsplice : splice (A' ++ d :: R) A.length A.length (C.drop left.toNat) =
      joinEnds A C ++ d :: R := by
    rw [splice_eq, ← hlen, List.take_left, List.drop_left, hleft]
    rw [← hlen, List.take_left, List.drop_left, hleft, List.length_append, List.length_append]
    omega
  simp only [Bool.false_eq_true, if_false, List.nil_append, Bool.toNat_false, Nat.add_zero]
  rw [hsplice, ← hX, followPrevious_append_cons rfl (joinEnds_ne_nil A hC)
    (hjoined.ends (joinEnds_ne_nil A hC)).2, elemAt_append_cons]

theorem rlInsert_joinEnds
    (hA : Tiles 0 A a)
    (htiles : Tiles a C b)
    (hC : C ≠ [])
    (hmeet : MeetMapped A C)
    (hd : d.lcn = lcnHole ∨ d.lcn = lcnRlNotMapped)
    (hR : (elemAt R 0).vcn = y) :
    rlInsert (A ++ d :: R) C A.length = joinEnds A C ++ leftOver d.lcn b y :: R := by
  rw [rlInsert_moved hA htiles hC hmeet, if_pos hd, reachNext_append_cons, hR]
  rfl

/-- `ntfs_rl_append` before it looks at the element behind the source. -/
theorem rlAppend_spliced
    (hC : C ≠ [])
    (hstart : (elemAt C 0).vcn = a)
    (hx : d.vcn = x)
    (hright : mergesRight (A ++ d :: R) C A.length = right)
    (hJ : A ++ leftOver d.lcn x a :: joinRight C (A ++ d :: R) (A.length + 1) right = J) :
    rlAppend (A ++ d :: R) C A.length =
      if (elemAt (J ++ R.drop right.toNat) J.length).lcn = lcnEnoent then
        followPrevious (J ++ R.drop right.toNat) J.length
      else
        J ++ R.drop right.toNat := by
  have hfirst := joinRight_first C (A ++ d :: R) (A.length + 1) right
  have hone : right.toNat ≤ 1 := Bool.toNat_le _
  unfold rlAppend
  dsimp only
  rw [hright]
  generalize joinRight C (A ++ d :: R) (A.length + 1) right = C' at *
  have hpos : 0 < C.length := List.length_pos_iff.mpr hC
  have hsplice : splice (A ++ d :: R) (A.length + 1) (A.length + 1 + right.toNat)
      C' = A ++ d :: (C' ++ R.drop right.toNat) := by
    have htake : (A ++ d :: R).take (A.length + 1) = A ++ [d] := by simp [List.take_append]
    have hdrop : (A ++ d :: R).drop (A.length + 1 + right.toNat) = R.drop right.toNat := by
      rw [Nat.add_assoc, ← List.drop_drop, List.drop_left, Nat.add_comm 1, List.drop_succ_cons]
    rw [splice_eq, htake, hdrop]
    · simp
    · simp
      omega
  have hhead : (elemAt (C' ++ R.drop right.toNat) 0).vcn = a := by
    rw [elemAt_append_left (by omega), hfirst.2.1, hstart]
  have hresult : A ++ { d with length := a - d.vcn } :: (C' ++ R.drop right.toNat) =
      J ++ R.drop right.toNat := by
    subst hx
    rw [← hJ]
    simp [leftOver]
  have hlen : A.length + C.length + 1 = J.length := by
    rw [← hJ]
    simp [hfirst.1]
    omega
  rw [hsplice, reachNext_append_cons, hhead, hresult, hlen]

theorem rlAppend_joinEnds
    (hC : C ≠ [])
    (hstart : (elemAt C 0).vcn = a)
    (hx : d.vcn = x)
    (hfollow : ∀ e ∈ (R.drop (mergesRight (A ++ d :: R) C A.length).toNat).head?,
      ∃ z, Tiles a (joinRight C (A ++ d :: R) (A.length + 1)
        (mergesRight (A ++ d :: R) C A.length)) z ∧ e.vcn = z) :
    rlAppend (A ++ d :: R) C A.length = A ++ leftOver d.lcn x a :: joinEnds C R := by
  have hright := joinRight_eq A d R hC
  have hC' := joinRight_ne_nil hC (A ++ d :: R) (A.length + 1)
    (mergesRight (A ++ d :: R) C A.length)
  rw [rlAppend_spliced hC hstart hx rfl rfl]
  generalize mergesRight (A ++ d :: R) C A.length = right at *
  generalize joinRight C (A ++ d :: R) (A.length + 1) right = C' at *
  have hall : A ++ leftOver d.lcn x a :: joinEnds C R =
      (A ++ leftOver d.lcn x a :: C') ++ R.drop right.toNat := by
    rw [← hright]
    simp
  rw [hall]
  split_ifs with hmarker
  · cases hR : R.drop right.toNat with
    | nil =>
      rw [List.append_nil]
      unfold followPrevious
      rw [List.modify_eq_self le_rfl]
    | cons r R' =>
      obtain ⟨z, hz, hr⟩ := hfollow r (by rw [hR]; rfl)
      refine followPrevious_eq_self rfl (by simp) ?_ (by simpa using hr)
      have hsplit : A ++ leftOver d.lcn x a :: C' = (A ++ [leftOver d.lcn x a]) ++ C' := by simp
      rw [hsplit, lastOf_append _ hC']
      exact (hz.ends hC').2
  · rfl

theorem rlSplit_middle
    (hC : Tiles a C b)
    (hne : C ≠ [])
    (hx : d.vcn = x)
    (hR : (elemAt R 0).vcn = y) :
    rlSplit (A ++ d :: R) C A.length = A ++ leftOver d.lcn x a :: C ++ leftOver d.lcn b y :: R := by
  have hpos : 0 < C.length := List.length_pos_iff.mpr hne
  have hends := hC.ends hne
  have hsplice : splice (A ++ d :: R) (A.length + 1) A.length C = A ++ d :: (C ++ d :: R) := by
    have htake : (A ++ d :: R).take (A.length + 1) = A ++ [d] := by simp [List.take_append]
    rw [splice_eq, htake]
    · simp
    · simp
      omega
  have hfirst : elemAt (C ++ d :: R) 0 = elemAt C 0 := elemAt_append_left hpos
  have hresult : A ++ { d with length := a - d.vcn } :: (C ++ d :: R) =
      (A ++ leftOver d.lcn x a :: C) ++ d :: R := by
    subst hx
    simp [leftOver]
  have hlen : A.length + C.length + 1 = (A ++ leftOver d.lcn x a :: C).length := by
    simp
    omega
  have hlast : (lastOf (A ++ leftOver d.lcn x a :: C)).vcn +
      (lastOf (A ++ leftOver d.lcn x a :: C)).length = b := by
    have hsplit : A ++ leftOver d.lcn x a :: C = (A ++ [leftOver d.lcn x a]) ++ C := by simp
    rw [hsplit, lastOf_append _ hne]
    exact hends.2
  unfold rlSplit
  dsimp only
  rw [hsplice, reachNext_append_cons, hfirst, hends.1, hresult, hlen,
    followPrevious_append_cons rfl (by simp) hlast, reachNext_append_cons, hR]
  rfl

/-- What the source leaves on its right, of an element with the LCN `l`. -/
def fillRight (l : Int) (C : Runlist) (b y : Int) (R : Runlist) : Runlist :=
  if y = b then joinEnds C R else C ++ leftOver l b y :: R

/-- What the source leaves on its left. -/
def fillLeft (l : Int) (A : Runlist) (x a : Int) (D : Runlist) : Runlist :=
  if x = a then joinEnds A D else A ++ leftOver l x a :: D

/-- The element from `x` to `y` that is left, if any. -/
def gapOf (l x y : Int) : Runlist :=
  if x < y then [leftOver l x y] else []

theorem tiles_gapOf
    (l : Int)
    (hle : x ≤ y) :
    Tiles x (gapOf l x y) y := by
  unfold gapOf
  split_ifs with hlt
  · exact ⟨rfl, show 0 < y - x by omega, show y = x + (y - x) by omega⟩
  · show y = x
    omega

theorem EndsMapped.meet_right
    (hC : EndsMapped C)
    (R : Runlist) :
    MeetMapped C R :=
  Or.inr (Or.inr (Or.inl hC.last))

theorem joinEnds_concat
    (hC : EndsMapped C)
    (ht : t.lcn < lcnHole) :
    joinEnds C (B ++ [t]) = joinEnds C B ++ [t] := by
  cases B with
  | nil =>
    rcases joinEnds_cases C [t] with hplain | ⟨C', c, _, _, rfl, ht', hmerge, -⟩
    · simpa [joinEnds] using hplain
    · obtain ⟨rfl, -⟩ := List.cons.inj ht'
      have hc : lcnHole ≤ c.lcn := by simpa using hC.last
      rw [rlAreMergeable_unmapped (Or.inr ⟨hc, ht⟩)] at hmerge
      cases hmerge
  | cons e B => exact joinEnds_append C [t] (by simp)

theorem fillRight_concat
    (hC : EndsMapped C)
    (ht : t.lcn < lcnHole) :
    fillRight l C b y (B ++ [t]) = fillRight l C b y B ++ [t] := by
  unfold fillRight
  split_ifs
  · exact joinEnds_concat hC ht
  · simp

theorem fillRight_ne_nil
    (hC : C ≠ []) :
    fillRight l C b y R ≠ [] := by
  unfold fillRight
  split_ifs
  · rcases joinEnds_cases C R with hplain | ⟨C', x, c, R', -, -, -, hjoin⟩
    · rw [hplain]
      simp [hC]
    · rw [hjoin]
      simp
  · simp

theorem fillLeft_concat
    (hD : D ≠ []) :
    fillLeft l A x a (D ++ [t]) = fillLeft l A x a D ++ [t] := by
  unfold fillLeft
  split_ifs
  · exact joinEnds_append A [t] hD
  · simp

/-- The first run on the right side starts where the source does. -/
theorem fillRight_first
    (hC : C ≠ []) :
    (elemAt (fillRight l C b y R) 0).lcn = (elemAt C 0).lcn := by
  have hpos : 0 < C.length := List.length_pos_iff.mpr hC
  unfold fillRight
  split_ifs
  · rcases joinEnds_cases C R with hplain | ⟨C', x, c, R', rfl, -, -, hjoin⟩
    · rw [hplain, elemAt_append_left hpos]
    · rw [hjoin]
      cases C' with
      | nil => rfl
      | cons e C' => rfl
  · rw [elemAt_append_left hpos]

theorem fillRight_spec
    (l : Int)
    (hC : Tiles a C b)
    (hends : EndsMapped C)
    (hB : Tiles y B E)
    (hby : b ≤ y) :
    Tiles a (fillRight l C b y B) E ∧ ∀ vcn, a ≤ vcn → vcn < E →
        lcnIn (fillRight l C b y B) vcn = lcnIn (C ++ gapOf l b y ++ B) vcn := by
  unfold fillRight gapOf
  split_ifs with hsame hlt hlt
  · omega
  · subst hsame
    rw [List.append_nil]
    exact joinEnds_spec hC hB (hends.meet_right B)
  · have hgap := tiles_gapOf l hby
    rw [gapOf, if_pos hlt] at hgap
    have hall : Tiles a (C ++ [leftOver l b y] ++ B) E :=
      tiles_append_iff.mpr ⟨y, tiles_append_iff.mpr ⟨b, hC, hgap⟩, hB⟩
    rw [List.append_assoc] at hall ⊢
    exact ⟨hall, fun _ _ _ => rfl⟩
  · omega

theorem fillLeft_spec
    (l : Int)
    (hA : Tiles 0 A x)
    (hD : Tiles a D E)
    (hmapped : lcnHole ≤ (elemAt D 0).lcn)
    (hxa : x ≤ a) :
    Tiles 0 (fillLeft l A x a D) E ∧ ∀ vcn, 0 ≤ vcn → vcn < E →
        lcnIn (fillLeft l A x a D) vcn = lcnIn (A ++ gapOf l x a ++ D) vcn := by
  unfold fillLeft gapOf
  split_ifs with hsame hlt hlt
  · omega
  · subst hsame
    rw [List.append_nil]
    exact joinEnds_spec hA hD (Or.inr (Or.inr (Or.inr hmapped)))
  · have hgap := tiles_gapOf l hxa
    rw [gapOf, if_pos hlt] at hgap
    have hall : Tiles 0 (A ++ [leftOver l x a] ++ D) E :=
      tiles_append_iff.mpr ⟨a, tiles_append_iff.mpr ⟨x, hA, hgap⟩, hD⟩
    rw [List.append_assoc] at hall ⊢
    exact ⟨hall, fun _ _ _ => rfl⟩
  · omega

theorem joinRight_follow
    (A : Runlist)
    (d : RunlistElement)
    (hC : Tiles a C b)
    (hends : EndsMapped C)
    (hB : Tiles b B E)
    (ht : t.vcn = E)
    (hlcn : t.lcn < lcnHole) :
    ∃ z, Tiles a (joinRight C (A ++ d :: (B ++ [t])) (A.length + 1)
        (mergesRight (A ++ d :: (B ++ [t])) C A.length)) z ∧
      ∀ e ∈ ((B ++ [t]).drop
        (mergesRight (A ++ d :: (B ++ [t])) C A.length).toNat).head?, e.vcn = z := by
  obtain ⟨C', c, rfl⟩ : ∃ pre e, C = pre ++ [e] :=
    ⟨C.dropLast, C.getLast hends.nonempty, (List.dropLast_append_getLast _).symm⟩
  have hnext : elemAt (A ++ d :: (B ++ [t])) (A.length + 1) = elemAt (B ++ [t]) 0 := by
    rw [elemAt_length_add]
    rfl
  have hmerges : mergesRight (A ++ d :: (B ++ [t])) (C' ++ [c]) A.length =
      rlAreMergeable c (elemAt (B ++ [t]) 0) := by
    unfold mergesRight
    simp [elemAt]
  rw [hmerges]
  cases h : rlAreMergeable c (elemAt (B ++ [t]) 0) with
  | false => exact ⟨b, by simpa [joinRight] using hC, by simpa using hB.head_append ht⟩
  | true =>
    cases B with
    | nil =>
      have hc : lcnHole ≤ c.lcn := by simpa using hends.last
      have hno := rlAreMergeable_unmapped (Or.inr ⟨hc, hlcn⟩)
      rw [show elemAt ([] ++ [t]) 0 = t from rfl, hno] at h
      cases h
    | cons f B =>
      have hlen : (C' ++ [c]).length - 1 = C'.length := by simp
      obtain ⟨m, hC', hc⟩ := tiles_append_iff.mp hC
      have hb : b = m + c.length := hc.2.2
      have hcpos := hc.2.1
      have hfpos := hB.2.1
      refine ⟨b + f.length, ?_, ?_⟩
      · rw [joinRight, hnext, hlen, modify_append_cons]
        refine tiles_append_iff.mpr ⟨m, hC', hc.1, ?_, ?_⟩
        · show 0 < c.length + f.length
          omega
        · show b + f.length = m + (c.length + f.length)
          omega
      · exact hB.2.2.head_append ht

/-- The four cases in one: the source replaces its part of an element. -/
theorem applyPlan_joined
    (hA : Tiles 0 A x)
    (hC : Tiles a C b)
    (hB : Tiles y B E)
    (hends : EndsMapped C)
    (ht : t.vcn = E)
    (hlcn : t.lcn < lcnHole)
    (hxa : x ≤ a)
    (hby : b ≤ y)
    (hl : l = lcnHole ∨ l = lcnRlNotMapped)
    (m : Option Int) :
    applyPlan (A ++ leftOver l x y :: (B ++ [t])) ⟨C, A.length, decide (x = a), decide (y ≤ b), m⟩ =
      fillLeft l A x a (fillRight l C b y (B ++ [t])) ++ (A ++ leftOver l x y :: (B ++ [t])).drop
          (fillLeft l A x a (fillRight l C b y (B ++ [t]))).length := by
  have hne := hends.nonempty
  have hpos : 0 < C.length := List.length_pos_iff.mpr hne
  have hhead : (elemAt (B ++ [t]) 0).vcn = y := by
    have := hB.head_append ht
    cases B with
    | nil => exact this t rfl
    | cons f B => exact this f rfl
  unfold applyPlan fillLeft fillRight
  by_cases hstart : x = a
  · subst hstart
    have hmeet : ∀ D : Runlist, (elemAt D 0).lcn = (elemAt C 0).lcn → MeetMapped A D := by
      intro D hD
      exact Or.inr (Or.inr (Or.inr (by rw [hD]; exact hends.first)))
    by_cases hfinish : y ≤ b
    · have hyb : y = b := by omega
      subst hyb
      simp only [le_refl]
      refine rlReplace_joinEnds hne ?_
      obtain ⟨z, hz, hfollow⟩ := joinRight_follow A (leftOver l x y) hC hends hB ht hlcn
      intro e he
      refine ⟨z, (joinEnds_spec hA hz (hmeet _ ?_)).1, hfollow e he⟩
      exact (joinRight_first C _ _ _).2.2
    · have hyb : ¬y = b := by omega
      have hlen := le_length_joinEnds A C
      simp only [hfinish, hyb, if_false]
      rw [rlInsert_joinEnds hA hC hne (hmeet C rfl) hl hhead,
        joinEnds_append A _ hne, List.drop_eq_nil_of_le, List.append_nil]
      · rfl
      · simp
        omega
  · by_cases hfinish : y ≤ b
    · have hyb : y = b := by omega
      subst hyb
      have hlen := le_length_joinEnds C (B ++ [t])
      simp only [hstart, le_refl]
      obtain ⟨z, hz, hfollow⟩ := joinRight_follow A (leftOver l x y) hC hends hB ht hlcn
      rw [rlAppend_joinEnds hne (hC.ends hne).1
        rfl (fun e he => ⟨z, hz, hfollow e he⟩),
        List.drop_eq_nil_of_le, List.append_nil]
      · rfl
      · simp at hlen ⊢
        omega
    · have hyb : ¬y = b := by omega
      simp only [hstart, hfinish, hyb]
      rw [rlSplit_middle hC hne (show (leftOver l x y).vcn = x from rfl) hhead,
        List.drop_eq_nil_of_le]
      · simp
      · simp
        omega

end Cases

section Merge

variable {A B C H : Runlist} {a b x y E total : Int} {t : RunlistElement}

/-- A runlist with a source in the element with the LCN `l` from `x` to `y`. -/
def filledAt (l : Int) (A : Runlist) (x a : Int) (C : Runlist) (b y : Int) (B : Runlist) :
    Runlist :=
  fillLeft l A x a (fillRight l C b y B)

/-- The merged runlist: the source in its place, everything else as it was. -/
theorem filledAt_spec
    (l : Int)
    (hA : Tiles 0 A x)
    (hC : Tiles a C b)
    (hB : Tiles y B E)
    (hends : EndsMapped C)
    (hxa : x ≤ a)
    (hby : b ≤ y) :
    Tiles 0 (filledAt l A x a C b y B) E ∧ ∀ vcn, 0 ≤ vcn → vcn < E →
        lcnIn (filledAt l A x a C b y B) vcn =
          lcnIn (A ++ gapOf l x a ++ (C ++ gapOf l b y ++ B)) vcn := by
  obtain ⟨hD, hsame⟩ := fillRight_spec l hC hends hB hby
  obtain ⟨htiles, hlook⟩ := fillLeft_spec l hA hD
    (by rw [fillRight_first hends.nonempty]; exact hends.first) hxa
  refine ⟨htiles, ?_⟩
  intro vcn hlo hhi
  have hstart : Tiles 0 (A ++ gapOf l x a) a :=
    tiles_append_iff.mpr ⟨x, hA, tiles_gapOf l hxa⟩
  rw [filledAt, hlook vcn hlo hhi]
  by_cases hbefore : vcn < a
  · rw [lcnIn_append_left hstart hlo hbefore, lcnIn_append_left hstart hlo hbefore]
  · rw [lcnIn_append_right hstart (by omega), lcnIn_append_right hstart (by omega),
      hsame vcn (by omega) hhi]

theorem filledAt_concat
    (l : Int)
    (hends : EndsMapped C)
    (hlcn : t.lcn < lcnHole) :
    fillLeft l A x a (fillRight l C b y (B ++ [t])) = filledAt l A x a C b y B ++ [t] := by
  rw [fillRight_concat hends hlcn, fillLeft_concat (fillRight_ne_nil hends.nonempty)]
  rfl

/-- Runs merged into a hole or an unmapped element, joined where they can be. -/
theorem runlistsMerge_filled
    {l : Int}
    (hl : l = lcnHole ∨ l = lcnRlNotMapped)
    (S : Source H C [] (unmappedAt b) a b)
    (hA : Tiles 0 A x)
    (hB : Tiles y B E)
    (ht : t.vcn = E)
    (hzero : t.length = 0)
    (hlcn : t.lcn < lcnHole)
    (hxa : x ≤ a)
    (hby : b ≤ y)
    (hay : a < y) :
    runlistsMerge (some (A ++ leftOver l x y :: (B ++ [t])))
        (some (H ++ C ++ [] ++ [unmappedAt b])) =
      .ok (some (filledAt l A x a C b y B ++ [t])) := by
  have hplan : mergePlan (A ++ leftOver l x y :: (B ++ [t])) (H ++ C ++ [] ++ [unmappedAt b]) =
        .ok ⟨C, A.length, decide (x = a), decide (y ≤ b), none⟩ := by
    rw [mergePlan_inside S.toEnds (hA.before hxa) hl (show y - x ≠ 0 by omega)
      (show a < x + (y - x) by omega), List.append_nil,
      lastOf_append H S.nonempty, (S.tiles.ends S.nonempty).2]
    simp [leftOver, unmappedAt, lcnRlNotMapped, lcnEnoent]
    rfl
  have hmerged := (filledAt_spec l hA S.tiles hB S.toEnds.ends hxa hby).1
  unfold runlistsMerge
  simp only [hplan, bind, Except.bind, pure, Except.pure]
  rw [applyPlan_joined hA S.tiles hB S.toEnds.ends ht hlcn hxa hby hl,
    filledAt_concat l S.toEnds.ends hlcn,
    upToTerminator_append hmerged.length_ne_zero hzero]

/-- An extent merged into an unmapped element, joined where it can be. -/
theorem runlistsMerge_extent
    (S : Source H C [] (unmappedAt b) a b)
    (hA : Tiles 0 A x)
    (hB : Tiles y B E)
    (ht : t.vcn = E)
    (hzero : t.length = 0)
    (hlcn : t.lcn < lcnHole)
    (hxa : x ≤ a)
    (hby : b ≤ y)
    (hay : a < y) :
    runlistsMerge (some (A ++ notMapped x y :: (B ++ [t])))
        (some (H ++ C ++ [] ++ [unmappedAt b])) =
      .ok (some (filledAt lcnRlNotMapped A x a C b y B ++ [t])) :=
  runlistsMerge_filled (Or.inr rfl) S hA hB ht hzero hlcn hxa hby hay

end Merge

end NtfsPlus.Libntfs
