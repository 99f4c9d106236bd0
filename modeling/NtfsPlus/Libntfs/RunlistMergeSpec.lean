import NtfsPlus.Libntfs.RunlistMerge

/-!
# The plan of a merge

A source runlist is unmapped elements around the runs `C` from `a` to `b` and a
terminator; the destination is `A ++ d :: B` with an element `d` in which nothing
is stored.  `mergePlan_inside` says what `ntfs_runlists_merge_i` decides to do with
them.
-/

namespace NtfsPlus.Libntfs

section Tiles

variable {v w : Int} {rl : Runlist}

theorem Tiles.end_unique
    {w' : Int}
    (h : Tiles v rl w)
    (h' : Tiles v rl w') :
    w = w' := by
  induction rl generalizing v with
  | nil => exact Eq.trans h h'.symm
  | cons e rl ih => exact ih h.2.2 h'.2.2

theorem Tiles.mem
    (h : Tiles v rl w)
    {e : RunlistElement}
    (he : e ∈ rl) :
    v ≤ e.vcn ∧ 0 < e.length ∧ e.vcn + e.length ≤ w := by
  induction rl generalizing v with
  | nil => simp at he
  | cons f rest ih =>
    obtain ⟨hv, hpos, hrest⟩ := h
    rcases List.mem_cons.mp he with rfl | hmem
    · have := hrest.le
      omega
    · have := ih hrest hmem
      omega

theorem Tiles.locate
    {a : Int}
    (h : Tiles v rl w)
    (hlo : v ≤ a)
    (hhi : a < w) :
    ∃ A d B, rl = A ++ d :: B ∧ d.vcn ≤ a ∧ a < d.vcn + d.length := by
  induction rl generalizing v with
  | nil =>
    have hw : w = v := h
    omega
  | cons e rest ih =>
    obtain ⟨hv, hpos, hrest⟩ := h
    by_cases hin : a < v + e.length
    · exact ⟨[], e, rest, rfl, by omega, by omega⟩
    · obtain ⟨A, d, B, hsplit, hd⟩ := ih hrest (by omega)
      exact ⟨e :: A, d, B, by rw [hsplit]; rfl, hd⟩

/-- The last element. -/
def lastOf (rl : Runlist) : RunlistElement :=
  elemAt rl (rl.length - 1)

theorem lastOf_append
    (P : Runlist)
    {Q : Runlist}
    (hQ : Q ≠ []) :
    lastOf (P ++ Q) = lastOf Q := by
  have hpos : 0 < Q.length := List.length_pos_iff.mpr hQ
  unfold lastOf
  rw [List.length_append, elemAt_append_right (by omega)]
  congr 1
  omega

theorem Tiles.ends
    (h : Tiles v rl w)
    (hne : rl ≠ []) :
    (elemAt rl 0).vcn = v ∧ (lastOf rl).vcn + (lastOf rl).length = w := by
  obtain ⟨pre, e, rfl⟩ : ∃ pre e, rl = pre ++ [e] :=
    ⟨rl.dropLast, rl.getLast hne, (List.dropLast_append_getLast _).symm⟩
  constructor
  · cases pre with
    | nil => exact h.1
    | cons f pre => exact h.1
  · obtain ⟨m, -, hm, -, hw⟩ := tiles_append_iff.mp h
    have hw' : w = m + e.length := hw
    simp [lastOf, elemAt, hm, hw']

end Tiles

section Arrays

@[simp] theorem elemAt_append_cons
    (A B : Runlist)
    (d : RunlistElement) :
    elemAt (A ++ d :: B) A.length = d := by
  simp [elemAt]

theorem elemAt_length_add
    (A B : Runlist)
    (k : Nat) :
    elemAt (A ++ B) (A.length + k) = elemAt B k := by
  rw [elemAt_append_right (by omega), Nat.add_sub_cancel_left]

theorem elemAt_mem
    {rl : Runlist} {i : Nat}
    (h : i < rl.length) :
    elemAt rl i ∈ rl := by
  simp [elemAt, List.getElem?_eq_getElem h]

theorem modify_append_cons
    (A B : Runlist)
    (d : RunlistElement)
    (f : RunlistElement → RunlistElement) :
    (A ++ d :: B).modify A.length f = A ++ f d :: B := by
  induction A with
  | nil => rfl
  | cons e A ih => simp [ih]

theorem firstFrom_append_cons
    (A B : Runlist)
    (d : RunlistElement)
    (p : RunlistElement → Bool)
    {i : Nat}
    (hi : i ≤ A.length)
    (hA : ∀ e ∈ A.drop i, p e = false)
    (hd : p d = true) :
    firstFrom (A ++ d :: B) p i = A.length := by
  have hnot : ¬(A.drop i).findIdx p < (A.drop i).length := by
    rw [List.findIdx_lt_length]
    simpa using hA
  unfold firstFrom
  rw [List.drop_append_of_le_length hi, List.findIdx_append, if_neg hnot, List.findIdx_cons, hd]
  simp
  omega

/-- Nothing is left behind when the runlist does not get shorter. -/
theorem splice_eq
    {dst src : Runlist} {loc tail : Nat}
    (h : dst.length ≤ (dst.take loc ++ src ++ dst.drop tail).length) :
    splice dst loc tail src = dst.take loc ++ src ++ dst.drop tail := by
  unfold splice
  dsimp only
  rw [List.drop_eq_nil_of_le h, List.append_nil]

end Arrays

section Cells

/-- An unmapped element from `x` to `y`. -/
def notMapped (x y : Int) : RunlistElement :=
  ⟨x, lcnRlNotMapped, y - x⟩

/-- The unmapped rest between `x` and `y`, if there is any. -/
def gap (x y : Int) : Runlist :=
  if x < y then [notMapped x y] else []

variable {P Q : Runlist} {b : Int} {m : Nat}

theorem reachNext_append_cons
    (P Q : Runlist)
    (e : RunlistElement) :
    reachNext (P ++ e :: Q) P.length = P ++ { e with length := (elemAt Q 0).vcn - e.vcn } :: Q := by
  unfold reachNext
  rw [elemAt_length_add, modify_append_cons]
  rfl

theorem followPrevious_append_cons
    {e : RunlistElement}
    (hm : m = P.length)
    (hP : P ≠ [])
    (hend : (lastOf P).vcn + (lastOf P).length = b) :
    followPrevious (P ++ e :: Q) m = P ++ { e with vcn := b } :: Q := by
  have hpos : 0 < P.length := List.length_pos_iff.mpr hP
  subst hm
  unfold followPrevious
  rw [elemAt_append_left (by omega)]
  unfold lastOf at hend
  dsimp only
  rw [hend, modify_append_cons]

/-- The element behind the source, if it ends a file, already follows it. -/
theorem followPrevious_eq_self
    (hm : m = P.length)
    (hP : P ≠ [])
    (hend : (lastOf P).vcn + (lastOf P).length = b)
    (hQ : ∀ e ∈ Q.head?, e.vcn = b) :
    followPrevious (P ++ Q) m = P ++ Q := by
  cases Q with
  | nil => rw [List.append_nil, hm, followPrevious, List.modify_eq_self le_rfl]
  | cons e Q => rw [followPrevious_append_cons hm hP hend, ← hQ e rfl]

end Cells

section Plan

/--
A source runlist: unmapped elements, the mapped runs `C` from `a` to `b`,
unmapped elements again, and the terminator `t`.
-/
structure Source (H C T : Runlist) (t : RunlistElement) (a b : Int) : Prop where
  head : ∀ e ∈ H, e.length ≠ 0 ∧ e.lcn < lcnHole
  nonempty : C ≠ []
  tiles : Tiles a C b
  mapped : ∀ e ∈ C, lcnHole ≤ e.lcn
  tail : ∀ e ∈ T, e.length ≠ 0 ∧ e.lcn < lcnHole
  length_eq : t.length = 0
  unmapped : t.lcn < lcnHole

/-- Runs of which the first and the last one are mapped. -/
structure EndsMapped (C : Runlist) : Prop where
  nonempty : C ≠ []
  first : lcnHole ≤ (elemAt C 0).lcn
  last : lcnHole ≤ (lastOf C).lcn

theorem EndsMapped.of_mapped
    {C : Runlist}
    (hne : C ≠ [])
    (hmapped : ∀ e ∈ C, lcnHole ≤ e.lcn) :
    EndsMapped C := by
  have hpos : 0 < C.length := List.length_pos_iff.mpr hne
  exact ⟨hne, hmapped _ (elemAt_mem hpos), hmapped _ (elemAt_mem (by omega))⟩

/-- A source runlist where runs between the first and the last one of `C` may be unmapped. -/
structure SourceEnds (H C T : Runlist) (t : RunlistElement) (a b : Int) : Prop where
  head : ∀ e ∈ H, e.length ≠ 0 ∧ e.lcn < lcnHole
  ends : EndsMapped C
  tiles : Tiles a C b
  tail : ∀ e ∈ T, e.length ≠ 0 ∧ e.lcn < lcnHole
  length_eq : t.length = 0
  unmapped : t.lcn < lcnHole

theorem Source.toEnds
    {H C T : Runlist} {t : RunlistElement} {a b : Int}
    (h : Source H C T t a b) :
    SourceEnds H C T t a b :=
  ⟨h.head, .of_mapped h.nonempty h.mapped, h.tiles, h.tail, h.length_eq, h.unmapped⟩

theorem lastMapped_append_cons
    (P U : Runlist)
    (c : RunlistElement)
    (hc : lcnHole ≤ c.lcn)
    (hU : ∀ e ∈ U, e.lcn < lcnHole)
    {k : Nat}
    (hk : k ≤ U.length) :
    lastMapped (P ++ c :: U) (P.length + k) = P.length := by
  induction k with
  | zero =>
    cases hP : P.length with
    | zero => rfl
    | succ n => rw [lastMapped, ← hP, elemAt_append_cons, if_neg (by omega)]
  | succ k ih =>
    have hmem : elemAt (P ++ c :: U) (P.length + k + 1) ∈ U := by
      rw [Nat.add_assoc, elemAt_length_add]
      exact elemAt_mem hk
    rw [← Nat.add_assoc, lastMapped, if_pos (hU _ hmem), ih (by omega)]

variable {H C T : Runlist} {t : RunlistElement} {a b : Int}

theorem SourceEnds.length_ne_zero
    (h : SourceEnds H C T t a b) :
    ∀ e ∈ H ++ C ++ T, e.length ≠ 0 := by
  intro e he
  rcases List.mem_append.mp he with he | he
  · rcases List.mem_append.mp he with he | he
    · exact (h.head e he).1
    · have := (h.tiles.mem he).2.1
      omega
  · exact (h.tail e he).1

theorem SourceEnds.firstFrom_mapped
    (h : SourceEnds H C T t a b) :
    firstFrom (H ++ C ++ T ++ [t]) (fun e => isEnd e || decide (e.lcn ≥ lcnHole)) 0 = H.length := by
  obtain ⟨c, C', rfl⟩ := List.exists_cons_of_ne_nil h.ends.nonempty
  have hc : lcnHole ≤ c.lcn := h.ends.first
  have hsplit : H ++ c :: C' ++ T ++ [t] = H ++ c :: (C' ++ T ++ [t]) := by simp
  rw [hsplit]
  apply firstFrom_append_cons _ _ _ _ (Nat.zero_le _)
  · intro e he
    obtain ⟨hlen, hlcn⟩ := h.head e (by simpa using he)
    simp [isEnd]
    omega
  · simp only [Bool.or_eq_true, decide_eq_true_eq]
    exact Or.inr hc

theorem SourceEnds.firstFrom_end
    (h : SourceEnds H C T t a b)
    (i : Nat)
    (hi : i ≤ H.length) :
    firstFrom (H ++ C ++ T ++ [t]) isEnd i = (H ++ C ++ T).length := by
  apply firstFrom_append_cons _ _ _ _ (by simp; omega)
  · intro e he
    simp [isEnd, h.length_ne_zero e (List.mem_of_mem_drop he)]
  · simp [isEnd, h.length_eq]

theorem SourceEnds.lastMapped_eq
    (h : SourceEnds H C T t a b) :
    lastMapped (H ++ C ++ T ++ [t]) (H ++ C ++ T).length = H.length + C.length - 1 := by
  obtain ⟨C', c, rfl⟩ : ∃ pre e, C = pre ++ [e] :=
    ⟨C.dropLast, C.getLast h.ends.nonempty, (List.dropLast_append_getLast _).symm⟩
  have hsplit : H ++ (C' ++ [c]) ++ T ++ [t] = (H ++ C') ++ c :: (T ++ [t]) := by simp
  have hlen : (H ++ (C' ++ [c]) ++ T).length = (H ++ C').length + (T.length + 1) := by
    simp
    omega
  rw [hsplit, hlen, lastMapped_append_cons]
  · simp
  · have hlast := h.ends.last
    rwa [lastOf_append C' (by simp)] at hlast
  · intro e he
    rcases List.mem_append.mp he with he | he
    · exact (h.tail e he).2
    · rw [List.mem_singleton.mp he]
      exact h.unmapped
  · simp

theorem SourceEnds.take_drop
    (S : SourceEnds H C T t a b) :
    ((H ++ C ++ T ++ [t]).drop H.length).take
      (H.length + C.length - 1 - H.length + 1) = C := by
  have hpos : 0 < C.length := List.length_pos_iff.mpr S.ends.nonempty
  have hn : H.length + C.length - 1 - H.length + 1 = C.length := by omega
  rw [hn]
  simp

theorem SourceEnds.elemAt_start
    (h : SourceEnds H C T t a b) :
    elemAt (H ++ C ++ T ++ [t]) H.length = elemAt C 0 := by
  have hpos : 0 < C.length := List.length_pos_iff.mpr h.ends.nonempty
  have hsplit : H ++ C ++ T ++ [t] = H ++ (C ++ (T ++ [t])) := by simp
  rw [hsplit, show H.length = H.length + 0 from rfl, elemAt_length_add, elemAt_append_left hpos]

theorem SourceEnds.elemAt_last
    (h : SourceEnds H C T t a b) :
    elemAt (H ++ C ++ T ++ [t]) ((H ++ C ++ T).length - 1) = lastOf (H ++ C ++ T) := by
  have hpos : 0 < C.length := List.length_pos_iff.mpr h.ends.nonempty
  rw [elemAt_append_left (by simp; omega)]
  rfl

variable {A B : Runlist} {d : RunlistElement}

theorem firstFrom_dins
    (hA : ∀ e ∈ A, e.length ≠ 0 ∧ e.vcn + e.length ≤ a)
    (hd : d.length = 0 ∨ a < d.vcn + d.length) :
    firstFrom (A ++ d :: B) (fun e => isEnd e || decide (e.vcn + e.length > a)) 0 = A.length := by
  apply firstFrom_append_cons _ _ _ _ (Nat.zero_le _)
  · intro e he
    obtain ⟨hlen, hend⟩ := hA e (by simpa using he)
    simp [isEnd]
    omega
  · simpa [isEnd] using hd

/-- The plan for runs that lie in an element with nothing stored in it. -/
theorem mergePlan_inside
    (S : SourceEnds H C T t a b)
    (hA : ∀ e ∈ A, e.length ≠ 0 ∧ e.vcn + e.length ≤ a)
    (hd : d.lcn = lcnHole ∨ d.lcn = lcnRlNotMapped)
    (hne : d.length ≠ 0)
    (hin : a < d.vcn + d.length) :
    mergePlan (A ++ d :: B) (H ++ C ++ T ++ [t]) = .ok
        { src := C
          dins := A.length
          start := decide (d.vcn = a)
          finish :=
            decide (d.vcn + d.length ≤
                (lastOf (H ++ C ++ T)).vcn + (lastOf (H ++ C ++ T)).length) &&
              !(decide (t.lcn = lcnEnoent) &&
                decide (d.vcn + d.length > (lastOf (H ++ C ++ T)).vcn))
          markerVcn := if t.lcn = lcnEnoent then some t.vcn else none } := by
  have hpos : 0 < C.length := List.length_pos_iff.mpr S.ends.nonempty
  have hvcn := (S.tiles.ends S.ends.nonempty).1
  have hlen := (S.tiles.mem (elemAt_mem hpos)).2.1
  unfold mergePlan
  simp only [S.firstFrom_mapped, S.elemAt_start, hvcn,
    firstFrom_dins hA (Or.inr hin), elemAt_append_cons,
    S.firstFrom_end H.length le_rfl, S.lastMapped_eq, S.elemAt_last]
  have hrange : lcnRlNotMapped ≤ d.lcn ∧ d.lcn < 0 := by
    unfold lcnHole lcnRlNotMapped at *
    omega
  rw [if_neg (by omega), if_neg (by omega)]
  simp [isEnd, hne, hrange.1]
  simpa using S.take_drop

end Plan

section Separate

theorem rlAreMergeable_unmapped
    {e f : RunlistElement}
    (h : (e.lcn < lcnHole ∧ lcnHole ≤ f.lcn) ∨ (lcnHole ≤ e.lcn ∧ f.lcn < lcnHole)) :
    rlAreMergeable e f = false := by
  unfold rlAreMergeable lcnRlNotMapped lcnHole at *
  rw [if_neg (by omega)]
  split_ifs
  · rfl
  · omega
  · simp
    omega

end Separate

section Lookup

variable {v E vcn : Int} {t : RunlistElement} {L : Runlist}

theorem rlVcnToLcnFrom_covering
    {A B : Runlist} {e : RunlistElement}
    (h : Tiles v (A ++ e :: B) E)
    (ht : t.vcn = E)
    (hlo : e.vcn ≤ vcn)
    (hhi : vcn < e.vcn + e.length) :
    rlVcnToLcnFrom vcn (A ++ e :: B ++ [t]) =
      if e.lcn ≥ 0 then e.lcn + (vcn - e.vcn) else e.lcn := by
  induction A generalizing v with
  | nil =>
    obtain ⟨hv, hpos, hB⟩ := h
    cases B with
    | nil =>
      have hE : E = v + e.length := hB
      simp only [List.nil_append, List.cons_append, rlVcnToLcnFrom]
      rw [if_neg (by omega), if_pos (by omega)]
    | cons f B =>
      have hf := hB.1
      simp only [List.nil_append, List.cons_append, rlVcnToLcnFrom]
      rw [if_neg (by omega), if_pos (by omega)]
  | cons f A ih =>
    obtain ⟨hv, hpos, hrest⟩ := h
    have hmem := hrest.mem (show e ∈ A ++ e :: B by simp)
    rw [← ih hrest]
    cases A with
    | nil =>
      simp only [List.nil_append, List.cons_append, rlVcnToLcnFrom]
      rw [if_neg (by omega), if_neg (by omega)]
    | cons g A =>
      have hg := hrest.1
      simp only [List.cons_append, rlVcnToLcnFrom]
      rw [if_neg (by omega), if_neg (by omega)]

theorem rlVcnToLcnFrom_behind
    (h : Tiles v L E)
    (ht : t.vcn = E)
    (hE : E ≤ vcn) :
    rlVcnToLcnFrom vcn (L ++ [t]) = if t.lcn < 0 then t.lcn else lcnEnoent := by
  induction L generalizing v with
  | nil => simp [rlVcnToLcnFrom]
  | cons e L ih =>
    obtain ⟨hv, hpos, hrest⟩ := h
    have hle := hrest.le
    rw [← ih hrest]
    cases L with
    | nil =>
      simp only [List.nil_append, List.cons_append, rlVcnToLcnFrom]
      rw [if_neg (by omega), if_neg (by omega)]
    | cons f L =>
      have hf := hrest.1
      simp only [List.cons_append, rlVcnToLcnFrom]
      rw [if_neg (by omega), if_neg (by omega)]

theorem rlVcnToLcn_from
    (h : Tiles v L E)
    (ht : t.vcn = E)
    (hv : 0 ≤ v)
    (hvcn : v ≤ vcn) :
    rlVcnToLcn (some (L ++ [t])) vcn = rlVcnToLcnFrom vcn (L ++ [t]) := by
  unfold rlVcnToLcn
  rw [if_neg (by omega)]
  cases L with
  | nil =>
    have hE : E = v := h
    simp [show ¬vcn < t.vcn by omega]
  | cons e L =>
    have he : e.vcn = v := h.1
    simp [show ¬vcn < e.vcn by omega]

theorem rlVcnToLcn_tiles
    (h : Tiles 0 L E)
    (ht : t.vcn = E)
    (hvcn : 0 ≤ vcn) :
    rlVcnToLcn (some (L ++ [t])) vcn = rlVcnToLcnFrom vcn (L ++ [t]) :=
  rlVcnToLcn_from h ht le_rfl hvcn

end Lookup

section Merge

/-- The value of an array stops at the terminator, whatever stands behind it. -/
theorem upToTerminator_append
    {L : Runlist} {t : RunlistElement}
    (hL : ∀ e ∈ L, e.length ≠ 0)
    (ht : t.length = 0)
    (stale : Runlist) :
    upToTerminator (L ++ [t] ++ stale) = L ++ [t] := by
  induction L with
  | nil => simp [upToTerminator, ht]
  | cons e L ih =>
    have he : e.length ≠ 0 := hL e (by simp)
    have hrest := ih (fun e' he' => hL e' (by simp [he']))
    simp only [List.cons_append] at hrest ⊢
    rw [upToTerminator, if_neg he, hrest]

theorem tiles_gap
    {x y : Int}
    (hle : x ≤ y) :
    Tiles x (gap x y) y := by
  unfold gap
  split_ifs with hlt
  · exact ⟨rfl, show 0 < y - x by omega, show y = x + (y - x) by omega⟩
  · show y = x
    omega

variable {H C A B : Runlist} {a b x y E total : Int} {t : RunlistElement}

variable {v w : Int} {rl : Runlist}

theorem Tiles.eq_nil
    (h : Tiles v rl w)
    (hle : w ≤ v) :
    rl = [] := by
  cases rl with
  | nil => rfl
  | cons e rl =>
    have hpos := h.2.1
    have hend := h.2.2.le
    omega

theorem Tiles.length_ne_zero
    (h : Tiles v rl w) :
    ∀ e ∈ rl, e.length ≠ 0 := by
  intro e he
  have := (h.mem he).2.1
  omega

theorem Tiles.before
    (h : Tiles v rl w)
    (hwa : w ≤ a) :
    ∀ e ∈ rl, e.length ≠ 0 ∧ e.vcn + e.length ≤ a := by
  intro e he
  have := h.mem he
  omega

theorem Tiles.head_append
    (h : Tiles v rl w)
    (ht : t.vcn = w) :
    ∀ e ∈ (rl ++ [t]).head?, e.vcn = v := by
  cases rl with
  | nil =>
    have hw : w = v := h
    simp [ht, hw]
  | cons f rl =>
    have hv := h.1
    simp [hv]

end Merge

end NtfsPlus.Libntfs
