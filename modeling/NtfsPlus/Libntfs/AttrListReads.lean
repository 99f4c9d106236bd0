import NtfsPlus.Libntfs.AttrList
import NtfsPlus.Libntfs.MftRecordCheck

/-!
# What a search through an attribute list reads

`ntfs_external_attr_find` again, now for every search key (enumeration, a search
for any name, both cases, with a value or without) and every state of the search
context, with the bytes of the list that it reads.  What the records give is
left open: looking through a record reads nothing of the list but the entry.

Every entry is checked before it is read, with its name, so the walk keeps to
the list except in two places: the first call of an enumeration reads the type
of the first entry of a list of any size, and the peek at the next entry reads
its lowest VCN and its name after testing for seven bytes and its length only.

`ntfs_attrlist_need` walks over the same entries and checks none of them: an
entry of length zero is looked at for ever, and the last one need not be whole
(`attrlistNeed_safe_iff`).
-/

namespace NtfsPlus.Libntfs

open SignedBytes

section Model

/-- `AT_UNUSED` asks for an enumeration. -/
def atUnused : Nat := 0

/-- The `name` argument: `NULL`, `AT_UNNAMED` or a name. -/
inductive SearchName where
  | any
  | unnamed
  | named (name : List UInt16)
deriving DecidableEq, Repr

/-- The search key; `hasValue` says whether a value is searched for. -/
structure ListSearch where
  type : Nat
  name : SearchName
  ignoreCase : Bool
  lowestVcn : Int
  hasValue : Bool

/-- `ctx->al_entry` as an offset in the list, and `ctx->is_first`. -/
structure ListContext where
  alEntry : Option Nat
  isFirst : Bool

/-- How the search ends; `attributeList` is the detour to the list's own attribute. -/
inductive ListFind where
  | inRecords (r : FindResult)
  | attributeList
  | invalid
deriving DecidableEq, Repr

/-- What the record of an entry leads to: the end of the search, or the next entry. -/
inductive EntryVerdict (σ : Type) where
  | stop (r : FindResult)
  | goOn (ni : σ)

/-- Where the entry stands to the key. -/
def entryAgainst (up : Upcase) (al : Bytes) (k : ListSearch) (pos : Nat) : Ordering :=
  if le32 al pos > k.type then
    .gt
  else if k.type ≠ le32 al pos then
    .lt
  else
    match k.name with
    | .any => .eq
    | .unnamed => if entryNameLength al pos ≠ 0 then .gt else .eq
    | .named name =>
      let rc := namesFullCollate (bytesOf (nameBytes name)) name.length
        (entryName al pos) (entryNameLength al pos) k.ignoreCase up
      if rc ≠ 0 then
        if rc < 0 then .gt else .lt
      else
        .eq

/-- Where the name of an entry starts. -/
def entryNameAt (al : Bytes) (pos : Nat) : Nat :=
  pos + (al (pos + 7)).toNat

/-- What `ntfs_ucsncmp` reads of the string at `base`. -/
def ucsncmpReads (s1 s2 : Bytes) (base : Nat) : Nat → Nat → Reads
  | 0, _ => []
  | n + 1, i =>
    (base + 2 * i, 2) ::
      if nameChar s1 i ≠ nameChar s2 i ∨ nameChar s1 i = 0 then []
      else ucsncmpReads s1 s2 base n (i + 1)

/-- What comparing the names of two entries reads of the one whose name lies at `base`. -/
def nameReads (al : Bytes) (pos next base : Nat) : Reads :=
  ucsncmpReads (entryName al next) (entryName al pos) base (entryNameLength al pos) 0

/-- The test whether the next entry still fits, with its reads in order. -/
def peekNext (al : Bytes) (alEnd : Nat) (lowestVcn : Int) (pos next : Nat) : Bool × Reads :=
  if lowestVcn = 0 ∨ alEnd ≤ next + 6 then
    (false, [])
  else if alEnd < next + entryLength al next then
    (false, [(next + 4, 2)])
  else if lowestVcn < s64 (le64 al (next + 8)) then
    (false, [(next + 4, 2), (next + 8, 8)])
  else if le32 al next ≠ le32 al pos then
    (false, [(next + 4, 2), (next + 8, 8), (next, 4), (pos, 4)])
  else if entryNameLength al next ≠ entryNameLength al pos then
    (false, [(next + 4, 2), (next + 8, 8), (next, 4), (pos, 4), (next + 6, 1)])
  else
    (namesAreEqual (entryName al next) (entryNameLength al next)
        (entryName al pos) (entryNameLength al pos),
      [(next + 4, 2), (next + 8, 8), (next, 4), (pos, 4), (next + 6, 1), (next + 7, 1)] ++
        nameReads al pos next (entryNameAt al next) ++ nameReads al pos next (entryNameAt al pos))

/-- How far an entry of the walk is looked at. -/
inductive EntryStage where
  | refused
  | passed
  | peeked
deriving DecidableEq, Repr

/-- An entry of the walk. -/
structure ListVisit where
  pos : Nat
  stage : EntryStage
deriving DecidableEq, Repr

/--
What is read at an entry.  The fixed part and the name are counted as read in
whole once the checks let the search look at them.
-/
def visitReads (al : Bytes) (alEnd : Nat) (k : ListSearch) (v : ListVisit) : Reads :=
  let name : Reads :=
    if entryNameLength al v.pos = 0 then []
    else [(entryNameAt al v.pos, 2 * entryNameLength al v.pos)]
  match v.stage with
  | .refused => [(v.pos, 26)]
  | .passed => (v.pos, 26) :: name
  | .peeked =>
    (v.pos, 26) :: name ++ (peekNext al alEnd k.lowestVcn v.pos (v.pos + entryLength al v.pos)).2

variable {σ : Type}

/-- One entry that the checks let pass; `record` is the part from `is_enumeration` on. -/
def entryStep (up : Upcase) (al : Bytes) (alEnd : Nat) (k : ListSearch)
    (record : Nat → σ → EntryVerdict σ) (pos : Nat) (ni : σ) : EntryStage × EntryVerdict σ :=
  if k.type = atUnused then
    (.passed, record pos ni)
  else
    match entryAgainst up al k pos with
    | .gt => (.passed, .stop .notFound)
    | .lt => (.passed, .goOn ni)
    | .eq =>
      if (peekNext al alEnd k.lowestVcn pos (pos + entryLength al pos)).1 then
        (.peeked, .goOn ni)
      else
        (.peeked, record pos ni)

/-- The walk behind an entry. -/
def afterEntry (pos : Nat) (walk : σ → FindResult × List ListVisit) :
    EntryStage × EntryVerdict σ → FindResult × List ListVisit
  | (stage, .stop r) => (r, [⟨pos, stage⟩])
  | (stage, .goOn ni) => ((walk ni).1, ⟨pos, stage⟩ :: (walk ni).2)

/-- The loop over the entries, with the entries it looks at. -/
def listWalk (up : Upcase) (al : Bytes) (alEnd : Nat) (k : ListSearch)
    (record : Nat → σ → EntryVerdict σ) : Nat → Nat → σ → FindResult × List ListVisit
  | 0, _, _ => (.corrupt, [])
  | fuel + 1, pos, ni =>
    if pos > alEnd then
      (.corrupt, [])
    else if pos = alEnd then
      (.notFound, [])
    else if pos + 26 > alEnd then
      (.corrupt, [])
    else if entryBad al alEnd pos then
      (.corrupt, [⟨pos, .refused⟩])
    else
      afterEntry pos (listWalk up al alEnd k record fuel (pos + entryLength al pos))
        (entryStep up al alEnd k record pos ni)

/-- Where the walk starts. -/
inductive ListStart where
  | done (r : ListFind)
  | walk (pos : Nat)
deriving DecidableEq, Repr

/-- From `find_attr_list_attr` on: a key that is more than an enumeration is refused. -/
def findAttrListAttr (k : ListSearch) : ListFind :=
  if k.name ≠ .any ∨ k.hasValue ∨ k.lowestVcn ≠ 0 then .invalid else .attributeList

/-- The part in front of the loop, with what it reads. -/
def listStart (al : Bytes) (alEnd : Nat) (k : ListSearch) (ctx : ListContext) : ListStart × Reads :=
  let pos := ctx.alEntry.getD 0
  if ctx.isFirst then
    if k.type = atUnused ∧ ctx.alEntry = none then
      (if le32 al pos > atAttributeList then .done (findAttrListAttr k) else .walk pos, [(pos, 4)])
    else
      (.walk pos, [])
  else if alEnd < pos + 26 then
    (.done (.inRecords .corrupt), [])
  else if entryLength al pos % 8 ≠ 0 ∨ entryLength al pos < 26 then
    (.done (.inRecords .corrupt), [(pos, 26)])
  else
    let next := pos + entryLength al pos
    if next = alEnd then
      (.done (.inRecords .notFound), [(pos, 26)])
    else if alEnd < next + 26 then
      (.done (.inRecords .corrupt), [(pos, 26)])
    else if k.type = atUnused ∧ le32 al pos < atAttributeList ∧ le32 al next > atAttributeList then
      (.done (findAttrListAttr k), [(pos, 26), (next, 4)])
    else
      (.walk next, [(pos, 26), (next, 4)])

/-- The result of a search, the bytes read in front of the loop and the entries of the walk. -/
structure ListTrace where
  result : ListFind
  startReads : Reads
  visits : List ListVisit

/-- `ntfs_external_attr_find` in a list of `alSize` bytes. -/
def externalAttrFindFrom (up : Upcase) (al : Bytes) (alSize : Nat) (k : ListSearch)
    (record : Nat → σ → EntryVerdict σ) (ctx : ListContext) (ni : σ) : ListTrace :=
  if k.type = atEnd then
    ⟨.inRecords .notFound, [], []⟩
  else
    match listStart al alSize k ctx with
    | (.done r, reads) => ⟨r, reads, []⟩
    | (.walk pos, reads) =>
      let walk := listWalk up al alSize k record (alSize + 1) pos ni
      ⟨.inRecords walk.1, reads, walk.2⟩

end Model

section Safety

/-- The bytes lie in the list. -/
def InList (alSize : Nat) (r : Nat × Nat) : Prop :=
  r.1 + r.2 ≤ alSize

instance (alSize : Nat) (r : Nat × Nat) : Decidable (InList alSize r) :=
  inferInstanceAs (Decidable (_ ≤ _))

/-- Every byte of the list that the search reads lies in the list. -/
structure ReadsInList (al : Bytes) (alSize : Nat) (k : ListSearch) (t : ListTrace) : Prop where
  start : ∀ r ∈ t.startReads, InList alSize r
  walk : ∀ v ∈ t.visits, ∀ r ∈ visitReads al alSize k v, InList alSize r

/--
A peek at `next` keeps to the list: if its seven bytes and its length pass, then
its lowest VCN lies in the list, and so does each character of its name that is
compared.
-/
def PeekInList (al : Bytes) (alSize : Nat) (lowestVcn : Int) (pos next : Nat) : Prop :=
  lowestVcn ≠ 0 → next + 6 < alSize → next + entryLength al next ≤ alSize →
    next + 16 ≤ alSize ∧ (s64 (le64 al (next + 8)) ≤ lowestVcn → le32 al next = le32 al pos →
        entryNameLength al next = entryNameLength al pos →
          ∀ r ∈ nameReads al pos next (entryNameAt al next), InList alSize r)

variable {σ : Type}

/-- The walk comes from the first entry to the second one; the inodes are those it has then. -/
inductive ListReaches (up : Upcase) (al : Bytes) (alEnd : Nat) (k : ListSearch)
    (record : Nat → σ → EntryVerdict σ) : Nat → σ → Nat → σ → Prop
  | here (pos : Nat) (ni : σ) : ListReaches up al alEnd k record pos ni pos ni
  | next {pos q : Nat} {ni ni' nq : σ} (hin : pos + 26 ≤ alEnd)
      (hgood : entryBad al alEnd pos = false)
      (hstep : (entryStep up al alEnd k record pos ni).2 = .goOn ni')
      (hrest : ListReaches up al alEnd k record (pos + entryLength al pos) ni' q nq) :
      ListReaches up al alEnd k record pos ni q nq

/-- At an entry that passes the checks and matches the key the next one is peeked at. -/
def PeeksAt (up : Upcase) (al : Bytes) (alEnd : Nat) (k : ListSearch) (pos : Nat) : Prop :=
  pos + 26 ≤ alEnd ∧ entryBad al alEnd pos = false ∧ k.type ≠ atUnused ∧
    entryAgainst up al k pos = .eq

/-- The list is long enough for the first call of an enumeration, and every peek keeps to it. -/
def SearchKeepsToList (up : Upcase) (al : Bytes) (alSize : Nat) (k : ListSearch)
    (record : Nat → σ → EntryVerdict σ) (ctx : ListContext) (ni : σ) : Prop :=
  (k.type = atUnused → ctx.isFirst → ctx.alEntry = none → 4 ≤ alSize) ∧
    ∀ pos q nq, k.type ≠ atEnd → (listStart al alSize k ctx).1 = .walk pos →
      ListReaches up al alSize k record pos ni q nq → PeeksAt up al alSize k q →
      PeekInList al alSize k.lowestVcn q (q + entryLength al q)

end Safety

section Peek

variable {al : Bytes} {alSize : Nat}

/-- A comparison of names reads characters only. -/
theorem mem_ucsncmpReads
    {s1 s2 : Bytes} {base n i : Nat} {r : Nat × Nat}
    (h : r ∈ ucsncmpReads s1 s2 base n i) :
    ∃ j, j < i + n ∧ r = (base + 2 * j, 2) := by
  induction n generalizing i with
  | zero => exact absurd h List.not_mem_nil
  | succ n ih =>
    rcases List.mem_cons.mp h with rfl | h
    · exact ⟨i, by omega, rfl⟩
    · split_ifs at h with hstop
      · exact absurd h List.not_mem_nil
      · obtain ⟨j, hj, hr⟩ := ih h
        exact ⟨j, by omega, hr⟩

/-- Of the entry's own name nothing behind its end is read. -/
theorem nameReads_own
    {pos next : Nat} {r : Nat × Nat}
    (hname : entryNameLength al pos ≠ 0 → entryNameAt al pos + 2 * entryNameLength al pos ≤ alSize)
    (h : r ∈ nameReads al pos next (entryNameAt al pos)) :
    InList alSize r := by
  obtain ⟨j, hj, rfl⟩ := mem_ucsncmpReads h
  unfold InList
  omega

/-- The reads of a peek lie in the list exactly when the peek keeps to it. -/
theorem peekNext_inList_iff
    (lowestVcn : Int)
    {pos : Nat}
    (next : Nat)
    (hpos : pos + 26 ≤ alSize)
    (hname : entryNameLength al pos ≠ 0 →
      entryNameAt al pos + 2 * entryNameLength al pos ≤ alSize) :
    (∀ r ∈ (peekNext al alSize lowestVcn pos next).2, InList alSize r) ↔
      PeekInList al alSize lowestVcn pos next := by
  unfold peekNext PeekInList
  by_cases hstart : lowestVcn = 0 ∨ alSize ≤ next + 6
  · rw [if_pos hstart]
    refine ⟨fun _ hvcn hseven => ?_, fun _ r hr => absurd hr List.not_mem_nil⟩
    rcases hstart with hzero | hshort
    · exact absurd hzero hvcn
    · omega
  rw [if_neg hstart]
  obtain ⟨hvcn, hseven⟩ := not_or.mp hstart
  by_cases hlen : alSize < next + entryLength al next
  · rw [if_pos hlen]
    simp only [InList, List.mem_singleton, forall_eq]
    omega
  rw [if_neg hlen]
  by_cases hlow : lowestVcn < s64 (le64 al (next + 8))
  · rw [if_pos hlow]
    simp only [InList, List.forall_mem_cons]
    constructor
    · intro h _ _ _
      exact ⟨by omega, fun hle => absurd hlow (by omega)⟩
    · intro h
      exact ⟨by omega, by omega, by simp⟩
  rw [if_neg hlow]
  by_cases htype : le32 al next ≠ le32 al pos
  · rw [if_pos htype]
    simp only [InList, List.forall_mem_cons]
    constructor
    · intro h _ _ _
      exact ⟨by omega, fun _ heq => absurd heq htype⟩
    · intro h
      exact ⟨by omega, by omega, by omega, by omega, by simp⟩
  rw [if_neg htype]
  by_cases hnameLen : entryNameLength al next ≠ entryNameLength al pos
  · rw [if_pos hnameLen]
    simp only [InList, List.forall_mem_cons]
    constructor
    · intro h _ _ _
      exact ⟨by omega, fun _ _ heq => absurd heq hnameLen⟩
    · intro h
      exact ⟨by omega, by omega, by omega, by omega, by omega, by simp⟩
  rw [if_neg hnameLen]
  simp only [List.forall_mem_append, List.forall_mem_cons]
  constructor
  · intro h _ _ _
    obtain ⟨⟨⟨_, hvcnRead, _⟩, hnext⟩, _⟩ := h
    unfold InList at hvcnRead
    exact ⟨by omega, fun _ _ _ => hnext⟩
  · intro h
    obtain ⟨hsixteen, hnext⟩ := h hvcn (by omega) (by omega)
    refine ⟨⟨?_, hnext (by omega) (by omega) (by omega)⟩, fun r => nameReads_own hname⟩
    unfold InList
    exact ⟨by omega, by omega, by omega, by omega, by omega, by omega, by simp⟩

end Peek

section Walk

variable {up : Upcase} {al : Bytes} {alEnd : Nat} {k : ListSearch}
variable {σ : Type} {record : Nat → σ → EntryVerdict σ}

/-- What the checks of the loop guarantee of an entry it looks at. -/
structure VisitChecked (al : Bytes) (alEnd : Nat) (v : ListVisit) : Prop where
  fixed : v.pos + 26 ≤ alEnd
  name : v.stage ≠ .refused → entryNameLength al v.pos ≠ 0 →
    entryNameAt al v.pos + 2 * entryNameLength al v.pos ≤ alEnd

variable {pos fuel : Nat} {v : ListVisit}

/-- An entry that passes moves the walk on and has its name in the list. -/
theorem entryBad_false
    (h : ¬entryBad al alEnd pos = true) :
    0 < entryLength al pos ∧ (entryNameLength al pos ≠ 0 →
        entryNameAt al pos + 2 * entryNameLength al pos ≤ alEnd) := by
  simp only [entryBad, Bool.or_eq_true, decide_eq_true_eq, not_or] at h
  obtain ⟨⟨⟨⟨_, _⟩, _⟩, hsix⟩, hname⟩ := h
  refine ⟨by omega, fun hne => ?_⟩
  by_contra hout
  exact hname ⟨hne, Nat.lt_of_not_le hout⟩

/-- Every entry that is looked at has passed the checks. -/
theorem listWalk_checked
    {ni : σ}
    (hv : v ∈ (listWalk up al alEnd k record fuel pos ni).2) :
    VisitChecked al alEnd v := by
  induction fuel generalizing pos ni with
  | zero => exact absurd hv List.not_mem_nil
  | succ fuel ih =>
    rw [listWalk] at hv
    split_ifs at hv with hbehind hend hfixed hbad
    · exact absurd hv List.not_mem_nil
    · exact absurd hv List.not_mem_nil
    · exact absurd hv List.not_mem_nil
    · obtain rfl := List.mem_singleton.mp hv
      exact ⟨Nat.le_of_not_lt hfixed, fun h => absurd rfl h⟩
    · revert hv
      generalize entryStep up al alEnd k record pos ni = step
      obtain ⟨stage, verdict⟩ := step
      intro hv
      have hhere : VisitChecked al alEnd ⟨pos, stage⟩ :=
        ⟨Nat.le_of_not_lt hfixed, fun _ => (entryBad_false hbad).2⟩
      cases verdict with
      | stop r =>
        obtain rfl := List.mem_singleton.mp hv
        exact hhere
      | goOn ni' =>
        rcases List.mem_cons.mp hv with rfl | hv
        · exact hhere
        · exact ih hv

/-- The peek is made at entries that match the key. -/
theorem entryStep_peeked
    (ni : σ) :
    (entryStep up al alEnd k record pos ni).1 = .peeked ↔
      k.type ≠ atUnused ∧ entryAgainst up al k pos = .eq := by
  unfold entryStep
  by_cases henum : k.type = atUnused
  · simp [henum]
  · rw [if_neg henum]
    cases entryAgainst up al k pos with
    | lt => simp
    | gt => simp
    | eq =>
      dsimp only
      split_ifs <;> simp [henum]

/-- What holds at every entry that the walk comes to holds here and at those behind. -/
theorem listReaches_forall_iff
    {P : Nat → Prop} {ni : σ}
    (hin : pos + 26 ≤ alEnd)
    (hgood : entryBad al alEnd pos = false) :
    (∀ q nq, ListReaches up al alEnd k record pos ni q nq → P q) ↔
      P pos ∧ ∀ ni', (entryStep up al alEnd k record pos ni).2 = .goOn ni' →
        ∀ q nq, ListReaches up al alEnd k record (pos + entryLength al pos) ni' q nq → P q := by
  constructor
  · intro h
    exact ⟨h pos ni (.here pos ni), fun ni' hstep q nq hq => h q nq (.next hin hgood hstep hq)⟩
  · rintro ⟨hhere, hbehind⟩ q nq hq
    cases hq with
    | here => exact hhere
    | next _ _ hstep hrest => exact hbehind _ hstep q nq hrest

/-- The entries with a peek are those that the walk comes to and that match the key. -/
theorem listWalk_peeked_iff
    {P : Nat → Prop} {ni : σ}
    (hfuel : alEnd < pos + fuel) :
    (∀ v ∈ (listWalk up al alEnd k record fuel pos ni).2, v.stage = .peeked → P v.pos) ↔
      ∀ q nq, ListReaches up al alEnd k record pos ni q nq → PeeksAt up al alEnd k q → P q := by
  induction fuel generalizing pos ni with
  | zero =>
    refine iff_of_true (fun v hv => absurd hv List.not_mem_nil) fun q nq hq hpeek => ?_
    cases hq with
    | here => exact absurd hpeek.1 (by omega)
    | next hin => omega
  | succ fuel ih =>
    rw [listWalk]
    -- the walk ends at an entry that the checks refuse
    have hstop : ¬(pos + 26 ≤ alEnd ∧ entryBad al alEnd pos = false) → ∀ q nq,
        ListReaches up al alEnd k record pos ni q nq → PeeksAt up al alEnd k q → P q := by
      intro hno q nq hq hpeek
      cases hq with
      | here => exact absurd ⟨hpeek.1, hpeek.2.1⟩ hno
      | next hin hgood => exact absurd ⟨hin, hgood⟩ hno
    split_ifs with hbehind hend hfixed hbad
    · exact iff_of_true (by simp) (hstop (by omega))
    · exact iff_of_true (by simp) (hstop (by omega))
    · exact iff_of_true (by simp) (hstop (by omega))
    · exact iff_of_true (by simp) (hstop (by simp [hbad]))
    · have hin : pos + 26 ≤ alEnd := Nat.le_of_not_lt hfixed
      have hgood : entryBad al alEnd pos = false := by simpa using hbad
      have hmoves := (entryBad_false hbad).1
      have hhere : PeeksAt up al alEnd k pos ↔
          (entryStep up al alEnd k record pos ni).1 = .peeked := by
        rw [entryStep_peeked, PeeksAt, and_iff_right hin, and_iff_right hgood]
      rw [@listReaches_forall_iff _ _ _ _ _ _ _ (fun q => PeeksAt up al alEnd k q → P q) ni
        hin hgood, hhere]
      generalize entryStep up al alEnd k record pos ni = step
      obtain ⟨stage, verdict⟩ := step
      cases verdict with
      | stop r => simp [afterEntry]
      | goOn ni' =>
        simp only [afterEntry, List.forall_mem_cons]
        rw [ih (by omega)]
        simp

/-- Every step moves, so one step for each byte that is left is enough. -/
theorem listWalk_fuel
    {ni : σ}
    (hfuel : alEnd < pos + fuel)
    (extra : Nat) :
    listWalk up al alEnd k record (fuel + extra) pos ni =
      listWalk up al alEnd k record fuel pos ni := by
  induction fuel generalizing pos ni with
  | zero =>
    cases extra with
    | zero => rfl
    | succ extra => rw [Nat.zero_add, listWalk, listWalk, if_pos (by omega)]
  | succ fuel ih =>
    rw [Nat.add_right_comm, listWalk, listWalk]
    by_cases hbad : entryBad al alEnd pos = true
    · rw [if_pos hbad, if_pos hbad]
    · have hmoves := (entryBad_false hbad).1
      have hwalk : listWalk up al alEnd k record (fuel + extra) (pos + entryLength al pos) =
          listWalk up al alEnd k record fuel (pos + entryLength al pos) := by
        funext ni
        exact ih (by omega)
      rw [hwalk]

/-- The reads at an entry of the walk lie in the list exactly when its peek keeps to it. -/
theorem visitReads_inList_iff
    (hv : VisitChecked al alEnd v) :
    (∀ r ∈ visitReads al alEnd k v, InList alEnd r) ↔ (v.stage = .peeked →
        PeekInList al alEnd k.lowestVcn v.pos (v.pos + entryLength al v.pos)) := by
  have hfixed : InList alEnd (v.pos, 26) := hv.fixed
  have hname : v.stage ≠ .refused → ∀ r ∈ (if entryNameLength al v.pos = 0 then []
        else [(entryNameAt al v.pos, 2 * entryNameLength al v.pos)] : Reads), InList alEnd r := by
    intro hstage r hr
    split_ifs at hr with hnone
    · exact absurd hr List.not_mem_nil
    · obtain rfl := List.mem_singleton.mp hr
      exact hv.name hstage hnone
  unfold visitReads
  cases hstage : v.stage with
  | refused => simp [hfixed]
  | passed =>
    simp only [List.forall_mem_cons]
    exact ⟨fun _ h => absurd h (by decide), fun _ => ⟨hfixed, hname (by simp [hstage])⟩⟩
  | peeked =>
    have hpeek := peekNext_inList_iff k.lowestVcn (v.pos + entryLength al v.pos) hv.fixed
      (hv.name (by simp [hstage]))
    simp only [List.cons_append, List.forall_mem_cons, List.forall_mem_append]
    rw [hpeek]
    exact ⟨fun h _ => h.2.2, fun h => ⟨hfixed, hname (by simp [hstage]), h trivial⟩⟩

/-- In front of the loop only the first call of an enumeration reads without a check. -/
theorem listStart_inList_iff
    (al : Bytes)
    (alEnd : Nat)
    (k : ListSearch)
    (ctx : ListContext) :
    (∀ r ∈ (listStart al alEnd k ctx).2, InList alEnd r) ↔
      (k.type = atUnused → ctx.isFirst → ctx.alEntry = none → 4 ≤ alEnd) := by
  unfold listStart
  by_cases hfirst : ctx.isFirst = true
  · rw [if_pos hfirst]
    by_cases henum : k.type = atUnused ∧ ctx.alEntry = none
    · simp [InList, henum, hfirst]
    · rw [if_neg henum]
      exact ⟨fun _ htype _ hnone => absurd ⟨htype, hnone⟩ henum,
        fun _ r hr => absurd hr List.not_mem_nil⟩
  · refine ⟨fun _ _ h => absurd h hfirst, fun _ => ?_⟩
    dsimp only
    split_ifs <;> simp [InList] <;> omega

end Walk

section Results

variable {σ : Type}

/--
A search reads inside the attribute list only exactly when a first enumeration
finds four bytes in it and every peek at a next entry keeps to it.
-/
theorem externalAttrFindFrom_readsInList_iff
    (up : Upcase)
    (al : Bytes)
    (alSize : Nat)
    (k : ListSearch)
    (record : Nat → σ → EntryVerdict σ)
    (ctx : ListContext)
    (ni : σ) :
    ReadsInList al alSize k (externalAttrFindFrom up al alSize k record ctx ni) ↔
      SearchKeepsToList up al alSize k record ctx ni := by
  have hstart := listStart_inList_iff al alSize k ctx
  unfold externalAttrFindFrom SearchKeepsToList
  split_ifs with hend
  · refine ⟨fun _ => ⟨fun htype => ?_, fun _ _ _ hne => absurd hend hne⟩,
      fun _ => ⟨fun r hr => absurd hr List.not_mem_nil, fun v hv => absurd hv List.not_mem_nil⟩⟩
    rw [hend] at htype
    cases htype
  · revert hstart
    generalize listStart al alSize k ctx = start
    obtain ⟨start, reads⟩ := start
    intro hstart
    cases start with
    | done r =>
      exact ⟨fun h => ⟨hstart.mp h.start, fun pos q nq _ hwalk => by cases hwalk⟩,
        fun h => ⟨hstart.mpr h.1, fun v hv => absurd hv List.not_mem_nil⟩⟩
    | walk pos =>
      have hpeeked := @listWalk_peeked_iff up al alSize k σ record pos (alSize + 1)
        (fun q => PeekInList al alSize k.lowestVcn q (q + entryLength al q)) ni (by omega)
      constructor
      · intro h
        refine ⟨hstart.mp h.start, fun pos' q nq _ hwalk => ?_⟩
        cases hwalk
        refine hpeeked.mp (fun v hv => ?_) q nq
        exact (visitReads_inList_iff (listWalk_checked hv)).mp (h.walk v hv)
      · intro h
        refine ⟨hstart.mpr h.1, fun v hv => ?_⟩
        refine (visitReads_inList_iff (listWalk_checked hv)).mpr (hpeeked.mpr (fun q nq => ?_) v hv)
        exact h.2 pos q nq hend rfl

/-- An entry of 32 bytes for the unnamed data, and eight bytes that look like a next entry. -/
def truncatedList : Bytes :=
  patches (fun _ => 0) 0 [(0, leBytes 4 0x80), (4, leBytes 2 32), (7, [26]),
    (32, leBytes 4 0x80), (36, leBytes 2 8)]

/-- The unnamed data from VCN 1 on. -/
def dataFromOne : ListSearch :=
  ⟨0x80, .unnamed, false, 1, false⟩

/-- The lowest VCN of the next entry is read behind a list of 40 bytes. -/
theorem externalAttrFindFrom_reads_behind_list :
    ¬ ReadsInList truncatedList 40 dataFromOne
      (externalAttrFindFrom ⟨fun c => c, 0⟩ truncatedList 40 dataFromOne
        (fun _ _ => .stop .corrupt) ⟨none, true⟩ ()) := by
  intro h
  have hvisit : ∃ v ∈ (externalAttrFindFrom ⟨fun c => c, 0⟩ truncatedList 40 dataFromOne
      (fun _ _ => .stop .corrupt) ⟨none, true⟩ ()).visits,
      ∃ r ∈ visitReads truncatedList 40 dataFromOne v, ¬InList 40 r := by
    decide +kernel
  obtain ⟨v, hv, r, hr, hout⟩ := hvisit
  exact hout (h.walk v hv r hr)

theorem listWalk_fuel_truncated :
    listWalk ⟨fun c => c, 0⟩ truncatedList 40 dataFromOne (fun _ _ => .stop .corrupt) 42 0 () =
      listWalk ⟨fun c => c, 0⟩ truncatedList 40 dataFromOne (fun _ _ => .stop .corrupt) 41 0 () :=
  listWalk_fuel (by decide) 1

end Results

section Need

variable {al : Bytes} {alSize mftNo fuel pos q : Nat}

/-- The entry at `pos` refers to the record of the inode. -/
def InOwnRecord (al : Bytes) (mftNo pos : Nat) : Prop :=
  le64 al (pos + 16) % 2 ^ 48 = mftNo

instance : Decidable (InOwnRecord al mftNo pos) :=
  inferInstanceAs (Decidable (_ = _))

/-- The loop of `ntfs_attrlist_need`: whether the list is needed, and what is read. -/
def attrlistNeed (al : Bytes) (alSize mftNo : Nat) : Nat → Nat → Option (Bool × Reads)
  | 0, _ => none
  | fuel + 1, pos =>
    if pos < alSize then
      if InOwnRecord al mftNo pos then
        (attrlistNeed al alSize mftNo fuel (pos + entryLength al pos)).map fun r =>
          (r.1, (pos + 16, 8) :: (pos + 4, 2) :: r.2)
      else
        some (true, [(pos + 16, 8)])
    else
      some (false, [])

/-- The walk from the first position comes to the second one. -/
inductive NeedReaches (al : Bytes) (alSize mftNo : Nat) : Nat → Nat → Prop
  | here (pos : Nat) : NeedReaches al alSize mftNo pos pos
  | next {pos q : Nat} (hin : pos < alSize) (hown : InOwnRecord al mftNo pos)
      (hrest : NeedReaches al alSize mftNo (pos + entryLength al pos) q) :
      NeedReaches al alSize mftNo pos q

/-- An entry whose reference lies in the list and which, unless the walk ends there, moves on. -/
def NeedsNoCheck (al : Bytes) (alSize mftNo pos : Nat) : Prop :=
  pos + 24 ≤ alSize ∧ (InOwnRecord al mftNo pos → entryLength al pos ≠ 0)

/-- The walk ends and reads in the list only. -/
def NeedSafe (al : Bytes) (alSize mftNo pos : Nat) : Prop :=
  ∃ fuel r, attrlistNeed al alSize mftNo fuel pos = some r ∧ ∀ x ∈ r.2, InList alSize x

/-- An entry of length zero is looked at for ever. -/
theorem attrlistNeed_endless
    (hin : pos < alSize)
    (hown : InOwnRecord al mftNo pos)
    (hzero : entryLength al pos = 0) :
    attrlistNeed al alSize mftNo fuel pos = none := by
  induction fuel with
  | zero => rfl
  | succ fuel ih =>
    rw [attrlistNeed, if_pos hin, if_pos hown, hzero, Nat.add_zero pos, ih]
    rfl

/-- A safe walk has its first entry in the list, and goes on safely. -/
theorem NeedSafe.step
    (h : NeedSafe al alSize mftNo pos)
    (hin : pos < alSize) :
    NeedsNoCheck al alSize mftNo pos ∧
      (InOwnRecord al mftNo pos → NeedSafe al alSize mftNo (pos + entryLength al pos)) := by
  obtain ⟨fuel, r, hr, hreads⟩ := h
  cases fuel with
  | zero => cases hr
  | succ fuel =>
    by_cases hown : InOwnRecord al mftNo pos
    · have hmoves : entryLength al pos ≠ 0 := by
        intro hzero
        rw [attrlistNeed_endless hin hown hzero] at hr
        cases hr
      rw [attrlistNeed, if_pos hin, if_pos hown] at hr
      obtain ⟨s, hs, rfl⟩ := Option.map_eq_some_iff.mp hr
      have href : pos + 16 + 8 ≤ alSize := hreads _ List.mem_cons_self
      refine ⟨⟨href, fun _ => hmoves⟩, fun _ => ⟨fuel, s, hs, fun x hx => ?_⟩⟩
      exact hreads x (List.mem_cons_of_mem _ (List.mem_cons_of_mem _ hx))
    · rw [attrlistNeed, if_pos hin, if_neg hown] at hr
      cases hr
      have href : pos + 16 + 8 ≤ alSize := hreads _ List.mem_cons_self
      exact ⟨⟨href, fun h => absurd h hown⟩, fun h => absurd h hown⟩

/-- A safe walk has a reference and a length at every entry it comes to. -/
theorem NeedSafe.reached
    (hreach : NeedReaches al alSize mftNo pos q)
    (h : NeedSafe al alSize mftNo pos)
    (hin : q < alSize) :
    NeedsNoCheck al alSize mftNo q := by
  induction hreach with
  | here pos => exact (h.step hin).1
  | next hpos hown _ ih => exact ih ((h.step hpos).2 hown) hin

/-- A walk over such entries is safe. -/
theorem needSafe_of_reached
    (hfuel : alSize < pos + fuel)
    (h : ∀ q, NeedReaches al alSize mftNo pos q → q < alSize → NeedsNoCheck al alSize mftNo q) :
    NeedSafe al alSize mftNo pos := by
  induction fuel generalizing pos with
  | zero =>
    refine ⟨1, (false, []), ?_, fun x hx => absurd hx List.not_mem_nil⟩
    rw [attrlistNeed, if_neg (by omega)]
  | succ fuel ih =>
    by_cases hin : pos < alSize
    · obtain ⟨href, hmoves⟩ := h pos (.here pos) hin
      by_cases hown : InOwnRecord al mftNo pos
      · have hne := hmoves hown
        obtain ⟨n, r, hr, hreads⟩ := ih (by omega) (fun q hq => h q (.next hin hown hq))
        refine ⟨n + 1, _, by rw [attrlistNeed, if_pos hin, if_pos hown, hr]; rfl, ?_⟩
        intro x hx
        rcases List.mem_cons.mp hx with rfl | hx
        · exact href
        rcases List.mem_cons.mp hx with rfl | hx
        · exact Nat.le_trans (by dsimp only; omega) href
        · exact hreads x hx
      · refine ⟨1, (true, [(pos + 16, 8)]), by rw [attrlistNeed, if_pos hin, if_neg hown], ?_⟩
        intro x hx
        rw [List.mem_singleton.mp hx]
        exact href
    · refine ⟨1, (false, []), by rw [attrlistNeed, if_neg hin], ?_⟩
      exact fun x hx => absurd hx List.not_mem_nil

/--
`ntfs_attrlist_need` ends and reads in the list only if and only if every entry that it
comes to has its reference in the list and, if it belongs to the inode's own record, a
length other than zero.
-/
theorem attrlistNeed_safe_iff
    (al : Bytes)
    (alSize mftNo : Nat) :
    NeedSafe al alSize mftNo 0 ↔
      ∀ q, NeedReaches al alSize mftNo 0 q → q < alSize → NeedsNoCheck al alSize mftNo q :=
  ⟨fun h _ hq hin => h.reached hq hin,
    needSafe_of_reached (show alSize < 0 + (alSize + 1) by omega)⟩

/-- In a list of 32 bytes, an entry of record 5 without a length is looked at for ever. -/
theorem attrlistNeed_zero_length :
    (∀ fuel, attrlistNeed (setByte (fun _ => 0) 16 5) 32 5 fuel 0 = none) ∧
      ¬NeedSafe (setByte (fun _ => 0) 16 5) 32 5 0 := by
  have hnone : ∀ fuel, attrlistNeed (setByte (fun _ => 0) 16 5) 32 5 fuel 0 = none :=
    fun fuel => attrlistNeed_endless (by decide) (by decide) (by decide)
  refine ⟨hnone, ?_⟩
  rintro ⟨fuel, r, hr, -⟩
  rw [hnone] at hr
  cases hr

end Need

end NtfsPlus.Libntfs
