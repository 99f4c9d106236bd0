import NtfsPlus.Libntfs.RunlistBasic

/-!
# Merging runlists

`ntfs_runlists_merge_i` of `libntfs/runlist.c` with its four ways to put a
source runlist into a hole of the destination: append, insert, replace and
split.

An array of runlist elements is the list of its elements.  `splice` is the
`memmove` of the tail followed by the `memcpy` of the source; when that makes
the runlist shorter, the old elements behind its new end are still there, and
the code that fixes the end marker can meet them.  `upToTerminator` is the
runlist value of an array.  Elements behind the end of an array read as
`blank`: after an append the code writes to one such element, and when an
unmapped element of the source takes the place of the terminator, the marker
code reads one.  The allocations are taken to succeed.
-/

namespace NtfsPlus.Libntfs

/-- What stands behind the end of an array. -/
def blank : RunlistElement :=
  ⟨0, 0, 0⟩

/-- The element at an index. -/
def elemAt (rl : Runlist) (i : Nat) : RunlistElement :=
  rl.getD i blank

theorem elemAt_append_left
    {a b : Runlist} {i : Nat}
    (h : i < a.length) :
    elemAt (a ++ b) i = elemAt a i := by
  simp [elemAt, List.getElem?_append_left h]

theorem elemAt_append_right
    {a b : Runlist} {i : Nat}
    (h : a.length ≤ i) :
    elemAt (a ++ b) i = elemAt b (i - a.length) := by
  simp [elemAt, List.getElem?_append_right h]

/-- The runlist value of an array: its elements up to the first of length zero. -/
def upToTerminator : Runlist → Runlist
  | [] => []
  | e :: rest => if e.length = 0 then [e] else e :: upToTerminator rest

/--
Move the elements from `tail` on behind the source runs and copy these in at
`loc`.
-/
def splice (dst : Runlist) (loc tail : Nat) (src : Runlist) : Runlist :=
  let moved := dst.take loc ++ src ++ dst.drop tail
  moved ++ dst.drop moved.length

/-- `__ntfs_rl_merge`. -/
def joinRuns (dst src : RunlistElement) : RunlistElement :=
  { dst with length := dst.length + src.length }

/-- `dst[marker].vcn = dst[marker - 1].vcn + dst[marker - 1].length`. -/
def followPrevious (dst : Runlist) (marker : Nat) : Runlist :=
  let prev := elemAt dst (marker - 1)
  dst.modify marker fun e => { e with vcn := prev.vcn + prev.length }

/-- `dst[loc].length = dst[loc + 1].vcn - dst[loc].vcn`. -/
def reachNext (dst : Runlist) (loc : Nat) : Runlist :=
  let next := elemAt dst (loc + 1)
  dst.modify loc fun e => { e with length := next.vcn - e.vcn }

/-- Merge the right end of the source with the element at `i`, if asked to. -/
def joinRight (src dst : Runlist) (i : Nat) (right : Bool) : Runlist :=
  if right then
    src.modify (src.length - 1) fun e => joinRuns e (elemAt dst i)
  else
    src

/-- Merge the left end of the source into the element at `i`, if asked to. -/
def joinLeft (src dst : Runlist) (i : Nat) (left : Bool) : Runlist :=
  if left then
    dst.modify i fun e => joinRuns e (elemAt src 0)
  else
    dst

/-- Whether the right end of the source merges with the element after `loc`. -/
def mergesRight (dst src : Runlist) (loc : Nat) : Bool :=
  decide (loc + 1 < dst.length) &&
    rlAreMergeable (elemAt src (src.length - 1)) (elemAt dst (loc + 1))

/-- Whether the left end of the source merges with the element before `loc`. -/
def mergesLeft (dst src : Runlist) (loc : Nat) : Bool :=
  decide (0 < loc) && rlAreMergeable (elemAt dst (loc - 1)) (elemAt src 0)

/-- `ntfs_rl_append`: the source goes behind element `loc`. -/
def rlAppend (dst src : Runlist) (loc : Nat) : Runlist :=
  let right := mergesRight dst src loc
  let marker := loc + src.length + 1
  let src := joinRight src dst (loc + 1) right
  let dst := splice dst (loc + 1) (loc + 1 + right.toNat) src
  let dst := reachNext dst loc
  if (elemAt dst marker).lcn = lcnEnoent then
    followPrevious dst marker
  else
    dst

/-- Whether the source starts behind the end of what precedes `loc`. -/
def discontinuity (dst src : Runlist) (loc : Nat) : Bool :=
  if loc = 0 then
    decide ((elemAt src 0).vcn > 0)
  else
    let prev := elemAt dst (loc - 1)
    let mergedLength :=
      if mergesLeft dst src loc then
        prev.length + (elemAt src 0).length
      else
        prev.length
    decide ((elemAt src 0).vcn > prev.vcn + mergedLength)

/-- The unmapped run that fills a discontinuity before element `loc + 1`. -/
def fillGap (dst : Runlist) (loc : Nat) : Runlist :=
  let prev := elemAt dst (loc - 1)
  let vcn := if loc > 0 then prev.vcn + prev.length else 0
  dst.set loc ⟨vcn, lcnRlNotMapped, (elemAt dst (loc + 1)).vcn - vcn⟩

/-- `ntfs_rl_insert`: the source goes before element `loc`. -/
def rlInsert (dst src : Runlist) (loc : Nat) : Runlist :=
  let left := mergesLeft dst src loc
  let disc := discontinuity dst src loc
  let marker := loc + src.length - left.toNat + disc.toNat
  let dst := joinLeft src dst (loc - 1) left
  -- with a gap the slot at `loc` keeps what was there until it is filled
  let gap := if disc then [elemAt dst loc] else []
  let dst := splice dst loc loc (gap ++ src.drop left.toNat)
  let dst := followPrevious dst marker
  let dst :=
    if (elemAt dst marker).lcn = lcnHole ∨
        (elemAt dst marker).lcn = lcnRlNotMapped then
      reachNext dst marker
    else
      dst
  if disc then fillGap dst loc else dst

/-- `ntfs_rl_replace`: the source takes the place of element `loc`. -/
def rlReplace (dst src : Runlist) (loc : Nat) : Runlist :=
  let right := mergesRight dst src loc
  let left := mergesLeft dst src loc
  let dsize := dst.length
  let ssize := src.length
  let src := joinRight src dst (loc + 1) right
  let dst := joinLeft src dst (loc - 1) left
  let tail := loc + right.toNat + 1
  let marker := loc + ssize - left.toNat
  let dst := splice dst loc tail (src.drop left.toNat)
  if dsize > tail ∧ (elemAt dst marker).lcn = lcnEnoent then
    followPrevious dst marker
  else
    dst

/-- `ntfs_rl_split`: the source goes into the middle of element `loc`. -/
def rlSplit (dst src : Runlist) (loc : Nat) : Runlist :=
  let ssize := src.length
  let dst := splice dst (loc + 1) loc src
  let dst := reachNext dst loc
  let dst := followPrevious dst (loc + ssize + 1)
  reachNext dst (loc + ssize + 1)

/-- The first index from `i` on whose element passes the test. -/
def firstFrom (rl : Runlist) (p : RunlistElement → Bool) (i : Nat) : Nat :=
  i + (rl.drop i).findIdx p

/-- Whether an element is a terminator. -/
def isEnd (e : RunlistElement) : Bool :=
  decide (e.length = 0)

/-- The last index up to the given one whose element is mapped. -/
def lastMapped (rl : Runlist) : Nat → Nat
  | 0 => 0
  | i + 1 => if (elemAt rl (i + 1)).lcn < lcnHole then lastMapped rl i else i + 1

/-- The `ENOENT` terminator written behind index `ds`. -/
def endAt (drl : Runlist) (ds : Nat) (markerVcn : Int) : Runlist :=
  drl.take ds ++ [enoentAt markerVcn] ++ drl.drop (ds + 1)

/--
The marker code: move the end of `drl`, whose terminator is at `ds`, to the end
of the source.
-/
def fixMarker (drl : Runlist) (ds : Nat) (markerVcn : Int) : Runlist :=
  let last := elemAt drl ds
  if last.vcn > markerVcn then
    drl
  else if last.vcn = markerVcn then
    drl.set ds { last with lcn := lcnEnoent }
  else if last.lcn = lcnEnoent ∧ (elemAt drl (ds - 1)).lcn = lcnRlNotMapped then
    -- extend the unmapped run before the terminator
    let prev := elemAt drl (ds - 1)
    endAt (drl.set (ds - 1) { prev with length := markerVcn - prev.vcn }) ds markerVcn
  else if last.lcn = lcnEnoent ∨ last.lcn = lcnRlNotMapped then
    -- the terminator itself becomes an unmapped run
    endAt (drl.set ds ⟨last.vcn, lcnRlNotMapped, markerVcn - last.vcn⟩) (ds + 1) markerVcn
  else
    -- any other terminator stays, with an unmapped run behind it
    let vcn := last.vcn + last.length
    endAt
      (drl.take (ds + 1) ++ [⟨vcn, lcnRlNotMapped, markerVcn - vcn⟩] ++ drl.drop (ds + 2))
      (ds + 2) markerVcn

/-- Where the source goes, and how: the decisions of `ntfs_runlists_merge_i`. -/
structure MergePlan where
  /-- `srl + sstart`, `ss` elements. -/
  src : Runlist
  /-- `dins`. -/
  dins : Nat
  start : Bool
  finish : Bool
  /-- `marker_vcn`, if `marker` is set. -/
  markerVcn : Option Int

/-- The scans and tests of `ntfs_runlists_merge_i`. -/
def mergePlan (drl srl : Runlist) : Except Errno MergePlan :=
  let sstart := firstFrom srl (fun e => isEnd e || decide (e.lcn ≥ lcnHole)) 0
  let s := elemAt srl sstart
  if s.length = 0 then
    .error .einval
  else
    let dins := firstFrom drl (fun e => isEnd e || decide (e.vcn + e.length > s.vcn)) 0
    let d := elemAt drl dins
    if d.vcn = s.vcn ∧ d.lcn ≥ 0 ∧ s.lcn ≥ 0 then
      .error .erange
    else
      let send := firstFrom srl isEnd sstart
      let sfinal := lastMapped srl send
      let last := elemAt srl (send - 1)
      let marker := decide ((elemAt srl send).lcn = lcnEnoent)
      let start := decide (d.lcn < lcnRlNotMapped ∨ d.vcn = s.vcn)
      let finish := decide (d.lcn ≥ lcnRlNotMapped ∧ d.vcn + d.length ≤ last.vcn + last.length)
      let ss := sfinal - sstart + 1 + (if finish && isEnd d then 1 else 0)
      .ok
        { src := (srl.drop sstart).take ss
          dins
          start
          finish :=
            finish && !(marker && decide (d.vcn + d.length > last.vcn))
          markerVcn := if marker then some (elemAt srl send).vcn else none }

/-- The four ways to put the source into the destination. -/
def applyPlan (drl : Runlist) (plan : MergePlan) : Runlist :=
  match plan.start, plan.finish with
  | true, true => rlReplace drl plan.src plan.dins
  | true, false => rlInsert drl plan.src plan.dins
  | false, true => rlAppend drl plan.src plan.dins
  | false, false => rlSplit drl plan.src plan.dins

/-- `ntfs_runlists_merge`; `none` is the null pointer. -/
def runlistsMerge (drl srl : Option Runlist) : Except Errno (Option Runlist) :=
  match srl, drl with
  | none, drl => .ok drl
  | some srl, none =>
    if (elemAt srl 0).vcn ≠ 0 then
      .ok (some (⟨0, lcnRlNotMapped, (elemAt srl 0).vcn⟩ :: srl))
    else
      .ok (some srl)
  | some srl, some drl => do
      let plan ← mergePlan drl srl
      let dend := firstFrom drl isEnd plan.dins
      let merged := applyPlan drl plan
      match plan.markerVcn with
      | none => return some (upToTerminator merged)
      | some markerVcn =>
        let ds := firstFrom merged isEnd dend
        return some (upToTerminator (fixMarker merged ds markerVcn))

end NtfsPlus.Libntfs
