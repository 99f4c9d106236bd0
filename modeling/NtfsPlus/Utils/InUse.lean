import Mathlib.Data.Nat.Bitwise
import NtfsPlus.Lib.BitWindow

/-!
# Whether a record or a cluster is in use

`check_mftrec_in_use` and `utils_cluster_in_use` of `src/utils.c` keep a part of
`$MFT/$BITMAP` and of `$Bitmap` in a static buffer.

`check_mftrec_in_use` moves the buffer before it reads.  After a read that fails, a query
for the same part is therefore answered from a buffer of zeroes
(`checkMftrecInUse_answers_iff`).  As long as nothing fails, `utils_cluster_in_use` answers
with the bits of `$Bitmap` (`utilsClusterInUse_stored`).
-/

namespace NtfsPlus.Utils

open BitWindow

section Model

/-- The value `buffer[byte] & bit`. -/
def maskedBit (size : Nat) (w : Window) (n : Nat) : Int :=
  (w.buffer (n / 8 % size) &&& (1 <<< UInt8.ofNat (n % 8))).toNat

/-- `MFTREC_BUF_SIZE`. -/
def mftrecBufSize : Nat := 8192

/-- `check_mftrec_in_use`; `q.n` is a record number without a sequence number. -/
def checkMftrecInUse (w : Window) (q : Query) : Window × Int :=
  if w.loads mftrecBufSize q then
    if q.got.isNone then
      (load mftrecBufSize 0 q, -1)
    else
      (load mftrecBufSize 0 q, maskedBit mftrecBufSize (load mftrecBufSize 0 q) q.n)
  else
    (w, maskedBit mftrecBufSize w q.n)

/-- The static buffer before the first query. -/
def mftrecStart : Trace where
  window := ⟨fun _ => 0, -65537⟩
  len := 0
  known := fun _ => none

/-- The size of the buffer of `utils_cluster_in_use`. -/
def clusterBufSize : Nat := 512

/-- `utils_cluster_in_use`, where `opened` tells whether `$Bitmap` could be opened. -/
def utilsClusterInUse (opened : Bool) (w : Window) (q : Query) : Window × Int :=
  if w.loads clusterBufSize q then
    if !opened then
      (w, -1)
    else if q.got.isNone then
      (load clusterBufSize 0xff q, -1)
    else
      (load clusterBufSize 0xff q, maskedBit clusterBufSize (load clusterBufSize 0xff q) q.n)
  else
    (w, maskedBit clusterBufSize w q.n)

end Model

section Answers

/--
Every answer other than `-1` tells the bit of the record as the last successful read that
covers it had it.
-/
def TellsLastRead : Trace → List Query → Prop
  | _, [] => True
  | t, q :: qs =>
    ((checkMftrecInUse t.window q).2 ≠ -1 → (t.next mftrecBufSize 0 q).known q.n =
      some (decide ((checkMftrecInUse t.window q).2 ≠ 0))) ∧
      TellsLastRead (t.next mftrecBufSize 0 q) qs

variable {size n : Nat} {w : Window}

theorem maskedBit_eq
    (size : Nat)
    (w : Window)
    (n : Nat) :
    maskedBit size w n = if w.bit size n then 2 ^ (n % 8) else 0 := by
  rw [maskedBit, UInt8.toNat_and, toNat_one_shiftLeft (Nat.mod_lt n (by decide)),
    Nat.and_two_pow, ← Window.bit]
  cases w.bit size n with
  | false => simp
  | true => simp

theorem maskedBit_nonneg
    (size : Nat)
    (w : Window)
    (n : Nat) :
    0 ≤ maskedBit size w n :=
  Int.natCast_nonneg _

theorem maskedBit_ne_zero : maskedBit size w n ≠ 0 ↔ w.bit size n = true := by
  rw [maskedBit_eq]
  cases w.bit size n with
  | false => simp
  | true => simp

theorem checkMftrecInUse_answer
    (w : Window)
    (q : Query) :
    (∃ b, w.answer mftrecBufSize 0 q = some b ∧ (checkMftrecInUse w q).2 ≠ -1 ∧
      decide ((checkMftrecInUse w q).2 ≠ 0) = b) ∨
      w.answer mftrecBufSize 0 q = none ∧ (checkMftrecInUse w q).2 = -1 := by
  have hbit : ∀ v : Window, maskedBit mftrecBufSize v q.n ≠ -1 ∧
      decide (maskedBit mftrecBufSize v q.n ≠ 0) = v.bit mftrecBufSize q.n := by
    intro v
    have := maskedBit_nonneg mftrecBufSize v q.n
    refine ⟨by omega, ?_⟩
    rw [Bool.eq_iff_iff, decide_eq_true_iff]
    exact maskedBit_ne_zero
  unfold checkMftrecInUse Window.answer Window.next
  cases hload : w.loads mftrecBufSize q with
  | false => exact Or.inl ⟨_, by simp, hbit w⟩
  | true =>
    cases hgot : q.got.isNone with
    | true => exact Or.inr ⟨by simp, by simp⟩
    | false => exact Or.inl ⟨_, by simp, hbit (load mftrecBufSize 0 q)⟩

theorem tellsLastRead_iff
    (t : Trace)
    (qs : List Query) :
    TellsLastRead t qs ↔ AnswersTrue mftrecBufSize 0 t qs := by
  induction qs generalizing t with
  | nil => exact Iff.rfl
  | cons q qs ih =>
    refine and_congr ?_ (ih _)
    rcases checkMftrecInUse_answer t.window q with ⟨b, hanswer, hret, hbit⟩ | ⟨hanswer, hret⟩
    · simp [hanswer, hret, hbit]
    · simp [hanswer, hret]

/--
In every sequence of queries the answers tell what was last read if and only if no record
is asked for in a buffer whose read failed or ended before it, unless the last read of the
record gave 0.
-/
theorem checkMftrecInUse_answers_iff
    (qs : List Query) :
    TellsLastRead mftrecStart qs ↔ Informed mftrecBufSize 0 mftrecStart qs := by
  rw [tellsLastRead_iff]
  apply answersTrue_iff (by decide)
  constructor
  · rintro k ⟨-, hhi, -⟩
    have : (k : Int) < -65537 + 8 * (8192 : Nat) := hhi
    omega
  · intro k _ hhi
    have : (k : Int) < -65537 + 8 * (8192 : Nat) := hhi
    omega

/-- A query for record 6 of a bitmap with all bits set. -/
def askSix (force : Bool) (got : Option Nat) : Query :=
  ⟨6, force, fun _ => 0xff, got⟩

/-- Record 6 is in use; after a forced read that fails it is said to be free. -/
theorem checkMftrecInUse_after_failure :
    ¬TellsLastRead mftrecStart [askSix true (some 8192), askSix true none, askSix false none] := by
  rintro ⟨-, -, h, -⟩
  have hknown := h (by decide)
  revert hknown
  decide

end Answers

section Clusters

/-- The bit of a cluster in a `$Bitmap` of `bytes` bytes; behind its end all are in use. -/
def clusterBit (bitmap : Bytes) (bytes n : Nat) : Bool :=
  if n / 8 < bytes then bitAt bitmap n else true

/-- The static buffer before the first call. -/
def clusterStart : Window :=
  ⟨fun _ => 0, -4096⟩

/-- The clusters asked for with the answers; for each call, whether `$Bitmap` can be opened, the
cluster, and the bytes that a read brings. -/
def clusterAnswers (bitmap : Bytes) : Window → List (Bool × Nat × Option Nat) → List (Nat × Int)
  | _, [] => []
  | w, (opened, n, got) :: calls =>
    let (w', answer) := utilsClusterInUse opened w ⟨n, false, bitmap, got⟩
    (n, answer) :: clusterAnswers bitmap w' calls

/-- The buffer has the bits of its part of `$Bitmap`, as far as `bytes` bytes go. -/
def Stored (bitmap : Bytes) (bytes : Nat) (w : Window) : Prop :=
  ∀ k : Nat, w.start ≤ k → (k : Int) < w.start + 8 * clusterBufSize →
    w.bit clusterBufSize k = clusterBit bitmap bytes k

variable {bitmap : Bytes} {bytes bytes' n : Nat} {w : Window} {got : Option Nat}

theorem stored_load
    {q : Query}
    (h : q.got.getD 0 = bytes - stretch clusterBufSize q.n / 8) :
    Stored q.field bytes (load clusterBufSize 0xff q) := by
  intro k (hlo : (stretch clusterBufSize q.n : Int) ≤ k)
    (hhi : (k : Int) < stretch clusterBufSize q.n + 8 * clusterBufSize)
  have hmod : k % 8 < 8 := Nat.mod_lt k (by decide)
  have hstretch : 8 * (stretch clusterBufSize q.n / 8) = stretch clusterBufSize q.n := by
    unfold stretch clusterBufSize
    omega
  have hcovers : Covers clusterBufSize (stretch clusterBufSize q.n) (q.got.getD 0) k ↔
      k / 8 < bytes := by
    unfold Covers
    omega
  rw [bit_load (Int.ofNat_le.mp hlo) (by exact_mod_cast hhi), clusterBit]
  refine if_congr hcovers rfl ?_
  interval_cases k % 8 <;> rfl

/-- The answer is the bit of the cluster as far as it is stored, before or by this call. -/
theorem utilsClusterInUse_stored
    (h : Stored bitmap bytes w)
    (opened : Bool)
    (hgot : got.getD 0 = bytes' - stretch clusterBufSize n / 8) :
    let r := utilsClusterInUse opened w ⟨n, false, bitmap, got⟩
    ∃ b, (b = bytes ∨ b = bytes') ∧ Stored bitmap b r.1 ∧
      ((r.2 ≠ 0 ↔ clusterBit bitmap b n = true) ∨ r.2 = -1 ∧ (opened = false ∨ got = none)) := by
  intro r
  have hstored : Stored bitmap bytes' (load clusterBufSize 0xff ⟨n, false, bitmap, got⟩) :=
    stored_load hgot
  have hmem := mem_stretch (show 0 < clusterBufSize by decide) n
  unfold r utilsClusterInUse
  split_ifs with hload hopened hread
  · exact ⟨bytes, Or.inl rfl, h, Or.inr ⟨rfl, Or.inl (by simpa using hopened)⟩⟩
  · exact ⟨bytes', Or.inr rfl, hstored, Or.inr ⟨rfl, Or.inr (by simpa using hread)⟩⟩
  · refine ⟨bytes', Or.inr rfl, hstored, Or.inl (maskedBit_ne_zero.trans ?_)⟩
    rw [hstored n (Int.ofNat_le.mpr hmem.1) (Int.ofNat_lt.mpr hmem.2)]
  · simp only [Window.loads, Bool.or_eq_true, decide_eq_true_eq, not_or, not_lt, not_le] at hload
    refine ⟨bytes, Or.inl rfl, h, Or.inl (maskedBit_ne_zero.trans ?_)⟩
    rw [h n hload.1.2 hload.2]

theorem stored_clusterStart
    (bitmap : Bytes)
    (bytes : Nat) :
    Stored bitmap bytes clusterStart := by
  intro k _ hhi
  have : (k : Int) < -4096 + 8 * (512 : Nat) := hhi
  omega

/-- Whichever calls and reads fail, no cluster in use is said to be free. -/
theorem clusterAnswers_never_free
    (bitmap : Bytes)
    (calls : List (Bool × Nat × Option Nat)) :
    ¬∃ a ∈ clusterAnswers bitmap clusterStart calls, a.2 = 0 ∧ bitAt bitmap a.1 = true := by
  have hrun : ∀ w b, Stored bitmap b w →
      ∀ a ∈ clusterAnswers bitmap w calls, a.2 = 0 → bitAt bitmap a.1 = false := by
    induction calls with
    | nil => simp [clusterAnswers]
    | cons c calls ih =>
      intro w b h
      obtain ⟨b', -, hstored, hanswer⟩ := utilsClusterInUse_stored h c.1
        (Nat.add_sub_cancel (c.2.2.getD 0) (stretch clusterBufSize c.2.1 / 8)).symm
      refine List.forall_mem_cons.mpr ⟨?_, ih _ b' hstored⟩
      intro (hzero : (utilsClusterInUse c.1 w ⟨c.2.1, false, bitmap, c.2.2⟩).2 = 0)
      have hbit : clusterBit bitmap b' c.2.1 = false := by simpa [hzero] using hanswer
      unfold clusterBit at hbit
      split at hbit
      · exact hbit
      · cases hbit
  rintro ⟨a, ha, hzero, hset⟩
  simp [hrun _ _ (stored_clusterStart bitmap 0) a ha hzero] at hset

end Clusters

end NtfsPlus.Utils
