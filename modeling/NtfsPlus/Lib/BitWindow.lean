import NtfsPlus.Lib.BitField

/-!
# One window of a field of bits, kept in memory

A buffer of `size` bytes holds a stretch of a field that is read from elsewhere.  A query
for a bit outside the stretch, or a forced one, reads the stretch around the bit; the
bytes that the read does not bring are `fill`.  The read may fail, and the buffer then
holds the new stretch without any byte of it.

`answersTrue_iff` says for any sequence of queries when each answer is the bit that was
last read.
-/

namespace NtfsPlus.BitWindow

section Model

/-- The buffer and the bit of the field that is its first. -/
structure Window where
  buffer : Bytes
  start : Int

/-- A query for bit `n`, with the field at that time and the bytes a read would bring. -/
structure Query where
  n : Nat
  force : Bool
  field : Bytes
  got : Option Nat

variable (size : Nat) (fill : UInt8)

/-- The first bit of the stretch around bit `n`. -/
def stretch (n : Nat) : Nat :=
  n / (8 * size) * (8 * size)

/-- Whether a query reads. -/
def Window.loads (w : Window) (q : Query) : Bool :=
  q.force || decide ((q.n : Int) < w.start) || decide (w.start + 8 * size ≤ q.n)

/-- The window after a read. -/
def load (q : Query) : Window where
  buffer := fun j => if j < q.got.getD 0 then q.field (stretch size q.n / 8 + j) else fill
  start := stretch size q.n

/-- The bit of the buffer that stands for bit `n`. -/
def Window.bit (w : Window) (n : Nat) : Bool :=
  (w.buffer (n / 8 % size)).toNat.testBit (n % 8)

/-- The window that a query leaves. -/
def Window.next (w : Window) (q : Query) : Window :=
  if w.loads size q then load size fill q else w

/-- The answer to a query, `none` if its read fails. -/
def Window.answer (w : Window) (q : Query) : Option Bool :=
  if w.loads size q && q.got.isNone then none else some ((w.next size fill q).bit size q.n)

end Model

section History

/-- A window with what the reads so far have brought. -/
structure Trace where
  window : Window
  /-- The bytes that the last read brought. -/
  len : Nat
  /-- Each bit as the last read that covers it had it. -/
  known : Nat → Option Bool

variable (size : Nat) (fill : UInt8)

/-- The bit lies in the bytes that were brought for a stretch. -/
def Covers (start : Int) (len : Nat) (k : Nat) : Prop :=
  start ≤ k ∧ (k : Int) < start + 8 * size ∧ (k : Int) < start + 8 * len

instance (start : Int) (len k : Nat) : Decidable (Covers size start len k) :=
  inferInstanceAs (Decidable (_ ∧ _ ∧ _))

/-- The trace after a query. -/
def Trace.next (t : Trace) (q : Query) : Trace :=
  if t.window.loads size q then
    { window := load size fill q
      len := q.got.getD 0
      known := fun k =>
        if Covers size (stretch size q.n) (q.got.getD 0) k then some (bitAt q.field k)
        else t.known k }
  else
    t

/-- Every answer of a sequence of queries is the bit that was last read. -/
def AnswersTrue : Trace → List Query → Prop
  | _, [] => True
  | t, q :: qs =>
    (∀ b, t.window.answer size fill q = some b → (t.next size fill q).known q.n = some b) ∧
      AnswersTrue (t.next size fill q) qs

/-- Every answered query is for a bit the last read brought, or that was last read as `fill`. -/
def Informed : Trace → List Query → Prop
  | _, [] => True
  | t, q :: qs =>
    (t.window.answer size fill q ≠ none →
      Covers size (t.next size fill q).window.start (t.next size fill q).len q.n ∨
        (t.next size fill q).known q.n = some (fill.toNat.testBit (q.n % 8))) ∧
      Informed (t.next size fill q) qs

/-- The buffer holds what the last read brought, and `fill` behind it. -/
structure Trace.Holds (t : Trace) : Prop where
  brought : ∀ k, Covers size t.window.start t.len k → t.known k = some (t.window.bit size k)
  filled : ∀ k : Nat, t.window.start ≤ k → (k : Int) < t.window.start + 8 * size →
    ¬Covers size t.window.start t.len k → t.window.bit size k = fill.toNat.testBit (k % 8)

end History

section Results

variable {size : Nat} {fill : UInt8} {t : Trace} {q : Query}

/-- A bit lies in its own stretch. -/
theorem mem_stretch
    (hsize : 0 < size)
    (n : Nat) :
    stretch size n ≤ n ∧ n < stretch size n + 8 * size := by
  have hdiv := Nat.div_add_mod n (8 * size)
  have hmod := Nat.mod_lt n (show 0 < 8 * size by omega)
  rw [Nat.mul_comm] at hdiv
  unfold stretch
  omega

/-- A window that was read has the bits of the field as far as the read came. -/
theorem bit_load
    {k : Nat}
    (hlo : stretch size q.n ≤ k)
    (hhi : k < stretch size q.n + 8 * size) :
    (load size fill q).bit size k =
      if Covers size (stretch size q.n) (q.got.getD 0) k then bitAt q.field k
      else fill.toNat.testBit (k % 8) := by
  obtain ⟨i, rfl⟩ := Nat.exists_eq_add_of_le hlo
  have hbyte : (stretch size q.n + i) / 8 = size * (q.n / (8 * size)) + i / 8 := by
    rw [stretch, show q.n / (8 * size) * (8 * size) = 8 * (size * (q.n / (8 * size))) by ring,
      Nat.mul_add_div (by decide)]
  have hstretch : stretch size q.n / 8 = size * (q.n / (8 * size)) := by
    rw [stretch, show q.n / (8 * size) * (8 * size) = 8 * (size * (q.n / (8 * size))) by ring,
      Nat.mul_div_cancel_left _ (by decide)]
  have hplace : (stretch size q.n + i) / 8 % size = i / 8 := by
    rw [hbyte, Nat.mul_add_mod, Nat.mod_eq_of_lt (by omega)]
  have hcovers : Covers size (stretch size q.n) (q.got.getD 0) (stretch size q.n + i) ↔
      i / 8 < q.got.getD 0 := by
    unfold Covers
    omega
  rw [Window.bit, hplace, load]
  dsimp only
  split
  · rename_i hgot
    rw [if_pos (hcovers.mpr hgot), bitAt, hbyte, hstretch]
  · rename_i hgot
    rw [if_neg (fun h => hgot (hcovers.mp h))]

/-- A query keeps what the window knows true. -/
theorem Trace.Holds.next
    (h : t.Holds size fill) :
    (t.next size fill q).Holds size fill := by
  unfold Trace.next
  split_ifs
  · constructor
    · intro k (hk : Covers size (stretch size q.n) (q.got.getD 0) k)
      have hin := hk
      obtain ⟨hlo, hhi, -⟩ := hin
      dsimp only
      rw [if_pos hk, bit_load (by omega) (by omega), if_pos hk]
    · intro k (hlo : (stretch size q.n : Int) ≤ k) (hhi : (k : Int) < stretch size q.n + 8 * size)
        (hk : ¬Covers size (stretch size q.n) (q.got.getD 0) k)
      dsimp only
      rw [bit_load (by omega) (by omega), if_neg hk]
  · exact h

/-- A query is for a bit of the window it leaves. -/
theorem Trace.next_window
    (hsize : 0 < size)
    (fill : UInt8)
    (t : Trace)
    (q : Query) :
    (t.next size fill q).window = t.window.next size fill q ∧
      (t.window.next size fill q).start ≤ q.n ∧
      (q.n : Int) < (t.window.next size fill q).start + 8 * size := by
  unfold Trace.next Window.next
  by_cases hload : t.window.loads size q
  · rw [if_pos hload, if_pos hload]
    have hmem := mem_stretch hsize q.n
    refine ⟨rfl, ?_, ?_⟩
    · show (stretch size q.n : Int) ≤ q.n
      omega
    · show (q.n : Int) < stretch size q.n + 8 * size
      omega
  · rw [if_neg hload, if_neg hload]
    simp only [Window.loads, Bool.or_eq_true, decide_eq_true_eq, not_or, not_lt, not_le] at hload
    exact ⟨rfl, hload.1.2, hload.2⟩

/-- Every answer is the bit that was last read if and only if every query is informed. -/
theorem answersTrue_iff
    (hsize : 0 < size)
    (h : t.Holds size fill)
    (qs : List Query) :
    AnswersTrue size fill t qs ↔ Informed size fill t qs := by
  induction qs generalizing t with
  | nil => exact Iff.rfl
  | cons q qs ih =>
    have hnext := h.next (q := q)
    obtain ⟨hwindow, hlo, hhi⟩ := Trace.next_window hsize fill t q
    refine and_congr ?_ (ih hnext)
    have hanswer : t.window.answer size fill q = none ∨
        t.window.answer size fill q = some ((t.next size fill q).window.bit size q.n) := by
      rw [hwindow, Window.answer]
      split_ifs
      · exact Or.inl rfl
      · exact Or.inr rfl
    rcases hanswer with hnone | hsome
    · simp [hnone]
    · rw [← hwindow] at hlo hhi
      by_cases hcov : Covers size (t.next size fill q).window.start (t.next size fill q).len q.n
      · simp [hsome, hcov, hnext.brought _ hcov]
      · simp [hsome, hcov, hnext.filled _ hlo hhi hcov]

end Results

end NtfsPlus.BitWindow
