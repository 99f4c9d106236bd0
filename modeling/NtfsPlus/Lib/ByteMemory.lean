import Mathlib.Tactic

/-!
# Byte memory

Memory is a function from addresses to bytes, so a pointer is an offset and
reading outside an object gives whatever lies there.  `HoldsBytes` says that a
byte string lies at an address; `le16`, `le32` and `le64` read a field and
`setLe16` stores one.  `patch` stores a byte string, `patches` several relative
to one address, and `memmove` copies a range that may overlap its destination.
-/

namespace NtfsPlus

/-- Memory seen as bytes from some base address on. -/
abbrev Bytes := Nat → UInt8

/-- Store one byte. -/
def setByte (m : Bytes) (i : Nat) (b : UInt8) : Bytes :=
  fun j => if j = i then b else m j

@[simp] theorem setByte_same
    (m : Bytes)
    (i : Nat)
    (b : UInt8) :
    setByte m i b i = b := by
  simp [setByte]

theorem setByte_of_ne
    (m : Bytes)
    (b : UInt8)
    {i j : Nat}
    (h : j ≠ i) :
    setByte m i b j = m j := by
  simp [setByte, h]

/-- The byte string `l` lies at address `pos`. -/
def HoldsBytes (m : Bytes) : Nat → List UInt8 → Prop
  | _, [] => True
  | pos, b :: rest => m pos = b ∧ HoldsBytes m (pos + 1) rest

@[simp] theorem holdsBytes_nil
    (m : Bytes)
    (pos : Nat) :
    HoldsBytes m pos [] := by
  trivial

@[simp] theorem holdsBytes_cons
    (m : Bytes)
    (pos : Nat)
    (b : UInt8)
    (l : List UInt8) :
    HoldsBytes m pos (b :: l) ↔ m pos = b ∧ HoldsBytes m (pos + 1) l := by
  rfl

theorem holdsBytes_append
    (m : Bytes)
    (pos : Nat)
    (a b : List UInt8) :
    HoldsBytes m pos (a ++ b) ↔ HoldsBytes m pos a ∧ HoldsBytes m (pos + a.length) b := by
  induction a generalizing pos with
  | nil => simp
  | cons x a ih =>
    rw [List.cons_append, holdsBytes_cons, holdsBytes_cons, ih (pos + 1),
      and_assoc, List.length_cons, Nat.add_right_comm, Nat.add_assoc]

theorem HoldsBytes.getElem
    {m : Bytes} {pos : Nat} {l : List UInt8}
    (h : HoldsBytes m pos l)
    {i : Nat}
    (hi : i < l.length) :
    m (pos + i) = l[i] := by
  induction l generalizing pos i with
  | nil => simp at hi
  | cons b l ih =>
    cases i with
    | zero => simpa using h.1
    | succ i =>
      have hl : i < l.length := by simpa using hi
      have := ih h.2 hl
      rw [← Nat.add_assoc, Nat.add_right_comm]
      simpa using this

theorem holdsBytes_of_getElem
    {m : Bytes} {pos : Nat} {l : List UInt8}
    (h : ∀ (i : Nat) (hi : i < l.length), m (pos + i) = l[i]) :
    HoldsBytes m pos l := by
  induction l generalizing pos with
  | nil => trivial
  | cons b l ih =>
    refine ⟨h 0 (by simp), ih ?_⟩
    intro i hi
    have := h (i + 1) (by simpa using hi)
    rw [Nat.add_assoc, Nat.add_comm 1 i]
    simpa using this

/-- Bytes that do not change are still held. -/
theorem HoldsBytes.frame
    {m m' : Bytes} {pos : Nat} {l : List UInt8}
    (h : HoldsBytes m pos l)
    (hsame : ∀ j, pos ≤ j → j < pos + l.length → m' j = m j) :
    HoldsBytes m' pos l := by
  apply holdsBytes_of_getElem
  intro i hi
  rw [hsame (pos + i) (by omega) (by omega), h.getElem hi]

/-- The little-endian number in the `n` bytes from `pos` on. -/
def leNat (m : Bytes) (pos : Nat) : Nat → Nat
  | 0 => 0
  | n + 1 => (m pos).toNat + 256 * leNat m (pos + 1) n

/-- `le16_to_cpu` of the field at `pos`. -/
def le16 (m : Bytes) (pos : Nat) : Nat :=
  leNat m pos 2

/-- `le32_to_cpu` of the field at `pos`. -/
def le32 (m : Bytes) (pos : Nat) : Nat :=
  leNat m pos 4

/-- `le64_to_cpu` of the field at `pos`. -/
def le64 (m : Bytes) (pos : Nat) : Nat :=
  leNat m pos 8

/-- A number depends on its bytes only. -/
theorem leNat_congr
    {m m' : Bytes} {pos pos' n : Nat}
    (h : ∀ i < n, m (pos + i) = m' (pos' + i)) :
    leNat m pos n = leNat m' pos' n := by
  induction n generalizing pos pos' with
  | zero => rfl
  | succ n ih =>
    have hfirst : m pos = m' pos' := h 0 (by omega)
    have hrest : leNat m (pos + 1) n = leNat m' (pos' + 1) n := by
      apply ih
      intro i hi
      have := h (i + 1) (by omega)
      rwa [← Nat.add_assoc, ← Nat.add_assoc, Nat.add_right_comm, Nat.add_right_comm pos'] at this
    rw [leNat, leNat, hrest, hfirst]

theorem leNat_lt
    (m : Bytes)
    (pos n : Nat) :
    leNat m pos n < 256 ^ n := by
  induction n generalizing pos with
  | zero => exact Nat.one_pos
  | succ n ih =>
    have hbyte := (m pos).toNat_lt
    have hrest := ih (pos + 1)
    rw [leNat]
    omega

theorem le16_lt
    (m : Bytes)
    (pos : Nat) :
    le16 m pos < 65536 :=
  leNat_lt m pos 2

theorem le32_eq_le16
    (m : Bytes)
    (pos : Nat) :
    le32 m pos = le16 m pos + 65536 * le16 m (pos + 2) := by
  simp only [le32, le16, leNat, Nat.add_assoc, Nat.reduceAdd]
  omega

/-- Store a 16-bit field. -/
def setLe16 (m : Bytes) (pos v : Nat) : Bytes :=
  setByte (setByte m pos (UInt8.ofNat v)) (pos + 1) (UInt8.ofNat (v / 256))

theorem setLe16_of_ne
    (m : Bytes)
    (v : Nat)
    {pos j : Nat}
    (h : j < pos ∨ pos + 2 ≤ j) :
    setLe16 m pos v j = m j := by
  rw [setLe16, setByte_of_ne _ _ (by omega), setByte_of_ne _ _ (by omega)]

@[simp] theorem le16_setLe16
    (m : Bytes)
    (pos v : Nat) :
    le16 (setLe16 m pos v) pos = v % 65536 := by
  have hlow : setLe16 m pos v pos = UInt8.ofNat v := by
    rw [setLe16, setByte_of_ne _ _ (by omega), setByte_same]
  have hhigh : setLe16 m pos v (pos + 1) = UInt8.ofNat (v / 256) := by rw [setLe16, setByte_same]
  simp only [le16, leNat, hlow, hhigh, UInt8.toNat_ofNat']
  omega

theorem le16_setLe16_of_ne
    (m : Bytes)
    (v : Nat)
    {pos pos' : Nat}
    (h : pos' + 2 ≤ pos ∨ pos + 2 ≤ pos') :
    le16 (setLe16 m pos v) pos' = le16 m pos' := by
  apply leNat_congr
  intro i hi
  exact setLe16_of_ne m v (by omega)

theorem le32_lt
    (m : Bytes)
    (pos : Nat) :
    le32 m pos < 2 ^ 32 :=
  leNat_lt m pos 4

section Patches

/-- The `n` bytes of a little-endian field. -/
def leBytes : Nat → Nat → List UInt8
  | 0, _ => []
  | n + 1, v => UInt8.ofNat v :: leBytes n (v / 256)

@[simp] theorem leBytes_length
    (n v : Nat) :
    (leBytes n v).length = n := by
  induction n generalizing v with
  | zero => rfl
  | succ n ih => rw [leBytes, List.length_cons, ih]

theorem leBytes_mod
    (n v : Nat) :
    leBytes n (v % 256 ^ n) = leBytes n v := by
  induction n generalizing v with
  | zero => rfl
  | succ n ih =>
    have hbyte : UInt8.ofNat (v % 256 ^ (n + 1)) = UInt8.ofNat v := by
      apply UInt8.toNat_inj.mp
      rw [Nat.pow_succ']
      exact Nat.mod_mul_right_mod v 256 (256 ^ n)
    rw [leBytes, leBytes, hbyte, Nat.pow_succ', Nat.mod_mul_right_div_self, ih]

variable {m : Bytes} {pos n j : Nat} {l : List UInt8}

/-- Bytes written for a number are read as that number. -/
theorem HoldsBytes.leNat_eq
    {v : Nat}
    (h : HoldsBytes m pos (leBytes n v)) :
    leNat m pos n = v % 256 ^ n := by
  induction n generalizing pos v with
  | zero => rw [leNat, Nat.pow_zero, Nat.mod_one]
  | succ n ih =>
    obtain ⟨hfirst, hrest⟩ := h
    have hbyte : (UInt8.ofNat v).toNat = v % 256 := UInt8.toNat_ofNat'
    rw [leNat, ih hrest, hfirst, hbyte, Nat.pow_succ', Nat.mod_mul]

/-- A number inside of a held list is the one of the list. -/
theorem HoldsBytes.leNat_getD
    {i : Nat}
    (h : HoldsBytes m pos l)
    (hin : i + n ≤ l.length) :
    leNat m (pos + i) n = leNat (fun j => l.getD j 0) i n := by
  apply leNat_congr
  intro k hk
  rw [Nat.add_assoc, h.getElem (by omega)]
  simp [show i + k < l.length by omega]

/-- Store a byte string. -/
def patch (m : Bytes) (pos : Nat) (l : List UInt8) : Bytes :=
  fun j => if pos ≤ j ∧ j < pos + l.length then l.getD (j - pos) 0 else m j

theorem patch_of_ne
    (m : Bytes)
    (h : j < pos ∨ pos + l.length ≤ j) :
    patch m pos l j = m j := by
  rw [patch, if_neg (by omega)]

/-- A patch holds its bytes. -/
theorem holdsBytes_patch
    (m : Bytes)
    (pos : Nat)
    (l : List UInt8) :
    HoldsBytes (patch m pos l) pos l := by
  apply holdsBytes_of_getElem
  intro i hi
  rw [patch]
  simp [hi]

/-- A number that was patched in is read back. -/
theorem leNat_patch
    (m : Bytes)
    (pos n v : Nat) :
    leNat (patch m pos (leBytes n v)) pos n = v % 256 ^ n :=
  (holdsBytes_patch m pos (leBytes n v)).leNat_eq

/-- A number beside a patch is not changed. -/
theorem leNat_patch_of_ne
    (m : Bytes)
    {pos' : Nat}
    (h : pos' + n ≤ pos ∨ pos + l.length ≤ pos') :
    leNat (patch m pos l) pos' n = leNat m pos' n :=
  leNat_congr (fun _ _ => patch_of_ne m (by omega))

/-- Patching in what is there changes nothing. -/
theorem HoldsBytes.patch_eq
    (h : HoldsBytes m pos l) :
    patch m pos l = m := by
  funext j
  by_cases hj : pos ≤ j ∧ j < pos + l.length
  · have hread := h.getElem (show j - pos < l.length by omega)
    rw [Nat.add_sub_cancel' hj.1] at hread
    rw [patch, hread]
    simp [show j - pos < l.length by omega]
  · rw [patch, if_neg hj]

theorem holdsBytes_leBytes
    (m : Bytes)
    (pos n : Nat) :
    HoldsBytes m pos (leBytes n (leNat m pos n)) := by
  induction n generalizing pos with
  | zero => trivial
  | succ n ih =>
    have hlt := (m pos).toNat_lt
    rw [leNat]
    constructor
    · apply UInt8.toNat_inj.mp
      rw [UInt8.toNat_ofNat']
      omega
    · rw [show ((m pos).toNat + 256 * leNat m (pos + 1) n) / 256 = leNat m (pos + 1) n by omega]
      exact ih (pos + 1)

/-- Store several byte strings, each at an offset from `a`. -/
def patches (m : Bytes) (a : Nat) : List (Nat × List UInt8) → Bytes
  | [] => m
  | (ofs, l) :: rest => patches (patch m (a + ofs) l) a rest

/-- Patches are made one after the other. -/
theorem patches_append
    (m : Bytes)
    (a : Nat)
    (l l' : List (Nat × List UInt8)) :
    patches m a (l ++ l') = patches (patches m a l) a l' := by
  induction l generalizing m with
  | nil => rfl
  | cons f l ih => exact ih _

/-- Patches change nothing outside of their record. -/
theorem patches_of_ne
    {a len : Nat} {fields : List (Nat × List UInt8)}
    (hin : ∀ f ∈ fields, f.1 + f.2.length ≤ len)
    (hj : j < a ∨ a + len ≤ j) :
    patches m a fields j = m j := by
  induction fields generalizing m with
  | nil => rfl
  | cons f rest ih =>
    obtain ⟨ofs, l⟩ := f
    have hf : ofs + l.length ≤ len := hin (ofs, l) (by simp)
    rw [patches, ih (fun g hg => hin g (by simp [hg])), patch_of_ne m (by omega)]

/-- A field that is stored first stays if nothing is stored over it. -/
theorem holdsBytes_patches
    {a ofs : Nat} {fields : List (Nat × List UInt8)}
    (h : HoldsBytes m (a + ofs) l)
    (hapart : ∀ f ∈ fields, ofs + l.length ≤ f.1 ∨ f.1 + f.2.length ≤ ofs) :
    HoldsBytes (patches m a fields) (a + ofs) l := by
  induction fields generalizing m with
  | nil => exact h
  | cons f rest ih =>
    have hf := hapart f (by simp)
    refine ih (h.frame ?_) (fun g hg => hapart g (by simp [hg]))
    intro j hlow hhigh
    exact patch_of_ne m (by omega)

/-- The `n` bytes at an address. -/
def bytesAt (m : Bytes) (pos n : Nat) : List UInt8 :=
  (List.range n).map (fun i => m (pos + i))

@[simp] theorem bytesAt_length
    (m : Bytes)
    (pos n : Nat) :
    (bytesAt m pos n).length = n := by
  simp [bytesAt]

theorem holdsBytes_bytesAt
    (m : Bytes)
    (pos n : Nat) :
    HoldsBytes m pos (bytesAt m pos n) := by
  apply holdsBytes_of_getElem
  simp [bytesAt]

theorem HoldsBytes.bytesAt_eq
    (h : HoldsBytes m pos l) :
    bytesAt m pos l.length = l := by
  apply List.ext_getElem (by simp)
  intro i hi hi'
  rw [← h.getElem hi']
  simp [bytesAt]

/-- Copy `n` bytes from `src` to `dst`. -/
def memmove (m : Bytes) (dst src n : Nat) : Bytes :=
  fun j => if dst ≤ j ∧ j < dst + n then m (src + (j - dst)) else m j

/-- Nothing changes outside of the target. -/
theorem memmove_of_ne
    (m : Bytes)
    (src : Nat)
    {dst : Nat}
    (h : j < dst ∨ dst + n ≤ j) :
    memmove m dst src n j = m j := by
  rw [memmove, if_neg (by omega)]

/-- A byte string inside the copied range arrives at the destination. -/
theorem HoldsBytes.memmove
    {src dst : Nat}
    (h : HoldsBytes m src l)
    (hn : l.length ≤ n) :
    HoldsBytes (memmove m dst src n) dst l := by
  apply holdsBytes_of_getElem
  intro i hi
  rw [NtfsPlus.memmove, if_pos (by omega), Nat.add_sub_cancel_left, h.getElem hi]

end Patches

end NtfsPlus
