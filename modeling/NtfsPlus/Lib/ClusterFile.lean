import Mathlib.Tactic

/-!
# Files spread over clusters

A file is stored in clusters of a device: `cell` gives the cluster of the device
for each cluster of the file, or a negative number for a hole, which reads as zero.

`overwrite` replaces a piece of the device, `place` is where the device holds an entry of
the file, and `fileAt` is the content of the file.
-/

namespace NtfsPlus.ClusterFile

section Content

variable {β : Type*}

/-- `n` entries from `start` on are replaced. -/
def overwrite (dev : Int → β) (start n : Int) (data : Int → β) (y : Int) : β :=
  if start ≤ y ∧ y < start + n then data (y - start) else dev y

variable {start n y : Int}

variable (dev data : Int → β)

theorem overwrite_inside
    (hlo : start ≤ y)
    (hhi : y < start + n) :
    overwrite dev start n data y = data (y - start) :=
  if_pos ⟨hlo, hhi⟩

theorem overwrite_outside
    (h : ¬(start ≤ y ∧ y < start + n)) :
    overwrite dev start n data y = dev y :=
  if_neg h

theorem overwrite_empty
    (h : n ≤ 0) :
    overwrite dev start n data = dev := by
  funext y
  exact overwrite_outside dev data (by omega)

/-- Two writes in a row are one. -/
theorem overwrite_append
    (data' : Int → β)
    {n' : Int}
    (hn : 0 ≤ n)
    (hn' : 0 ≤ n')
    (hdata : ∀ i, n ≤ i → i < n + n' → data' (i - n) = data i) :
    overwrite (overwrite dev start n data) (start + n) n' data' =
      overwrite dev start (n + n') data := by
  funext y
  by_cases hlate : start + n ≤ y ∧ y < start + n + n'
  · rw [overwrite_inside _ _ hlate.1 hlate.2, overwrite_inside _ _ (by omega) (by omega),
      ← hdata _ (by omega) (by omega)]
    congr 1
    omega
  · rw [overwrite_outside _ _ hlate]
    by_cases hfirst : start ≤ y ∧ y < start + n
    · rw [overwrite_inside _ _ hfirst.1 hfirst.2, overwrite_inside _ _ hfirst.1 (by omega)]
    · rw [overwrite_outside _ _ hfirst, overwrite_outside _ _ (by omega)]

/-- Where the device holds an entry of the file. -/
def place (cs : Int) (cell : Int → Int) (x : Int) : Int :=
  cell (x / cs) * cs + x % cs

/-- The content of a file. -/
def fileAt [OfNat β 0] (cs : Int) (cell : Int → Int) (dev : Int → β) (x : Int) : β :=
  if 0 ≤ cell (x / cs) then dev (place cs cell x) else 0

/-- Consecutive clusters of the file in consecutive clusters of the device. -/
def RunAt (cell : Int → Int) (v lcn n : Int) : Prop :=
  ∀ w, v ≤ w → w < v + n → cell w = lcn + (w - v)

end Content

section Places

variable {β : Type*} [OfNat β 0] {cs : Int} {cell : Int → Int} {v lcn n : Int}

/-- Inside a run, the place of a byte is as far from the run's start as its offset. -/
theorem place_run
    (hrun : RunAt cell v lcn n)
    {x : Int}
    (hlo : v ≤ x / cs)
    (hhi : x / cs < v + n) :
    place cs cell x = lcn * cs + (x - v * cs) := by
  have hx := Int.ediv_mul_add_emod x cs
  rw [place, hrun _ hlo hhi]
  calc (lcn + (x / cs - v)) * cs + x % cs = lcn * cs + (x / cs * cs + x % cs - v * cs) := by ring
    _ = lcn * cs + (x - v * cs) := by rw [hx]

end Places

end NtfsPlus.ClusterFile
