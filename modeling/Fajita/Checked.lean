import Mathlib.Data.List.Basic

/-!
# Arrays whose bounds are checked

`assignAt a i x` is the assignment `a[i] = x`, and nothing if `a` has no element `i`: a computation
that goes through has written within its arrays only.
-/

namespace Fajita

universe u

variable {α : Type u}

/-- `a[i] = x`, if the array has an element `i`. -/
def assignAt (a : Array α) (i : ℕ) (x : α) : Option (Array α) :=
  if h : i < a.size then some (a.set i x h) else none

variable {a a' : Array α} {i : ℕ} {x : α}

theorem assignAt_eq_none_iff : assignAt a i x = none ↔ a.size ≤ i := by
  rw [assignAt]
  split
  · next h => exact iff_of_false nofun (Nat.not_le.mpr h)
  · next h => exact iff_of_true rfl (Nat.not_lt.mp h)

theorem assignAt_of_lt (h : i < a.size) : assignAt a i x = some (a.set i x h) := dif_pos h

theorem assignAt_of_le (h : a.size ≤ i) : assignAt a i x = none := assignAt_eq_none_iff.mpr h

end Fajita
