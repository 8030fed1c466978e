import Fajita.FirstRun
import Mathlib.Algebra.Field.Rat
import Mathlib.Algebra.Order.Ring.Unbundled.Rat

/-!
# The steady part of a series

The experiments measure a quantity once a second and keep of the series what lies between the
start and the end of the run: the post-processing skips the samples below half of the mean, takes
those above half of the mean that follow, and drops the first and the last of them.

A sample can be half of the mean, and then it is in neither of the two tests. `stored_iff` says
what comes of it: the block of samples that are not below half of the mean is stored as it should
be exactly if it has no such sample, or is so short that nothing is left of it in any case.
-/

namespace Fajita

namespace Series

/-! ## What is stored -/

/-- `np.mean` -/
def mean (vs : List ℚ) : ℚ := vs.sum / vs.length

/-- The filter of the post-processing: what goes to `RESULTS[k]` for the series `vs`. -/
def filtered (vs : List ℚ) : List ℚ :=
  let med := mean vs
  let fil := vs.dropWhile fun x => x < med / 2
  let fil := fil.takeWhile fun x => x > med / 2
  withoutEnds fil

/-- **The steady part of the series** is stored, without its first and its last sample, exactly
if no sample of it is half of the mean, or nothing would be left of it in any case. -/
theorem stored_iff {vs block : List ℚ} (h : FirstRun (mean vs / 2 ≤ ·) vs block) :
    filtered vs = block.tail.dropLast ↔
      (∀ x ∈ block, x ≠ mean vs / 2) ∨ block.length ≤ 2 := by
  have hcode : filtered vs = withoutEnds (block.takeWhile fun x => x > mean vs / 2) := by
    rw [filtered, ← h.takeWhile fun _ => le_of_lt]
    simp only [not_le, gt_iff_lt]
  have hwhole : (block.takeWhile fun x => x > mean vs / 2) = block ↔
      ∀ x ∈ block, x ≠ mean vs / 2 := by
    rw [List.takeWhile_eq_self_iff]
    refine forall₂_congr fun x hx => ?_
    rw [decide_eq_true_iff, gt_iff_lt, lt_iff_le_and_ne, ne_comm, and_iff_right (h.all x hx)]
  rw [hcode, ← withoutEnds_eq block, withoutEnds_eq_iff (List.takeWhile_prefix _), hwhole]

/-! ## Two series -/

namespace Small

/-- The rate rises, stays and falls; no sample is 2. -/
theorem ramp_stored : filtered [0, 6, 5, 7, 6, 0] = [5, 7] :=
  (@stored_iff _ [6, 5, 7, 6]
    ⟨⟨[0], [0], rfl, by decide +kernel, by decide +kernel, by decide⟩, by decide +kernel⟩).mpr
    (.inl (by decide +kernel))

/-- One second is at half of the mean, which is 4, and ends the series. -/
theorem dip_cut : FirstRun (mean [0, 5, 2, 6, 7, 4] / 2 ≤ ·) [0, 5, 2, 6, 7, 4] [5, 2, 6, 7, 4] ∧
    filtered [0, 5, 2, 6, 7, 4] = [] ∧
    filtered [0, 5, 2, 6, 7, 4] ≠ [5, 2, 6, 7, 4].tail.dropLast :=
  ⟨⟨⟨[0], [], rfl, by decide +kernel, by decide +kernel, by decide⟩, by decide +kernel⟩,
    by decide +kernel, by decide +kernel⟩

end Small

end Series

end Fajita
