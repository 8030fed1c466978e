import Mathlib.Algebra.BigOperators.Ring.Finset
import Mathlib.Algebra.Order.BigOperators.Group.Finset
import Mathlib.Algebra.Order.Ring.Rat
import Mathlib.Algebra.Order.Group.Unbundled.Abs
import Mathlib.Tactic.NormNum

/-!
# How far two tables are apart

The distance of two tables of `n` rows and `m` columns is the sum of the absolute
differences of their entries. Where every row of both is all zeros but a single one,
it counts the rows that changed, twice (`distance_eq_changed`).
-/

namespace Fajita

open Finset (range)

variable {n m : ℕ} {M N : ℕ → ℕ → ℕ} {f g : ℕ → ℕ}

/-- The absolute differences of the entries, summed up. -/
def distance (n m : ℕ) (M N : ℕ → ℕ → ℕ) : ℚ :=
  ∑ a ∈ range n, ∑ b ∈ range m, |(M a b : ℚ) - N a b|

/-- The rows in which the tables differ. -/
def changed (n m : ℕ) (M N : ℕ → ℕ → ℕ) : ℕ :=
  ((range n).filter fun a => ∃ b < m, M a b ≠ N a b).card

theorem distance_nonneg : 0 ≤ distance n m M N :=
  Finset.sum_nonneg fun _ _ => Finset.sum_nonneg fun _ _ => abs_nonneg _

theorem distance_self : distance n m M M = 0 :=
  Finset.sum_eq_zero fun _ _ => Finset.sum_eq_zero fun _ _ => by rw [sub_self, abs_zero]

/-- Only equal tables have distance 0. -/
theorem distance_eq_zero_iff : distance n m M N = 0 ↔ ∀ a < n, ∀ b < m, M a b = N a b := by
  rw [distance, Finset.sum_eq_zero_iff_of_nonneg fun _ _ =>
    Finset.sum_nonneg fun _ _ => abs_nonneg _]
  refine forall_congr' fun a => ?_
  rw [Finset.mem_range]
  refine imp_congr_right fun _ => ?_
  rw [Finset.sum_eq_zero_iff_of_nonneg fun _ _ => abs_nonneg _]
  refine forall_congr' fun b => ?_
  rw [Finset.mem_range, abs_eq_zero, sub_eq_zero, Nat.cast_inj]

/-- A row that changes loses its one and gets another. -/
theorem row_distance {k l : ℕ} (hk : k < m) (hl : l < m)
    (hf : ∀ b < m, f b = if b = k then 1 else 0) (hg : ∀ b < m, g b = if b = l then 1 else 0) :
    ∑ b ∈ range m, |(f b : ℚ) - g b| = if ∃ b < m, f b ≠ g b then 2 else 0 := by
  by_cases hkl : k = l
  · have hsame : ∀ b < m, f b = g b := fun b hb => by rw [hf b hb, hg b hb, hkl]
    rw [if_neg fun ⟨b, hb, hne⟩ => hne (hsame b hb)]
    exact Finset.sum_eq_zero fun b hb => by
      rw [hsame b (Finset.mem_range.mp hb), sub_self, abs_zero]
  · rw [if_pos ⟨k, hk, by rw [hf k hk, hg k hk, if_pos rfl, if_neg hkl]; exact one_ne_zero⟩]
    have hterm : ∀ b ∈ range m, |(f b : ℚ) - g b| =
        (if b = k then 1 else 0) + if b = l then 1 else 0 := by
      intro b hb
      rw [hf b (Finset.mem_range.mp hb), hg b (Finset.mem_range.mp hb)]
      by_cases hbk : b = k
      · have hbl : ¬ b = l := fun h => hkl (hbk.symm.trans h)
        simp [hbk, hkl]
      · by_cases hbl : b = l <;> simp [hbk, hbl, Ne.symm hkl]
    rw [Finset.sum_congr rfl hterm, Finset.sum_add_distrib, Finset.sum_ite_eq', Finset.sum_ite_eq',
      if_pos (Finset.mem_range.mpr hk), if_pos (Finset.mem_range.mpr hl)]
    norm_num

/-- **The distance counts the rows that changed**, twice. -/
theorem distance_eq_changed
    (hM : ∀ a < n, ∃ k < m, ∀ b < m, M a b = if b = k then 1 else 0)
    (hN : ∀ a < n, ∃ k < m, ∀ b < m, N a b = if b = k then 1 else 0) :
    distance n m M N = 2 * changed n m M N := by
  have hrow : ∀ a ∈ range n, ∑ b ∈ range m, |(M a b : ℚ) - N a b| =
      if ∃ b < m, M a b ≠ N a b then 2 else 0 := by
    intro a ha
    obtain ⟨k, hk, hf⟩ := hM a (Finset.mem_range.mp ha)
    obtain ⟨l, hl, hg⟩ := hN a (Finset.mem_range.mp ha)
    exact row_distance hk hl hf hg
  rw [distance, Finset.sum_congr rfl hrow, ← Finset.sum_filter, Finset.sum_const, nsmul_eq_mul,
    changed, mul_comm]

/-- No row changed exactly if the tables are equal. -/
theorem changed_eq_zero_iff : changed n m M N = 0 ↔ ∀ a < n, ∀ b < m, M a b = N a b := by
  rw [changed, Finset.card_eq_zero, Finset.filter_eq_empty_iff]
  refine forall_congr' fun a => ?_
  rw [Finset.mem_range]
  refine imp_congr_right fun _ => ?_
  push Not
  rfl

end Fajita
