import Mathlib.Algebra.BigOperators.Ring.Finset
import Mathlib.Algebra.Order.BigOperators.Group.Finset
import Mathlib.Data.Fin.Tuple.Sort
import Mathlib.Logic.Equiv.Basic
import Mathlib.Tactic.Ring

/-!
# Dealing out

A table of zeros and ones whose rows have a single one deals the rows out to the columns. Up to
the names of the columns, those that get many rows come first (`exists_sorted`). A row of ones and
zeros that never goes up again is known from its sum (`stairs_eq`).
-/

namespace Fajita

open Finset (range Ico)

variable {n m : ℕ} {f : ℕ → ℕ}

/-- Row `a` has its one in column `f a`. -/
def dealing (f : ℕ → ℕ) (a b : ℕ) : ℕ := if f a = b then 1 else 0

/-- How many of the first `n` rows column `b` gets. -/
def dealt (n : ℕ) (f : ℕ → ℕ) (b : ℕ) : ℕ := ((range n).filter fun a => f a = b).card

theorem dealing_le_one (a b : ℕ) : dealing f a b ≤ 1 := by
  rw [dealing]
  split <;> omega

/-- Each thing is dealt once. -/
theorem sum_dealing_row {a : ℕ} (h : f a < m) : ∑ b ∈ range m, dealing f a b = 1 := by
  simp only [dealing]
  rw [Finset.sum_ite_eq, if_pos (Finset.mem_range.mpr h)]

/-- The column of a hand is what has been dealt to it. -/
theorem sum_dealing_column (b : ℕ) : ∑ a ∈ range n, dealing f a b = dealt n f b := by
  simp only [dealing]
  rw [dealt, Finset.card_filter]

/-- A hand has something exactly if something has been dealt to it. -/
theorem dealt_pos_iff {b : ℕ} : 1 ≤ dealt n f b ↔ ∃ a < n, f a = b := by
  rw [dealt, Nat.one_le_iff_ne_zero, Finset.card_ne_zero]
  simp only [Finset.Nonempty, Finset.mem_filter, Finset.mem_range]

/-- A hand that nothing is dealt to is empty. -/
theorem dealt_eq_zero {b : ℕ} (h : ∀ a < n, f a ≠ b) : dealt n f b = 0 := by
  rw [dealt, Finset.card_eq_zero, Finset.filter_eq_empty_iff]
  exact fun a ha => h a (Finset.mem_range.mp ha)

/-- With the columns renamed. -/
theorem dealt_comp (π : Equiv.Perm ℕ) (b : ℕ) : dealt n (π ∘ f) b = dealt n f (π.symm b) := by
  rw [dealt, dealt]
  congr 1
  refine Finset.filter_congr fun a _ => ?_
  rw [Function.comp_apply, ← Equiv.eq_symm_apply]

/-- A table whose rows have a single one is a dealing. -/
theorem exists_dealing {M : ℕ → ℕ → ℕ}
    (h : ∀ a < n, ∃ k < m, ∀ b < m, M a b = if b = k then 1 else 0) :
    ∃ f : ℕ → ℕ, ∀ a < n, f a < m ∧ ∀ b < m, M a b = dealing f a b := by
  choose! f hf using h
  refine ⟨f, fun a ha => ⟨(hf a ha).1, fun b hb => ?_⟩⟩
  rw [(hf a ha).2 b hb, dealing]
  simp only [eq_comm]

/-- **Sorting**: the columns can be renamed so that none gets more rows than the one before it. -/
theorem exists_sorted (n m : ℕ) (f : ℕ → ℕ) : ∃ π : Equiv.Perm ℕ, (∀ b < m, π b < m) ∧
    (∀ b < m, π.symm b < m) ∧ ∀ b, b + 1 < m → dealt n (π ∘ f) (b + 1) ≤ dealt n (π ∘ f) b := by
  -- the columns with many rows first
  obtain ⟨σ, hσ⟩ : ∃ σ, σ = Tuple.sort fun b : Fin m => OrderDual.toDual (dealt n f b) := ⟨_, rfl⟩
  obtain ⟨π, hπ⟩ : ∃ π, π = σ.extendDomain Fin.equivSubtype := ⟨_, rfl⟩
  have happly : ∀ b (hb : b < m), π b = σ ⟨b, hb⟩ := by
    intro b hb
    rw [hπ]
    exact Equiv.Perm.extendDomain_apply_image σ Fin.equivSubtype ⟨b, hb⟩
  have hsymm : ∀ b (hb : b < m), π.symm b = σ.symm ⟨b, hb⟩ := by
    intro b hb
    rw [Equiv.symm_apply_eq, happly _ (σ.symm ⟨b, hb⟩).isLt, Fin.eta, Equiv.apply_symm_apply]
  refine ⟨π.symm, fun b hb => ?_, fun b hb => ?_, fun b hb => ?_⟩
  · rw [hsymm b hb]
    exact (σ.symm ⟨b, hb⟩).isLt
  · rw [Equiv.symm_symm, happly b hb]
    exact (σ ⟨b, hb⟩).isLt
  · rw [dealt_comp, dealt_comp, Equiv.symm_symm, happly _ hb, happly b (Nat.lt_of_succ_lt hb), hσ]
    exact Tuple.monotone_sort (fun b : Fin m => OrderDual.toDual (dealt n f b))
      (Fin.mk_le_mk.mpr (Nat.le_succ b))

/-! ## Stairs -/

/-- A row of ones and then zeros. -/
theorem sum_stairs (k n : ℕ) : ∑ i ∈ range n, (if i < k then 1 else 0) = min k n := by
  induction n with
  | zero => rw [Finset.sum_range_zero, Nat.min_zero]
  | succ n ih =>
    rw [Finset.sum_range_succ, ih]
    split <;> omega

/-- Where it goes down is its sum. -/
theorem stairs_eq {w : ℕ → ℕ} (hw : ∀ i < n, w i ≤ 1) (hdown : ∀ i < n - 1, w (i + 1) ≤ w i) :
    ∀ i < n, w i = if i < ∑ k ∈ range n, w k then 1 else 0 := by
  induction n with
  | zero => exact fun i hi => absurd hi (Nat.not_lt_zero i)
  | succ n ih =>
    have hprev := ih (fun i hi => hw i (Nat.lt_succ_of_lt hi)) fun i hi => hdown i (by omega)
    have hle : ∑ k ∈ range n, w k ≤ n := by
      calc ∑ k ∈ range n, w k ≤ ∑ _k ∈ range n, 1 :=
            Finset.sum_le_sum fun k hk => hw k (by have := Finset.mem_range.mp hk; omega)
        _ = n := by simp
    -- after a zero there are only zeros
    have hlast : w n = 0 ∨ w n = 1 ∧ ∑ k ∈ range n, w k = n := by
      rcases Nat.eq_zero_or_pos (w n) with h0 | h1
      · exact Or.inl h0
      · refine Or.inr ⟨by have := hw n n.lt_succ_self; omega, ?_⟩
        rcases Nat.eq_zero_or_pos n with rfl | hn
        · rfl
        · have hdown' := hdown (n - 1) (by omega)
          rw [Nat.sub_add_cancel hn] at hdown'
          have hbefore := hprev (n - 1) (by omega)
          split at hbefore <;> omega
    intro i hi
    rw [Finset.sum_range_succ]
    rcases hlast with h0 | ⟨h1, hsum⟩
    · rw [h0, Nat.add_zero]
      rcases Nat.lt_succ_iff_lt_or_eq.mp hi with hi | rfl
      · exact hprev i hi
      · rw [h0, if_neg (by omega)]
    · rw [h1, hsum, if_pos hi]
      rcases Nat.lt_succ_iff_lt_or_eq.mp hi with hi | rfl
      · rw [hprev i hi, hsum, if_pos hi]
      · exact h1

end Fajita
