import Mathlib.Data.Nat.ModEq
import Mathlib.Data.UInt
import Mathlib.Logic.Function.Basic

/-!
# Logs in a ring

A ring of `size` cells behind a 32-bit counter that only ever grows: an entry goes to the cell
that the counter names modulo `size`. When the counter wraps around, nothing moves, provided
`size` divides `2 ^ 32`; so at any time the ring holds the last `size` entries, each where its
number puts it.
-/

namespace Fajita

universe u

/-- The cells, of which some may not have been written yet, and the counter. -/
structure RingLog (α : Type u) (size : ℕ) where
  /-- entries so far -/
  count : UInt32
  /-- the cells -/
  cell : ℕ → Option α

namespace RingLog

variable {α : Type u} {size : ℕ}

/-- `cell[count++ % size] = x` -/
def push (r : RingLog α size) (x : α) : RingLog α size where
  count := r.count + 1
  cell := Function.update r.cell (r.count.toNat % size) (some x)

/-- Every push counts. -/
@[simp] theorem count_push (r : RingLog α size) (x : α) : (r.push x).count = r.count + 1 := rfl

/-- A push writes one cell. -/
@[simp] theorem cell_push (r : RingLog α size) (x : α) :
    (r.push x).cell = Function.update r.cell (r.count.toNat % size) (some x) := rfl

/-- The ring after the entries `xs`: it counts them, and has the last of them. -/
structure Holds (r : RingLog α size) (xs : List α) : Prop where
  /-- the counter, modulo its width -/
  count : r.count = UInt32.ofNat xs.length
  /-- the last entries -/
  last : ∀ i (hi : i < xs.length), xs.length ≤ i + size → r.cell (i % size) = some xs[i]

theorem Holds.nil {r : RingLog α size} (h : r.count = 0) : r.Holds [] :=
  ⟨h, fun i hi => absurd hi (Nat.not_lt_zero i)⟩

/-- **A push is an entry**, also when the counter wraps around. -/
theorem Holds.push {r : RingLog α size} {xs : List α} (hsize : size ∣ 2 ^ 32)
    (h : r.Holds xs) (x : α) : (r.push x).Holds (xs ++ [x]) := by
  have hcell : r.count.toNat % size = xs.length % size := by
    rw [h.count, UInt32.toNat_ofNat', Nat.mod_mod_of_dvd _ hsize]
  refine ⟨?_, fun i hi hlast => ?_⟩
  · rw [count_push, h.count, List.length_append, List.length_singleton, UInt32.ofNat_add]
    rfl
  · rw [List.length_append, List.length_singleton] at hi hlast
    rcases Nat.lt_succ_iff_lt_or_eq.mp hi with hold | rfl
    · -- an older entry is less than a round behind, so in another cell
      have hne : i % size ≠ r.count.toNat % size := by
        rw [hcell]
        intro heq
        obtain ⟨d, hd⟩ := Nat.exists_eq_add_of_lt hold
        have hmod : i + 0 ≡ i + (d + 1) [MOD size] := by
          rw [Nat.add_zero, ← Nat.add_assoc, ← hd]
          exact heq
        have hzero : (d + 1) % size = 0 := (Nat.ModEq.add_left_cancel' i hmod).symm
        rw [Nat.mod_eq_of_lt (by omega)] at hzero
        omega
      rw [cell_push, Function.update_of_ne hne, h.last i hold (by omega),
        List.getElem_append_left hold]
    · rw [cell_push, ← hcell, Function.update_self, List.getElem_append_right le_rfl]
      simp

end RingLog

end Fajita
