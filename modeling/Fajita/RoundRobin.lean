import Mathlib.Data.List.DropRight
import Mathlib.Data.Nat.Find
import Mathlib.Tactic.Ring
import Mathlib.Tactic.Linarith

/-!
# Taking turns

A counter that wraps at `N` picks the places of a list of length `n` in turn. `turn` says how long
it takes until a place is picked, the wrap included (`turn_lt`). The queue at that place is served
from the front, and may grow at the back: `depth` counts what must be taken until an item is gone.
-/

namespace Fajita

/-! ## The counter

A counter of 32 bits is taken modulo the length of a list. When it wraps around, the rotation may
jump; but after the jump it goes round as before.
-/

variable {N n i c : ℕ}

/-- **The counter comes by** every place within two rounds, even if it wraps around on the way. -/
theorem exists_turn (hn : n ≤ N) (hi : i < n) (hc : c < N) :
    ∃ m < 2 * n, (c + m) % N % n = i := by
  have hmod := Nat.mod_lt c (Nat.zero_lt_of_lt hi)
  have hdiv := Nat.div_add_mod c n
  rcases Nat.lt_or_ge (c + n) N with hsmall | hlarge
  · -- within the next round, before the counter wraps
    obtain ⟨m, hm, k, hsum⟩ : ∃ m < n, ∃ k, c + m = i + n * k := by
      rcases Nat.lt_or_ge i (c % n) with hlt | hge
      · refine ⟨n - c % n + i, by omega, c / n + 1, ?_⟩
        rw [Nat.mul_add, Nat.mul_one]
        omega
      · exact ⟨i - c % n, by omega, c / n, by omega⟩
    have hsame : (c + m) % N = i + n * k := by
      rw [Nat.mod_eq_of_lt (show c + m < N by omega), hsum]
    refine ⟨m, by omega, ?_⟩
    rw [hsame, Nat.add_mul_mod_self_left, Nat.mod_eq_of_lt hi]
  · -- in the round after the wrap
    have hwrap : (c + (N - c + i)) % N = i := by
      rw [show c + (N - c + i) = i + N by omega, Nat.add_mod_right,
        Nat.mod_eq_of_lt (hi.trans_le hn)]
    refine ⟨N - c + i, by omega, ?_⟩
    rw [hwrap, Nat.mod_eq_of_lt hi]

open Classical in
/-- How often the counter `c` moves on before it picks place `i` of `n`. -/
noncomputable def turn (N n i c : ℕ) : ℕ :=
  if h : ∃ m, (c + m) % N % n = i then Nat.find h else 0

section

variable (hn : n ≤ N) (hi : i < n) (hc : c < N)

include hn hi hc

/-- The turn of a place is less than two rounds away. -/
theorem turn_lt : turn N n i c < 2 * n := by
  obtain ⟨m, hm, hpick⟩ := exists_turn hn hi hc
  have h : ∃ m, (c + m) % N % n = i := ⟨m, hpick⟩
  rw [turn, dif_pos h]
  exact (Nat.find_min' h hpick).trans_lt hm

/-- The counter moves on. -/
theorem turn_succ (h : c % n ≠ i) : turn N n i ((c + 1) % N) + 1 = turn N n i c := by
  obtain ⟨m, -, hpick⟩ := exists_turn hn hi hc
  have hnow : ∃ m, (c + m) % N % n = i := ⟨m, hpick⟩
  have hshift : ∀ m, ((c + 1) % N + m) % N % n = i ↔ (c + (m + 1)) % N % n = i := by
    intro m
    rw [Nat.mod_add_mod, Nat.add_assoc, Nat.add_comm 1 m]
  have hlater : ∃ m, (c + (m + 1)) % N % n = i := by
    cases m with
    | zero =>
      rw [Nat.add_zero, Nat.mod_eq_of_lt hc] at hpick
      exact absurd hpick h
    | succ m => exact ⟨m, hpick⟩
  have hnext : ∃ m, ((c + 1) % N + m) % N % n = i := by
    obtain ⟨m, hm⟩ := hlater
    exact ⟨m, (hshift m).mpr hm⟩
  have hfirst : ¬ (c + 0) % N % n = i := by rwa [Nat.add_zero, Nat.mod_eq_of_lt hc]
  rw [turn, turn, dif_pos hnow, dif_pos hnext, Nat.find_comp_succ hnow hlater hfirst]
  congr 1
  exact Nat.find_congr' fun {m} => hshift m

end

/-! ## The queue

An item in a queue is gone when the last copy of it is gone.
-/

variable {α : Type*} [DecidableEq α] {a : α} {xs ys : List α}

/-- How many items go until the last `a` is gone. -/
def depth (a : α) (xs : List α) : ℕ := (xs.rdropWhile (· ≠ a)).length

/-- No more items go than there are. -/
theorem depth_le (a : α) (xs : List α) : depth a xs ≤ xs.length :=
  (List.rdropWhile_prefix ..).length_le

/-- Nothing has to go if there is no `a`. -/
theorem depth_eq_zero_iff : depth a xs = 0 ↔ a ∉ xs := by
  rw [depth, List.length_eq_zero_iff, List.rdropWhile_eq_nil_iff]
  simp only [decide_eq_true_eq]
  exact ⟨fun h ha => h a ha rfl, fun h x hx hxa => h (hxa ▸ hx)⟩

/-- What comes later does not count. -/
theorem depth_append (h : a ∉ ys) : depth a (xs ++ ys) = depth a xs := by
  induction ys using List.reverseRecOn with
  | nil => rw [List.append_nil]
  | append_singleton ys y ih =>
    obtain ⟨hys, hy⟩ : a ∉ ys ∧ y ≠ a := by
      rw [List.mem_append, not_or, List.mem_singleton] at h
      exact ⟨h.1, Ne.symm h.2⟩
    rw [depth, ← List.append_assoc, List.rdropWhile_concat_pos _ _ _ (by simp [hy]), ← depth,
      ih hys]

/-- Serving from the front. -/
theorem depth_drop (b : ℕ) : depth a (xs.drop b) = depth a xs - b := by
  induction xs using List.reverseRecOn with
  | nil => simp [depth]
  | append_singleton xs x ih =>
    by_cases hx : x = a
    · have hall : ∀ ys : List α, depth a (ys ++ [x]) = ys.length + 1 := by
        intro ys
        rw [depth, List.rdropWhile_concat_neg _ _ _ (by simp [hx]), List.length_append,
          List.length_singleton]
      rcases Nat.lt_or_ge xs.length b with hlt | hge
      · rw [List.drop_eq_nil_of_le (by rw [List.length_append, List.length_singleton]; omega), hall]
        simp [depth]
        omega
      · rw [List.drop_append_of_le_length hge, hall, hall, List.length_drop]
        omega
    · have hlast : a ∉ [x] := fun h => hx (List.mem_singleton.mp h).symm
      rw [depth_append hlast, ← ih]
      rcases Nat.lt_or_ge xs.length b with hlt | hge
      · rw [List.drop_eq_nil_of_le (by rw [List.length_append, List.length_singleton]; omega),
          List.drop_eq_nil_of_le hlt.le]
      · rw [List.drop_append_of_le_length hge, depth_append hlast]

/-! ## The places -/

/-- Taking out another item does not move an item back. -/
theorem idxOf_filter_le {x : α} (h : a ≠ x) : (xs.filter (· ≠ x)).idxOf a ≤ xs.idxOf a := by
  induction xs with
  | nil => exact le_refl _
  | cons y xs ih =>
    by_cases hy : y = a
    · subst hy
      rw [List.filter_cons_of_pos (by simp [h]), List.idxOf_cons_self]
      exact Nat.zero_le _
    · rw [List.idxOf_cons_ne _ hy]
      by_cases hyx : y = x
      · rw [List.filter_cons_of_neg (by simp [hyx])]
        omega
      · rw [List.filter_cons_of_pos (by simp [hyx]), List.idxOf_cons_ne _ hy]
        omega

/-- What is at the place of `a` in a list without repetitions. -/
theorem getElem?_eq_some_iff_idxOf (h : xs.Nodup) (ha : a ∈ xs) {j : ℕ} :
    xs[j]? = some a ↔ j = xs.idxOf a := by
  have hself : xs[xs.idxOf a]? = some a := List.getElem?_idxOf ha
  constructor
  · intro hj
    exact (List.getElem?_inj (List.getElem?_eq_some_iff.mp hj).1 h).mp (hj.trans hself.symm)
  · rintro rfl
    exact hself

/-! ## The score -/

/-- Three counts in one: the first matters most. -/
def score (n k i t : ℕ) : ℕ := k * (2 * n * n) + i * (2 * n) + t

variable {k k' i' t t' : ℕ}

/-- The score of `k` items is less than `k + 1` full rounds for each place. -/
theorem score_lt (hi : i < n) (ht : t < 2 * n) : score n k i t < (k + 1) * (2 * n * n) := by
  have hplace : i * (2 * n) + t < 2 * n * n := by
    calc i * (2 * n) + t < i * (2 * n) + 2 * n := Nat.add_lt_add_left ht _
      _ = (i + 1) * (2 * n) := by ring
      _ ≤ n * (2 * n) := Nat.mul_le_mul_right _ hi
      _ = 2 * n * n := by ring
  rw [score, Nat.add_mul, Nat.one_mul, Nat.add_assoc]
  exact Nat.add_lt_add_left hplace _

/-- Fewer items to go, wherever the counter is. -/
theorem score_lt_of_fewer (hk : k' < k) (hi : i' < n) (ht : t' < 2 * n) :
    score n k' i' t' < score n k i t := by
  have hle : (k' + 1) * (2 * n * n) ≤ k * (2 * n * n) := Nat.mul_le_mul_right _ hk
  have hlt := score_lt (k := k') hi ht
  rw [score] at hlt ⊢
  rw [score]
  omega

/-- A place nearer to the front, wherever the counter is. -/
theorem score_le (hk : k' ≤ k) (hi : i' ≤ i) (hin : i < n) (ht' : t' < 2 * n)
    (ht : k' = k → i' = i → t' ≤ t) : score n k' i' t' ≤ score n k i t := by
  rcases hk.lt_or_eq with hlt | rfl
  · exact (score_lt_of_fewer hlt (hi.trans_lt hin) ht').le
  · rcases hi.lt_or_eq with hlt | rfl
    · have hle : (i' + 1) * (2 * n) ≤ i * (2 * n) := Nat.mul_le_mul_right _ hlt
      rw [Nat.add_mul, Nat.one_mul] at hle
      rw [score, score]
      omega
    · exact Nat.add_le_add_left (ht rfl rfl) _

end Fajita
