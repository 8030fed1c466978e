import Mathlib.Data.List.TakeWhile
import Mathlib.Data.List.Infix
import Mathlib.Tactic.ByContra

/-!
# The first run of a list

`FirstRun p xs run` says that `run` is the part of `xs` that starts at the first element with `p`
and ends before the next one without. There is exactly one, and `dropWhile` and `takeWhile` find
it; with a stronger test `takeWhile` finds a part of it, from the start on (`FirstRun.takeWhile`).

`withoutEnds` is a list without its first and its last element, and `withoutEnds_eq_iff` says when a
part from the start on is the same without the ends as the whole.
-/

namespace Fajita

universe u

variable {α : Type u} {p q : α → Prop} {xs run : List α}

/-- `run` is the part of `xs` that starts at the first element with `p` and ends before the next
one without. -/
structure FirstRun (p : α → Prop) (xs run : List α) : Prop where
  /-- `run` is a part of the list; before it there is no element with `p`, and after it one
  without comes first -/
  split : ∃ before after, xs = before ++ run ++ after ∧ (∀ x ∈ before, ¬ p x) ∧
    (∀ x ∈ after.head?, ¬ p x) ∧ (run = [] → after = [])
  /-- all its elements have `p` -/
  all : ∀ x ∈ run, p x

variable [DecidablePred p] [DecidablePred q]

/-- There is one such part. -/
theorem firstRun_dropWhile (p : α → Prop) [DecidablePred p] (xs : List α) :
    FirstRun p xs ((xs.dropWhile (¬ p ·)).takeWhile (p ·)) := by
  refine ⟨⟨xs.takeWhile (¬ p ·), (xs.dropWhile (¬ p ·)).dropWhile (p ·), ?_, ?_, ?_, ?_⟩, ?_⟩
  · rw [List.append_assoc, List.takeWhile_append_dropWhile, List.takeWhile_append_dropWhile]
  · intro x hx
    simpa using List.mem_takeWhile_imp hx
  · intro x hx
    have := List.head?_dropWhile_not (p ·) (xs.dropWhile (¬ p ·))
    rw [Option.mem_def.mp hx] at this
    simpa using this
  · intro hnil
    cases hrest : xs.dropWhile (¬ p ·) with
    | nil => rfl
    | cons x rest =>
      have hx := List.head?_dropWhile_not (¬ p ·) xs
      rw [hrest] at hx hnil
      have hp : p x := by simpa using hx
      rw [List.takeWhile_cons_of_pos (by simpa using hp)] at hnil
      cases hnil
  · intro x hx
    simpa using List.mem_takeWhile_imp hx

/-- A list has one first run only. -/
theorem FirstRun.eq (h : FirstRun p xs run) :
    run = (xs.dropWhile (¬ p ·)).takeWhile (p ·) := by
  obtain ⟨⟨before, after, rfl, hbefore, hafter, hnil⟩, hall⟩ := h
  rw [List.append_assoc, List.dropWhile_append_of_pos (by simpa using hbefore)]
  cases run with
  | nil =>
    rw [hnil rfl]
    rfl
  | cons x run =>
    rw [List.cons_append, List.dropWhile_cons_of_neg (by simpa using hall x List.mem_cons_self),
      ← List.cons_append, List.takeWhile_append_of_pos (by simpa using hall)]
    cases after with
    | nil => rw [List.takeWhile_nil, List.append_nil]
    | cons y after =>
      rw [List.takeWhile_cons_of_neg (by simpa using hafter y rfl), List.append_nil]

/-- A stronger test ends the run earlier. -/
theorem FirstRun.takeWhile (h : FirstRun p xs run) (hq : ∀ x, q x → p x) :
    (xs.dropWhile (¬ p ·)).takeWhile (q ·) = run.takeWhile (q ·) := by
  rw [h.eq, List.takeWhile_takeWhile]
  congr 1
  funext x
  by_cases hx : q x
  · simp [hx, hq x hx]
  · simp [hx]

/-! ## Without the ends -/

/-- The list without its first and its last element: `l[1:-1]` in Python. -/
def withoutEnds (l : List α) : List α := (l.take (l.length - 1)).drop 1

theorem withoutEnds_eq (l : List α) : withoutEnds l = l.tail.dropLast := by
  rw [withoutEnds, ← List.dropLast_eq_take, List.drop_one, List.tail_dropLast]

/-- A part from the start on is the same without the ends as the whole only if it is the whole, or
if the whole has nothing between its ends. -/
theorem withoutEnds_eq_iff {l l' : List α} (h : l <+: l') :
    withoutEnds l = withoutEnds l' ↔ l = l' ∨ l'.length ≤ 2 := by
  have hle := h.length_le
  have hlength : ∀ k : List α, (withoutEnds k).length = k.length - 2 := by
    intro k
    rw [withoutEnds_eq, List.length_dropLast, List.length_tail]
    omega
  constructor
  · intro heq
    by_contra! hboth
    obtain ⟨hne, hlong⟩ := hboth
    have hlen := congrArg List.length heq
    rw [hlength, hlength] at hlen
    exact hne (h.eq_of_length (by omega))
  · rintro (rfl | hshort)
    · rfl
    · have hnil : ∀ k : List α, k.length ≤ 2 → withoutEnds k = [] := fun k hk =>
        List.length_eq_zero_iff.mp (by rw [hlength]; omega)
      rw [hnil l (by omega), hnil l' hshort]

end Fajita
