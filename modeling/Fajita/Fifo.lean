import Mathlib.Data.List.Basic

/-!
# Bounded first-in-first-out queues with burst operations

`Fifo α` is a queue that carries its own bound: a value with more items than its
capacity cannot be built. The burst operations move a prefix: `enqueueBurst`
takes as much of the burst as there is room for and *refuses* the rest (the
caller learns only the number accepted), `dequeueBurst` takes at most the
requested number off the front.

`moveAll` is the copying loop `while (count(src)) { dequeue a burst; enqueue it
in dst; }`. Its closed form `moveAll_eq` says that chunking does not matter: the
loop empties `src`, and `dst` accepts exactly the prefix it would have accepted
in a single burst.
-/

namespace Fajita

universe u

/-- A queue of at most `capacity` items, oldest first. -/
structure Fifo (α : Type u) where
  /-- how many items the queue can hold -/
  capacity : ℕ
  /-- the waiting items, oldest first -/
  items : List α
  /-- the bound is never exceeded -/
  fits : items.length ≤ capacity

namespace Fifo

variable {α : Type u}

/-- A fresh queue. -/
def empty (capacity : ℕ) : Fifo α := ⟨capacity, [], Nat.zero_le _⟩

@[simp] theorem empty_items (n : ℕ) : (empty n : Fifo α).items = [] := rfl

/-- The number of waiting items. -/
def count (Q : Fifo α) : ℕ := Q.items.length

/-- The number of free slots. -/
def free (Q : Fifo α) : ℕ := Q.capacity - Q.items.length

/-- A ring is empty if it holds nothing. -/
theorem count_eq_zero {Q : Fifo α} : Q.count = 0 ↔ Q.items = [] := List.length_eq_zero_iff

@[ext] theorem ext {Q Q' : Fifo α} (hc : Q.capacity = Q'.capacity) (hi : Q.items = Q'.items) :
    Q = Q' := by
  cases Q; cases Q'
  subst hc; subst hi
  rfl

/-- Append as much of the burst as there is room for. -/
def enqueueBurst (Q : Fifo α) (xs : List α) : Fifo α where
  capacity := Q.capacity
  items := Q.items ++ xs.take Q.free
  fits := by
    have := Q.fits
    simp only [List.length_append, List.length_take, free]
    omega

/-- The part of a burst that `enqueueBurst` does not accept. -/
def refused (Q : Fifo α) (xs : List α) : List α := xs.drop Q.free

/-- Append one item if there is room. -/
def enqueue (Q : Fifo α) (x : α) : Fifo α := Q.enqueueBurst [x]

/-- Take at most `n` items off the front. -/
def dequeueBurst (Q : Fifo α) (n : ℕ) : List α × Fifo α :=
  (Q.items.take n,
    ⟨Q.capacity, Q.items.drop n, by have := Q.fits; rw [List.length_drop]; omega⟩)

/-- The queue with everything taken out. -/
def clear (Q : Fifo α) : Fifo α := empty Q.capacity

@[simp] theorem clear_items (Q : Fifo α) : Q.clear.items = [] := rfl

@[simp] theorem enqueueBurst_capacity (Q : Fifo α) (xs : List α) :
    (Q.enqueueBurst xs).capacity = Q.capacity := rfl

/-- A burst is put behind what is there, as far as there is room. -/
@[simp] theorem enqueueBurst_items (Q : Fifo α) (xs : List α) :
    (Q.enqueueBurst xs).items = Q.items ++ xs.take Q.free := rfl

/-- A burst is taken from the front. -/
@[simp] theorem dequeueBurst_fst (Q : Fifo α) (n : ℕ) : (Q.dequeueBurst n).1 = Q.items.take n := rfl

/-- What is behind a burst stays. -/
@[simp] theorem dequeueBurst_items (Q : Fifo α) (n : ℕ) :
    (Q.dequeueBurst n).2.items = Q.items.drop n := rfl

@[simp] theorem enqueueBurst_nil (Q : Fifo α) : Q.enqueueBurst [] = Q := by
  ext1 <;> simp

@[simp] theorem refused_nil (Q : Fifo α) : Q.refused [] = [] := List.drop_nil

/-- A burst is split between what the queue accepts and what it refuses. -/
theorem accepted_append_refused (Q : Fifo α) (xs : List α) :
    xs.take Q.free ++ Q.refused xs = xs := List.take_append_drop _ _

/-- Nothing is refused if there is room. -/
theorem refused_eq_nil {Q : Fifo α} {xs : List α} :
    Q.refused xs = [] ↔ xs.length ≤ Q.free := List.drop_eq_nil_iff

/-- A burst that there is room for is put behind what is there. -/
theorem enqueueBurst_items_of_fits {Q : Fifo α} {xs : List α} (h : xs.length ≤ Q.free) :
    (Q.enqueueBurst xs).items = Q.items ++ xs := by
  rw [enqueueBurst_items, List.take_of_length_le h]

/-- A queue that holds what fits of the items offered so far goes on doing so. -/
theorem enqueue_take {Q : Fifo α} (xs : List α) (h : Q.items = xs.take Q.capacity) (x : α) :
    (Q.enqueue x).items = (xs ++ [x]).take (Q.enqueue x).capacity := by
  have hlen : Q.items.length = min Q.capacity xs.length := by rw [h, List.length_take]
  have hcap : (Q.enqueue x).capacity = Q.capacity := rfl
  rw [enqueue, enqueueBurst_items, enqueueBurst_capacity, List.take_append, ← h, free, hlen]
  congr 2
  omega

/-- What is in the ring was there, or is of the burst. -/
theorem mem_enqueueBurst {Q : Fifo α} {xs : List α} {x : α} (h : x ∈ (Q.enqueueBurst xs).items) :
    x ∈ Q.items ∨ x ∈ xs := by
  rcases List.mem_append.mp h with h | h
  · exact Or.inl h
  · exact Or.inr (List.mem_of_mem_take h)

/-- Two bursts in a row are accepted like one. -/
theorem enqueueBurst_append (Q : Fifo α) (xs ys : List α) :
    (Q.enqueueBurst xs).enqueueBurst ys = Q.enqueueBurst (xs ++ ys) := by
  ext1
  · rfl
  · simp only [enqueueBurst_items, free, enqueueBurst_capacity, List.length_append,
      List.length_take, List.take_append, List.append_assoc]
    congr 3
    omega

/-- Two bursts in a row lose what one burst of both would lose. -/
theorem refused_append (Q : Fifo α) (xs ys : List α) :
    Q.refused xs ++ (Q.enqueueBurst xs).refused ys = Q.refused (xs ++ ys) := by
  simp only [refused, enqueueBurst_items, free, enqueueBurst_capacity, List.length_append,
    List.length_take, List.drop_append]
  congr 2
  omega

/-! ## The copying loop -/

/-- At most `fuel` iterations of
`while (count(src)) { cnt = dequeue_burst(src, burst); enqueue_burst(dst, cnt); }`,
collecting what `dst` refuses. -/
def moveAux (burst : ℕ) : ℕ → Fifo α → Fifo α → List α → Fifo α × Fifo α × List α
  | 0, src, dst, lost => (src, dst, lost)
  | fuel + 1, src, dst, lost =>
    if src.count = 0 then (src, dst, lost)
    else
      let xs := (src.dequeueBurst burst).1
      moveAux burst fuel (src.dequeueBurst burst).2 (dst.enqueueBurst xs) (lost ++ dst.refused xs)

/-- The copying loop. With a positive `burst` every iteration takes an item, so
`src.count` iterations are enough. -/
def moveAll (burst : ℕ) (src dst : Fifo α) : Fifo α × Fifo α × List α :=
  moveAux burst src.count src dst []

/-- With fuel for what is in `src`, the loop moves all of it, a burst at a time, as if in one go. -/
theorem moveAux_eq {burst : ℕ} (hpos : 0 < burst) :
    ∀ (fuel : ℕ) (src dst : Fifo α) (lost : List α), src.count ≤ fuel →
      moveAux burst fuel src dst lost =
        (src.clear, dst.enqueueBurst src.items, lost ++ dst.refused src.items) := by
  intro fuel
  induction fuel with
  | zero =>
    intro src dst lost hfuel
    have hnil : src.items = [] := count_eq_zero.mp (by omega)
    have hclear : src.clear = src := by ext1 <;> simp [clear, empty, hnil]
    rw [moveAux, hclear, hnil, enqueueBurst_nil, refused_nil, List.append_nil]
  | succ fuel ih =>
    intro src dst lost hfuel
    by_cases h0 : src.count = 0
    · have hnil : src.items = [] := count_eq_zero.mp h0
      have hclear : src.clear = src := by ext1 <;> simp [clear, empty, hnil]
      rw [moveAux, if_pos h0, hclear, hnil, enqueueBurst_nil, refused_nil, List.append_nil]
    · have hless : (src.dequeueBurst burst).2.count ≤ fuel := by
        simp only [count, dequeueBurst_items, List.length_drop] at h0 hfuel ⊢
        omega
      rw [moveAux, if_neg h0, ih _ _ _ hless, enqueueBurst_append, List.append_assoc,
        refused_append, dequeueBurst_fst, dequeueBurst_items, List.take_append_drop]
      rfl

/-- **Chunking does not matter**: the copying loop empties the source, and the
destination accepts what it would have accepted in one burst. -/
theorem moveAll_eq {burst : ℕ} {src dst : Fifo α} (h : src.items ≠ [] → 0 < burst) :
    moveAll burst src dst = (src.clear, dst.enqueueBurst src.items, dst.refused src.items) := by
  by_cases hnil : src.items = []
  · have hclear : src.clear = src := by ext1 <;> simp [clear, empty, hnil]
    rw [moveAll, count_eq_zero.mpr hnil, moveAux, hclear, hnil, enqueueBurst_nil, refused_nil]
  · rw [moveAll, moveAux_eq (h hnil) _ _ _ _ (Nat.le_refl _), List.nil_append]

end Fifo

end Fajita
