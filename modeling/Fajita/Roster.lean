import Mathlib.Data.List.Basic
import Mathlib.Data.List.Pairwise

/-!
# Membership requests: in order, or removals first

A roster is a list of members changed by *requests*: `add r` appends `r`,
`remove r` deletes every occurrence of `r`. A word of requests has two readings:

* `inOrder Q u` — one request at a time, in the order of the word;
* `removesFirst Q u` — all the removals, then all the additions, each group in
  its own order. This is what a reader gets that receives the two kinds of
  requests through two separate queues.

The two differ only in the additions that a later removal would have taken out
again (`survivors`), so they agree exactly on the words in which no addition is
followed by a removal of the same member: `removesFirst_eq_inOrder_iff`.
-/

namespace Fajita

universe u

/-- A change of the roster. -/
inductive Request (α : Type u) : Type u where
  /-- take every occurrence of the member out -/
  | remove : α → Request α
  /-- append the member -/
  | add : α → Request α
  deriving DecidableEq

namespace Request

variable {α : Type u} [DecidableEq α]

/-- Carry out one request. -/
def apply (Q : List α) : Request α → List α
  | remove r => Q.filter (· ≠ r)
  | add r => Q ++ [r]

/-- Carry out the requests one at a time, in order. -/
def inOrder (Q : List α) (u : List (Request α)) : List α := u.foldl apply Q

omit [DecidableEq α] in
/-- The members the word asks to remove, in order. -/
def removes : List (Request α) → List α
  | [] => []
  | remove r :: u => r :: removes u
  | add _ :: u => removes u

/-- The members the word asks to add, in order. -/
def adds : List (Request α) → List α
  | [] => []
  | remove _ :: u => adds u
  | add r :: u => r :: adds u

/-- Carry out a queue of removals and then a queue of additions. -/
def drain (Q rm ad : List α) : List α :=
  ad.foldl (fun Q r => Q ++ [r]) (rm.foldl (fun Q r => Q.filter (· ≠ r)) Q)

/-- All the removals of the word, then all its additions. -/
def removesFirst (Q : List α) (u : List (Request α)) : List α := drain Q (removes u) (adds u)

/-- The second request takes out what the first one added. -/
def Undoes : Request α → Request α → Prop
  | add r, remove q => r = q
  | _, _ => False

instance : DecidableRel (@Undoes α)
  | add r, remove q => inferInstanceAs (Decidable (r = q))
  | add _, add _ => inferInstanceAs (Decidable False)
  | remove _, remove _ => inferInstanceAs (Decidable False)
  | remove _, add _ => inferInstanceAs (Decidable False)

/-- No addition is followed by a removal of the same member. -/
def NoAddThenRemove (u : List (Request α)) : Prop := u.Pairwise fun a b => ¬ Undoes a b

instance (u : List (Request α)) : Decidable (NoAddThenRemove u) :=
  inferInstanceAs (Decidable (u.Pairwise fun a b => ¬ Undoes a b))

/-- The additions that no later removal takes out again. -/
def survivors : List (Request α) → List α
  | [] => []
  | remove _ :: u => survivors u
  | add r :: u => if r ∈ removes u then survivors u else r :: survivors u

omit [DecidableEq α] in
theorem mem_removes {r : α} {u : List (Request α)} : r ∈ removes u ↔ remove r ∈ u := by
  induction u with
  | nil => simp [removes]
  | cons a u ih =>
    cases a with
    | remove q => simp [removes, ih]
    | add q => simp [removes, ih]

omit [DecidableEq α] in
/-- The removals of two lists of requests, one after the other. -/
@[simp] theorem removes_append (u v : List (Request α)) :
    removes (u ++ v) = removes u ++ removes v := by
  induction u with
  | nil => rfl
  | cons a u ih => cases a <;> simp [removes, ih]

omit [DecidableEq α] in
/-- The additions of two lists of requests, one after the other. -/
@[simp] theorem adds_append (u v : List (Request α)) : adds (u ++ v) = adds u ++ adds v := by
  induction u with
  | nil => rfl
  | cons a u ih => cases a <;> simp [adds, ih]

/-- Taking one out and then the rest of a list takes out the whole list. -/
theorem filter_ne_filter_notMem (Q l : List α) (r : α) :
    (Q.filter (· ≠ r)).filter (· ∉ l) = Q.filter (· ∉ r :: l) := by
  rw [List.filter_filter]
  refine List.filter_congr fun x _ => ?_
  rw [← Bool.decide_and, decide_eq_decide, List.mem_cons, not_or, and_comm]

/-- Requests are carried out one part after the other. -/
theorem inOrder_append (Q : List α) (u v : List (Request α)) :
    inOrder Q (u ++ v) = inOrder (inOrder Q u) v := List.foldl_append

/-- A removal at the end takes every copy of the ring out. -/
theorem inOrder_remove (Q : List α) (u : List (Request α)) (r : α) :
    inOrder Q (u ++ [remove r]) = (inOrder Q u).filter (· ≠ r) := inOrder_append Q u _

/-- An addition at the end puts the ring behind the others. -/
theorem inOrder_add (Q : List α) (u : List (Request α)) (r : α) :
    inOrder Q (u ++ [add r]) = inOrder Q u ++ [r] := inOrder_append Q u _

/-- Additions alone are served one after the other. -/
theorem inOrder_adds (Q rs : List α) : inOrder Q (rs.map add) = Q ++ rs := by
  induction rs generalizing Q with
  | nil => simp [inOrder]
  | cons r rs ih =>
    rw [List.map_cons, inOrder, List.foldl_cons, ← inOrder, ih, apply, List.append_assoc,
      List.singleton_append]

/-- Removals in order: what is not removed stays. -/
theorem inOrder_removes (Q rs : List α) : inOrder Q (rs.map remove) = Q.filter (· ∉ rs) := by
  induction rs generalizing Q with
  | nil => simp [inOrder]
  | cons r rs ih =>
    rw [List.map_cons, inOrder, List.foldl_cons, ← inOrder, ih, apply, filter_ne_filter_notMem]

omit [DecidableEq α] in
/-- A word that removes and adds nothing is empty. -/
theorem eq_nil_of_removes_adds {u : List (Request α)} (hr : removes u = []) (ha : adds u = []) :
    u = [] := by
  cases u with
  | nil => rfl
  | cons a u => cases a <;> simp [removes, adds] at hr ha

/-- Draining the two queues: what was there and is not removed, then the additions. -/
theorem drain_eq (Q rm ad : List α) : drain Q rm ad = Q.filter (· ∉ rm) ++ ad := by
  rw [← inOrder_removes, ← inOrder_adds, inOrder, inOrder, List.foldl_map, List.foldl_map]
  rfl

/-- In order: what was there and is not removed, then the additions that survive. -/
theorem inOrder_eq (Q : List α) (u : List (Request α)) :
    inOrder Q u = Q.filter (· ∉ removes u) ++ survivors u := by
  induction u generalizing Q with
  | nil => simp [inOrder, removes, survivors]
  | cons a u ih =>
    rw [inOrder, List.foldl_cons, ← inOrder, ih]
    cases a with
    | remove r => rw [apply, filter_ne_filter_notMem, removes, survivors]
    | add r =>
      rw [apply, removes, survivors, List.filter_append, List.append_assoc]
      by_cases hr : r ∈ removes u
      · rw [if_pos hr, List.filter_singleton, decide_eq_false (not_not_intro hr), cond_false,
          List.nil_append]
      · rw [if_neg hr, List.filter_singleton, decide_eq_true hr, cond_true, List.singleton_append]

/-- What survives has been added. -/
theorem survivors_sublist (u : List (Request α)) : (survivors u).Sublist (adds u) := by
  induction u with
  | nil => exact List.Sublist.refl _
  | cons a u ih =>
    cases a with
    | remove r => exact ih
    | add r =>
      simp only [survivors, adds]
      split
      · exact ih.cons r
      · exact ih.cons_cons r

/-- Every addition survives exactly when none is followed by its removal. -/
theorem survivors_eq_adds_iff (u : List (Request α)) :
    survivors u = adds u ↔ NoAddThenRemove u := by
  induction u with
  | nil => simp [survivors, adds, NoAddThenRemove]
  | cons a u ih =>
    rw [NoAddThenRemove, List.pairwise_cons, ← NoAddThenRemove, ← ih]
    cases a with
    | remove r => simp [survivors, adds, Undoes]
    | add r =>
      simp only [survivors, adds]
      by_cases hr : r ∈ removes u
      · -- the addition is lost, so the two lists have different lengths
        rw [if_pos hr]
        constructor
        · intro h
          have hlen := (survivors_sublist u).length_le
          rw [h, List.length_cons] at hlen
          omega
        · rintro ⟨hall, -⟩
          exact absurd rfl (hall _ (mem_removes.mp hr))
      · rw [if_neg hr, List.cons.injEq]
        constructor
        · rintro ⟨-, h⟩
          refine ⟨?_, h⟩
          intro b hb hundo
          cases b with
          | add q => exact hundo
          | remove q =>
            obtain rfl : r = q := hundo
            exact hr (mem_removes.mpr hb)
        · rintro ⟨-, h⟩
          exact ⟨rfl, h⟩

/-- **The two readings agree exactly when no addition is followed by a removal
of the same member.** -/
theorem removesFirst_eq_inOrder_iff (Q : List α) (u : List (Request α)) :
    removesFirst Q u = inOrder Q u ↔ NoAddThenRemove u := by
  rw [removesFirst, drain_eq, inOrder_eq, List.append_cancel_left_eq, eq_comm,
    survivors_eq_adds_iff]

end Request

end Fajita
