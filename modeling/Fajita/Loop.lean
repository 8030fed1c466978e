import Mathlib.Data.List.Basic
import Mathlib.Logic.Function.Basic
import Mathlib.Data.Nat.ModEq

/-!
# Counted loops

`forRange n f s` is `for (i = 0; i < n; i++) s = f(i, s)`, and
`forStride n step k f s` is `for (; k < n; k += step) s = f(k, s)`. Both are
structurally recursive, so they evaluate, and each has one rule from which every
fact about a particular loop is derived:

* `forRange_rule` — an assertion indexed by the number of finished iterations;
* `forStride_rule` — an assertion indexed by the loop counter.

`forRange_update` is the common case of a loop whose `i`-th iteration rewrites
only the `i`-th entry of a table. `tryAll f l s` goes through a list as long as no
iteration fails, and `tryAll_rule` is its rule.
-/

namespace Fajita

universe u

variable {S : Type u}

/-- `for (i = 0; i < n; i++) s = f(i, s)`. -/
def forRange : ℕ → (ℕ → S → S) → S → S
  | 0, _, s => s
  | n + 1, f, s => f n (forRange n f s)

@[simp] theorem forRange_zero (f : ℕ → S → S) (s : S) : forRange 0 f s = s := rfl

@[simp] theorem forRange_succ (n : ℕ) (f : ℕ → S → S) (s : S) :
    forRange (n + 1) f s = f n (forRange n f s) := rfl

/-- The loop rule: `P i` is the assertion after `i` iterations. -/
theorem forRange_rule {f : ℕ → S → S} {s : S} {n : ℕ} (P : ℕ → S → Prop) (h0 : P 0 s)
    (hstep : ∀ i < n, ∀ t, P i t → P (i + 1) (f i t)) : P n (forRange n f s) := by
  induction n with
  | zero => exact h0
  | succ n ih =>
    refine hstep n n.lt_succ_self _ (ih fun i hi t ht => hstep i ?_ t ht)
    omega

/-- An assertion that every iteration preserves. -/
theorem forRange_inv {f : ℕ → S → S} {s : S} {n : ℕ} {P : S → Prop} (h0 : P s)
    (hstep : ∀ i < n, ∀ t, P t → P (f i t)) : P (forRange n f s) :=
  forRange_rule (fun _ => P) h0 hstep

/-- Iterations that do nothing leave the state alone. -/
theorem forRange_eq_self {f : ℕ → S → S} {s : S} {n : ℕ} (h : ∀ i < n, f i s = s) :
    forRange n f s = s :=
  forRange_inv (P := fun t => t = s) rfl fun i hi t ht => by rw [ht, h i hi]

/-- A loop whose `i`-th iteration rewrites only the `i`-th entry of a table. -/
theorem forRange_update {β : Type u} (n : ℕ) (h : ℕ → β → β) (g : ℕ → β) :
    forRange n (fun i t => Function.update t i (h i (t i))) g =
      fun i => if i < n then h i (g i) else g i := by
  refine forRange_rule (fun k t => t = fun i => if i < k then h i (g i) else g i) ?_ ?_
  · simp
  · rintro k - t rfl
    funext i
    by_cases hi : i = k
    · subst hi
      simp
    · have hlt : i < k + 1 ↔ i < k := by omega
      simp [Function.update_of_ne hi, hlt]

/-- What every iteration keeps of the entry it rewrites, the loop keeps of every entry. -/
theorem forRange_update_field {β : Type u} {γ : Type*} {φ : β → γ} {h : ℕ → β → β}
    (hφ : ∀ i b, φ (h i b) = φ b) (n : ℕ) (g : ℕ → β) (j : ℕ) :
    φ (forRange n (fun i t => Function.update t i (h i (t i))) g j) = φ (g j) := by
  rw [forRange_update]
  dsimp only
  split
  · exact hφ j (g j)
  · rfl

/-- A loop that works on a part of the state, which `p` puts in its place. -/
theorem forRange_lift {T : Type*} {f : ℕ → S → S} {g : ℕ → T → T} {p : T → S}
    (h : ∀ i t, f i (p t) = p (g i t)) (n : ℕ) (t : T) :
    forRange n f (p t) = p (forRange n g t) := by
  induction n with
  | zero => rfl
  | succ n ih => rw [forRange_succ, ih, h, forRange_succ]

/-- A loop whose `i`-th iteration works off the list `g i`, as far as `φ` sees it, works
off the lists one after the other. -/
theorem forRange_flatMap {α T : Type*} {φ : S → T} {f : ℕ → S → S} {g : ℕ → List α}
    {h : T → α → T} (hf : ∀ i s, φ (f i s) = (g i).foldl h (φ s)) (n : ℕ) (s : S) :
    φ (forRange n f s) = ((List.range n).flatMap g).foldl h (φ s) := by
  induction n with
  | zero => rfl
  | succ n ih =>
    rw [forRange_succ, hf, ih, List.range_succ, List.flatMap_append, List.foldl_append,
      List.flatMap_singleton]

/-- A loop that does something in some of its iterations, as far as `φ` sees it. -/
theorem forRange_filterMap {α T : Type*} {φ : S → T} {f : ℕ → S → S} {g : ℕ → Option α}
    {h : T → α → T} (hnone : ∀ i s, g i = none → φ (f i s) = φ s)
    (hsome : ∀ i s a, g i = some a → φ (f i s) = h (φ s) a) (n : ℕ) (s : S) :
    φ (forRange n f s) = ((List.range n).filterMap g).foldl h (φ s) := by
  rw [List.filterMap_eq_flatMap_toList]
  refine forRange_flatMap (fun i t => ?_) n s
  cases hi : g i with
  | none => exact hnone i t hi
  | some a => exact hsome i t a hi

/-! ## Strided loops

A loop whose counter grows by more than 1 has no length that is known in advance. It stops after at
most `n` rounds, which is enough fuel.
-/

/-- At most `fuel` iterations of `for (; k < n; k += step) s = f(k, s)`. -/
def forStrideAux (n step : ℕ) (f : ℕ → S → S) : ℕ → ℕ → S → S
  | 0, _, s => s
  | fuel + 1, k, s => if k < n then forStrideAux n step f fuel (k + step) (f k s) else s

/-- `for (; k < n; k += step) s = f(k, s)`: with a positive `step` the counter
passes `n` after at most `n` iterations. -/
def forStride (n step k : ℕ) (f : ℕ → S → S) (s : S) : S := forStrideAux n step f n k s

theorem forStrideAux_rule {n step : ℕ} {f : ℕ → S → S} (hpos : 0 < step) (P : ℕ → S → Prop)
    (hstep : ∀ k t, k < n → P k t → P (k + step) (f k t)) :
    ∀ (fuel k : ℕ) (s : S), n ≤ k + fuel → P k s →
      ∃ k', n ≤ k' ∧ P k' (forStrideAux n step f fuel k s) := by
  intro fuel
  induction fuel with
  | zero =>
    intro k s hfuel hP
    exact ⟨k, by omega, hP⟩
  | succ fuel ih =>
    intro k s hfuel hP
    by_cases hk : k < n
    · rw [forStrideAux, if_pos hk]
      exact ih (k + step) (f k s) (by omega) (hstep k s hk hP)
    · rw [forStrideAux, if_neg hk]
      exact ⟨k, by omega, hP⟩

/-- The strided loop rule: `P k` is the assertion when the counter is at `k`;
the loop ends with the counter at or past `n`. -/
theorem forStride_rule {n step k : ℕ} {f : ℕ → S → S} {s : S} (hpos : 0 < step)
    (P : ℕ → S → Prop) (h0 : P k s) (hstep : ∀ k t, k < n → P k t → P (k + step) (f k t)) :
    ∃ k', n ≤ k' ∧ P k' (forStride n step k f s) :=
  forStrideAux_rule hpos P hstep n k s (by omega) h0

/-- A view of the state that every iteration acts on alike. -/
theorem forStride_map {T : Type u} {φ : S → T} {n step k : ℕ} {f : ℕ → S → S} {g : ℕ → T → T}
    (h : ∀ i t, φ (f i t) = g i (φ t)) (s : S) :
    φ (forStride n step k f s) = forStride n step k g (φ s) := by
  have haux : ∀ fuel k s,
      φ (forStrideAux n step f fuel k s) = forStrideAux n step g fuel k (φ s) := by
    intro fuel
    induction fuel with
    | zero => intro k s; rfl
    | succ fuel ih =>
      intro k s
      rw [forStrideAux, forStrideAux]
      split
      · rw [ih, h]
      · rfl
  exact haux n k s

/-- Writing `v` to every `step`-th entry from `k` on, below `n`: an entry below
`n` holds `v` exactly when the counter visited it. -/
theorem forStride_update {β : Type u} {n step k : ℕ} (hpos : 0 < step) (v : β) (g : ℕ → β)
    (hk : k < step) (j : ℕ) :
    forStride n step k (fun i t => Function.update t i v) g j =
      if j < n ∧ j % step = k then v else g j := by
  let P : ℕ → (ℕ → β) → Prop := fun c t =>
    c % step = k ∧ ∀ j, t j = if j < c ∧ j < n ∧ j % step = k then v else g j
  have h0 : P k g := by
    refine ⟨Nat.mod_eq_of_lt hk, fun j => ?_⟩
    -- nothing below the start `k` is congruent to `k`
    rw [if_neg]
    rintro ⟨hjk, -, hj⟩
    rw [Nat.mod_eq_of_lt (by omega)] at hj
    omega
  have hiter : ∀ c t, c < n → P c t → P (c + step) (Function.update t c v) := by
    rintro c t hc ⟨hmod, hP⟩
    refine ⟨by rw [Nat.add_mod_right, hmod], fun j => ?_⟩
    by_cases hj : j = c
    · subst hj
      rw [Function.update_self, if_pos ⟨by omega, hc, hmod⟩]
    · rw [Function.update_of_ne hj, hP j]
      -- between `c` and `c + step` only `c` itself is congruent to `k`
      have hgap : j % step = k → c ≤ j → j < c + step → False := by
        intro hjk hcj hjc
        obtain ⟨d, rfl⟩ := Nat.exists_eq_add_of_le hcj
        have hd : d ≡ 0 [MOD step] := Nat.ModEq.add_left_cancel' c (hjk.trans hmod.symm)
        rw [Nat.ModEq, Nat.mod_eq_of_lt (by omega), Nat.zero_mod] at hd
        omega
      refine if_congr ⟨fun h => ⟨by omega, h.2⟩, fun h => ⟨?_, h.2⟩⟩ rfl rfl
      by_contra hjc
      exact hgap h.2.2 (by omega) h.1
  obtain ⟨k', hk', -, hP⟩ := forStride_rule hpos P h0 hiter
  rw [hP j]
  exact if_congr ⟨fun h => h.2, fun h => ⟨by omega, h⟩⟩ rfl rfl

/-! ## Going round -/

/-- Going round a table from any start, one comes by every entry. -/
theorem exists_add_mod_eq (start : ℕ) {n j : ℕ} (hj : j < n) : ∃ i < n, (start + i) % n = j := by
  have hlt := Nat.mod_lt start (Nat.zero_lt_of_lt hj)
  refine ⟨(n - start % n + j) % n, Nat.mod_lt _ (Nat.zero_lt_of_lt hj), ?_⟩
  rw [Nat.add_mod_mod, ← Nat.mod_add_mod, ← Nat.add_assoc, Nat.add_sub_of_le hlt.le,
    Nat.add_mod_left, Nat.mod_eq_of_lt hj]

/-! ## Loops that can fail

The rest is as for other loops: what every round keeps the loop keeps, if it gets through.
-/

variable {α : Type*} {f : α → S → Option S} {s : S}

/-- `f` with one element after the other, until it fails. -/
def tryAll (f : α → S → Option S) : List α → S → Option S
  | [], s => some s
  | x :: xs, s => (f x s).bind (tryAll f xs)

@[simp] theorem tryAll_nil : tryAll f [] s = some s := rfl

@[simp] theorem tryAll_cons (x : α) (xs : List α) :
    tryAll f (x :: xs) s = (f x s).bind (tryAll f xs) := rfl

theorem tryAll_append (xs ys : List α) :
    tryAll f (xs ++ ys) s = (tryAll f xs s).bind (tryAll f ys) := by
  induction xs generalizing s with
  | nil => rfl
  | cons x xs ih =>
    rw [List.cons_append, tryAll_cons, tryAll_cons, Option.bind_assoc]
    exact congrArg (f x s).bind (funext fun t => ih)

/-- The loop rule: `P` is the assertion when the given elements are through, and no iteration
under it fails. -/
theorem tryAll_rule {P : List α → S → Prop} {l : List α}
    (hstep : ∀ pre x post t, l = pre ++ x :: post → P pre t →
      ∃ t', f x t = some t' ∧ P (pre ++ [x]) t') (h0 : P [] s) :
    ∃ s', tryAll f l s = some s' ∧ P l s' := by
  have haux : ∀ post pre t, l = pre ++ post → P pre t →
      ∃ s', tryAll f post t = some s' ∧ P l s' := by
    intro post
    induction post with
    | nil =>
      rintro pre t rfl ht
      exact ⟨t, rfl, by rwa [List.append_nil]⟩
    | cons x post ih =>
      intro pre t hl ht
      obtain ⟨t', hx, ht'⟩ := hstep pre x post t hl ht
      obtain ⟨s', hrest, hs'⟩ := ih (pre ++ [x]) t' (by rw [hl, List.append_assoc]; rfl) ht'
      exact ⟨s', by rw [tryAll_cons, hx, Option.bind_some, hrest], hs'⟩
  exact haux l [] s rfl h0

/-- An assertion that every iteration preserves, unless it fails. -/
theorem tryAll_inv {P : S → Prop} {l : List α} {s' : S}
    (hstep : ∀ x ∈ l, ∀ t t', P t → f x t = some t' → P t') (h0 : P s)
    (h : tryAll f l s = some s') : P s' := by
  induction l generalizing s with
  | nil =>
    obtain rfl := Option.some.inj h
    exact h0
  | cons x l ih =>
    obtain ⟨t, hx, hrest⟩ := Option.bind_eq_some_iff.mp h
    exact ih (fun y hy => hstep y (List.mem_cons_of_mem x hy))
      (hstep x List.mem_cons_self s t h0 hx) hrest

/-- A loop fails with an element that always does. -/
theorem tryAll_none {l : List α} {x : α} (hx : x ∈ l) (hnone : ∀ t, f x t = none) (s : S) :
    tryAll f l s = none := by
  induction l generalizing s with
  | nil => cases hx
  | cons y l ih =>
    rw [tryAll_cons]
    rcases List.mem_cons.mp hx with rfl | hl
    · rw [hnone, Option.bind_none]
    · cases hy : f y s with
      | none => rfl
      | some t => exact ih hl t

end Fajita
