import Mathlib.Data.List.Basic
import Mathlib.Data.Set.Defs

/-!
# Computations that read memory

A `Reads A B α` is a computation that looks at a memory `A → B` only by loading from
addresses of its choice, each of which may depend on what was loaded before. So the
addresses a computation reads are part of what it is, and not a second description of it:
`value` is its result on a memory and `addrs` the addresses it loads from there, in order.

* `coincide` — a computation that finds the same bytes where it reads does the same.
* `iterate step n` — `n` rounds of a loop whose body reads memory; `iterate_inv` is its rule.
* `Reaches step mem P s s'` — some number of rounds leads from `s` to `s'`, and reads
  nothing but addresses in `P`.
* `Reaches.halts` — where the loop stands still at the end, it never reads anything else.
-/

namespace Fajita

universe u v w

/-- A computation with results in `α` that reads a memory of `B`s at addresses in `A`. -/
inductive Reads (A : Type u) (B : Type v) (α : Type w)
  /-- nothing more to read -/
  | done (result : α)
  /-- load from `addr` and go on -/
  | load (addr : A) (next : B → Reads A B α)

namespace Reads

variable {A : Type u} {B : Type v} {α β : Type w}

/-- One computation after the other. -/
def bind : Reads A B α → (α → Reads A B β) → Reads A B β
  | done a, f => f a
  | load addr next, f => load addr fun b => bind (next b) f

instance : Monad (Reads A B) where
  pure := done
  bind := bind

/-- A single load. -/
def read (addr : A) : Reads A B B := load addr done

/-- The result on a memory. -/
def value (mem : A → B) : Reads A B α → α
  | done a => a
  | load addr next => value mem (next (mem addr))

/-- The addresses read, first to last. -/
def addrs (mem : A → B) : Reads A B α → List A
  | done _ => []
  | load addr next => addr :: addrs mem (next (mem addr))

variable {mem mem' : A → B}

@[simp] theorem value_pure (a : α) : (pure a : Reads A B α).value mem = a := rfl

@[simp] theorem addrs_pure (a : α) : (pure a : Reads A B α).addrs mem = [] := rfl

@[simp] theorem value_read (addr : A) : (read addr : Reads A B B).value mem = mem addr := rfl

@[simp] theorem addrs_read (addr : A) : (read addr : Reads A B B).addrs mem = [addr] := rfl

/-- The second computation sees the value of the first. -/
@[simp] theorem value_bind (r : Reads A B α) (f : α → Reads A B β) :
    (r >>= f).value mem = (f (r.value mem)).value mem := by
  induction r with
  | done a => rfl
  | load addr next ih => exact ih (mem addr)

/-- The addresses of the second computation come after those of the first. -/
@[simp] theorem addrs_bind (r : Reads A B α) (f : α → Reads A B β) :
    (r >>= f).addrs mem = r.addrs mem ++ (f (r.value mem)).addrs mem := by
  induction r with
  | done a => rfl
  | load addr next ih => exact congrArg (addr :: ·) (ih (mem addr))

/-- **Coincidence**: two memories that agree where a computation reads the one are the same
to it. -/
theorem coincide {r : Reads A B α} (h : ∀ a ∈ r.addrs mem, mem' a = mem a) :
    r.value mem' = r.value mem ∧ r.addrs mem' = r.addrs mem := by
  induction r with
  | done a => exact ⟨rfl, rfl⟩
  | load addr next ih =>
    obtain ⟨hhead, htail⟩ := List.forall_mem_cons.mp h
    obtain ⟨hvalue, haddrs⟩ := ih (mem addr) htail
    refine ⟨?_, ?_⟩
    · rw [value, hhead, hvalue, value]
    · rw [addrs, hhead, haddrs, addrs]

/-! ## Loops

A loop is a step that says whether to go on. Where every address of a stretch of rounds meets `P`,
so do those of the stretches put together; that is how a scan over a buffer is cut at the bytes that
matter.
-/

variable {S : Type w}

/-- `n` rounds of a loop. -/
def iterate (step : S → Reads A B S) : ℕ → S → Reads A B S
  | 0, s => pure s
  | n + 1, s => step s >>= iterate step n

variable {step : S → Reads A B S} {P : A → Prop} {s s₁ s₂ s₃ : S}

/-- `m + n` rounds are `m` rounds and then `n`. -/
theorem value_iterate_add (m n : ℕ) (s : S) :
    (iterate step (m + n) s).value mem =
      (iterate step n ((iterate step m s).value mem)).value mem := by
  induction m generalizing s with
  | zero => rw [Nat.zero_add, iterate, value_pure]
  | succ m ih => rw [Nat.succ_add, iterate, value_bind, ih, iterate, value_bind]

/-- The addresses of `m + n` rounds are those of `m` rounds and then of `n`. -/
theorem addrs_iterate_add (m n : ℕ) (s : S) :
    (iterate step (m + n) s).addrs mem =
      (iterate step m s).addrs mem ++
        (iterate step n ((iterate step m s).value mem)).addrs mem := by
  induction m generalizing s with
  | zero => rw [Nat.zero_add, iterate, addrs_pure, value_pure, List.nil_append]
  | succ m ih =>
    rw [Nat.succ_add, iterate, addrs_bind, ih, iterate, addrs_bind, value_bind,
      List.append_assoc]

/-- A loop that stands still reads nothing and stays where it is. -/
theorem iterate_still (hstill : step s = pure s) (n : ℕ) :
    (iterate step n s).value mem = s ∧ (iterate step n s).addrs mem = [] := by
  induction n with
  | zero => exact ⟨rfl, rfl⟩
  | succ n ih =>
    rw [iterate, hstill, value_bind, addrs_bind, value_pure, addrs_pure, List.nil_append]
    exact ih

/-- **The loop rule**: what a round keeps that reads addresses in `C`, a loop keeps that does. -/
theorem iterate_inv {I : S → Prop} {C : A → Prop}
    (hstep : ∀ s, I s → (∀ a ∈ (step s).addrs mem, C a) → I ((step s).value mem)) (n : ℕ)
    (hs : I s) (hC : ∀ a ∈ (iterate step n s).addrs mem, C a) :
    I ((iterate step n s).value mem) := by
  induction n generalizing s with
  | zero => exact hs
  | succ n ih =>
    rw [iterate, addrs_bind, List.forall_mem_append] at hC
    rw [iterate, value_bind]
    exact ih (hstep s hs hC.1) hC.2

/-- Rounds of the loop lead from `s` to `s'` and read addresses in `P` only. -/
def Reaches (step : S → Reads A B S) (mem : A → B) (P : A → Prop) (s s' : S) : Prop :=
  ∃ n, (iterate step n s).value mem = s' ∧ ∀ a ∈ (iterate step n s).addrs mem, P a

namespace Reaches

/-- Without a round nothing is read. -/
theorem refl (s : S) : Reaches step mem P s s := by
  refine ⟨0, rfl, ?_⟩
  rintro a ⟨⟩

/-- Two stretches of rounds, one after the other. -/
theorem trans (h : Reaches step mem P s₁ s₂) (h' : Reaches step mem P s₂ s₃) :
    Reaches step mem P s₁ s₃ := by
  obtain ⟨m, rfl, hm⟩ := h
  obtain ⟨n, rfl, hn⟩ := h'
  refine ⟨m + n, value_iterate_add m n s₁, fun a ha => ?_⟩
  rw [addrs_iterate_add, List.mem_append] at ha
  exact ha.elim (hm a) (hn a)

/-- A round, and what comes after it. -/
theorem head (hvalue : (step s₁).value mem = s₂) (hreads : ∀ a ∈ (step s₁).addrs mem, P a)
    (h : Reaches step mem P s₂ s₃) : Reaches step mem P s₁ s₃ := by
  subst hvalue
  refine trans ⟨1, ?_, fun a ha => hreads a ?_⟩ h
  · rw [iterate, value_bind, iterate, value_pure]
  · rwa [iterate, addrs_bind, iterate, addrs_pure, List.append_nil] at ha

/-- **A loop that halts** reads, in any number of rounds, what it reads until it halts. -/
theorem halts (h : Reaches step mem P s₁ s₂) (hstill : step s₂ = pure s₂) :
    ∃ m, ∀ n, (m ≤ n → (iterate step n s₁).value mem = s₂) ∧
      ∀ a ∈ (iterate step n s₁).addrs mem, P a := by
  obtain ⟨m, rfl, hm⟩ := h
  refine ⟨m, fun n => ⟨fun hmn => ?_, fun a ha => hm a ?_⟩⟩
  · obtain ⟨k, rfl⟩ := Nat.exists_eq_add_of_le hmn
    rw [value_iterate_add, (iterate_still hstill k).1]
  · rcases Nat.le_total m n with hmn | hnm
    · obtain ⟨k, rfl⟩ := Nat.exists_eq_add_of_le hmn
      rwa [addrs_iterate_add, (iterate_still hstill k).2, List.append_nil] at ha
    · obtain ⟨k, rfl⟩ := Nat.exists_eq_add_of_le hnm
      rw [addrs_iterate_add]
      exact List.mem_append_left _ ha

end Reaches

end Reads

end Fajita
