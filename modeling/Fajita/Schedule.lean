import Mathlib.Data.List.Basic

/-!
# Schedules: runs of a labelled step function

A system is a step function `step : S → L → S`: from a state and a label (which
party moves, and what its environment answers) to the next state. A *schedule*
is the list of labels of a finite run, so every interleaving of the parties is
some schedule.

* `runFrom step s ls` — the state the schedule `ls` leads to from `s`.
* `Along step C s ls` — the condition `C` holds of every step of the run: of the
  state before it and of its label.
* `GoesTo step l s s'` — steps with the one label `l` lead from `s` to `s'`.

`Along` is the carrier of every conditional safety theorem: a step lemma
`I s → C s l → I (step s l)` is turned into a statement about whole runs by
`Along.inv`, and into a statement about every step of a run by `Along.imp_inv`.
-/

namespace Fajita

universe u v

variable {S : Type u} {L : Type v} {step : S → L → S}

/-- The state a schedule leads to. -/
def runFrom (step : S → L → S) (s : S) (ls : List L) : S := ls.foldl step s

@[simp] theorem runFrom_nil (s : S) : runFrom step s [] = s := rfl

@[simp] theorem runFrom_cons (s : S) (l : L) (ls : List L) :
    runFrom step s (l :: ls) = runFrom step (step s l) ls := rfl

/-- The second part of a run starts where the first ends. -/
theorem runFrom_append (s : S) (ls ls' : List L) :
    runFrom step s (ls ++ ls') = runFrom step (runFrom step s ls) ls' :=
  List.foldl_append

/-- The condition `C` holds of every step of the run: of the state before the
step and of its label. -/
def Along (step : S → L → S) (C : S → L → Prop) : S → List L → Prop
  | _, [] => True
  | s, l :: ls => C s l ∧ Along step C (step s l) ls

instance Along.instDecidable (C : S → L → Prop) [∀ s l, Decidable (C s l)] :
    ∀ (s : S) (ls : List L), Decidable (Along step C s ls)
  | _, [] => inferInstanceAs (Decidable True)
  | s, l :: ls =>
    have := Along.instDecidable C (step s l) ls
    inferInstanceAs (Decidable (C s l ∧ Along step C (step s l) ls))

variable {C P : S → L → Prop} {I : S → Prop} {s : S} {ls : List L}

/-- A condition holds along a run if it holds along both parts. -/
theorem along_append {ls' : List L} :
    Along step C s (ls ++ ls') ↔ Along step C s ls ∧ Along step C (runFrom step s ls) ls' := by
  induction ls generalizing s with
  | nil => simp [Along]
  | cons l ls ih =>
    rw [List.cons_append, Along, ih, Along, runFrom_cons, and_assoc]

/-- **The run rule**: what every step that meets `C` preserves, every run whose
steps meet `C` preserves. -/
theorem Along.inv (hstep : ∀ s l, I s → C s l → I (step s l)) (hs : I s)
    (hC : Along step C s ls) : I (runFrom step s ls) := by
  induction ls generalizing s with
  | nil => exact hs
  | cons l ls ih =>
    obtain ⟨hl, hrest⟩ := hC
    exact ih (hstep s l hs hl) hrest

/-- **The step rule**: under an invariant that `C` keeps, a property of single
steps that follows from the invariant and `C` holds of every step of the run. -/
theorem Along.imp_inv (hstep : ∀ s l, I s → C s l → I (step s l))
    (himp : ∀ s l, I s → C s l → P s l) (hs : I s) (hC : Along step C s ls) :
    Along step P s ls := by
  induction ls generalizing s with
  | nil => trivial
  | cons l ls ih =>
    obtain ⟨hl, hrest⟩ := hC
    exact ⟨himp s l hs hl, ih (hstep s l hs hl) hrest⟩

/-- Weakening the condition step by step. -/
theorem Along.imp (himp : ∀ s l, C s l → P s l) (hC : Along step C s ls) : Along step P s ls := by
  induction ls generalizing s with
  | nil => trivial
  | cons l ls ih =>
    obtain ⟨hl, hrest⟩ := hC
    exact ⟨himp s l hl, ih hrest⟩

/-- Two conditions that hold along a run hold together. -/
theorem Along.and (hC : Along step C s ls) (hP : Along step P s ls) :
    Along step (fun s l => C s l ∧ P s l) s ls := by
  induction ls generalizing s with
  | nil => trivial
  | cons l ls ih => exact ⟨⟨hC.1, hP.1⟩, ih hC.2 hP.2⟩

/-- `Along` says of each split of the schedule that `C` holds of the step at the split. -/
theorem along_iff_split :
    Along step C s ls ↔
      ∀ pre l post, ls = pre ++ l :: post → C (runFrom step s pre) l := by
  constructor
  · rintro h pre l post rfl
    exact (along_append.mp h).2.1
  · intro h
    induction ls generalizing s with
    | nil => trivial
    | cons l ls ih =>
      refine ⟨h [] l ls rfl, ih fun pre l' post hls => ?_⟩
      have := h (l :: pre) l' post (by rw [hls, List.cons_append])
      rwa [runFrom_cons] at this

/-- A condition on the labels alone. -/
theorem Along.of_forall {Q : L → Prop} (h : ∀ l ∈ ls, Q l) : Along step (fun _ l => Q l) s ls := by
  refine along_iff_split.mpr fun pre l post hls => h l ?_
  rw [hls]
  exact List.mem_append_right _ (List.mem_cons_self ..)

/-! ## Histories

What the steps say is collected in a list. An invariant of the steps carries over to all that is
said.
-/

variable {E : Type*}

/-- What the steps of a run emit, one after the other. -/
def history (step : S → L → S) (f : S → L → List E) : S → List L → List E
  | _, [] => []
  | s, l :: ls => f s l ++ history step f (step s l) ls

/-- What all steps of a run emit only, under an invariant, the run emits only. -/
theorem Along.history_mem {f : S → L → List E} {Q : E → Prop}
    (hstep : ∀ s l, I s → C s l → I (step s l)) (hf : ∀ s l, I s → C s l → ∀ x ∈ f s l, Q x)
    (hs : I s) (hC : Along step C s ls) : ∀ x ∈ history step f s ls, Q x := by
  induction ls generalizing s with
  | nil => exact fun x hx => (by cases hx)
  | cons l ls ih =>
    obtain ⟨hl, hrest⟩ := hC
    intro x hx
    rcases List.mem_append.mp hx with hx | hx
    · exact hf s l hs hl x hx
    · exact ih (hstep s l hs hl) hrest x hx

/-- A history may be filtered as it is made, or afterwards. -/
theorem history_filter (f : S → L → List E) (q : E → Bool) :
    history step (fun s l => (f s l).filter q) s ls = (history step f s ls).filter q := by
  induction ls generalizing s with
  | nil => rfl
  | cons l ls ih => exact (congrArg (_ ++ ·) ih).trans (List.filter_append ..).symm

/-! ## A party alone

One party after the other is a special case of any order of steps. Here one party makes all the
steps, as many as it takes.
-/

/-- Steps with the label `l` alone lead from `s` to `s'`. -/
def GoesTo (step : S → L → S) (l : L) (s s' : S) : Prop :=
  ∃ n, runFrom step s (List.replicate n l) = s'

namespace GoesTo

variable {l : L} {s₁ s₂ s₃ : S}

theorem refl (s : S) : GoesTo step l s s := ⟨0, rfl⟩

theorem head (h : step s₁ l = s₂) (h' : GoesTo step l s₂ s₃) : GoesTo step l s₁ s₃ := by
  obtain ⟨n, rfl⟩ := h'
  exact ⟨n + 1, by rw [List.replicate_succ, runFrom_cons, h]⟩

/-- A single step of the party. -/
theorem one (h : step s₁ l = s₂) : GoesTo step l s₁ s₂ := .head h (.refl s₂)

theorem trans (h : GoesTo step l s₁ s₂) (h' : GoesTo step l s₂ s₃) : GoesTo step l s₁ s₃ := by
  obtain ⟨n, rfl⟩ := h
  obtain ⟨m, rfl⟩ := h'
  exact ⟨n + m, by rw [List.replicate_add, runFrom_append]⟩

/-- A loop whose iterations the party makes alone. -/
theorem loop (step : S → L → S) (l : L) {f : ℕ → S} {n : ℕ}
    (hf : ∀ i < n, GoesTo step l (f i) (f (i + 1))) :
    GoesTo step l (f 0) (f n) := by
  induction n with
  | zero => exact .refl _
  | succ n ih => exact (ih fun i hi => hf i (Nat.lt_succ_of_lt hi)).trans (hf n n.lt_succ_self)

end GoesTo

end Fajita
