import Fajita.Schedule
import Mathlib.Data.List.Basic
import Mathlib.Logic.Function.Basic

/-!
# Lanes

Items are put in lanes by a fixed rule, and each lane is served from the front, some items at a
time: what scaling by a hash comes to when nothing is ever moved. In every schedule a lane has been
served, and still holds, exactly the items of its own, in the order of their arrival (`in_order`).
-/

namespace Fajita

namespace Lanes

universe u v

variable {α : Type u} {κ : Type v} [DecidableEq κ]

/-- The lanes, and what they have been served. -/
structure State (α : Type u) (κ : Type v) where
  /-- the items that wait -/
  waiting : κ → List α
  /-- the items that have been served, in order -/
  served : κ → List α

/-- The label of a step. -/
inductive Label (α : Type u) (κ : Type v) where
  /-- an item arrives -/
  | arrive (x : α)
  /-- up to `n` items of a lane are served -/
  | serve (k : κ) (n : ℕ)

/-- No item has arrived. -/
def start : State α κ := ⟨fun _ => [], fun _ => []⟩

variable (lane : α → κ)

/-- The step function. -/
def step (s : State α κ) : Label α κ → State α κ
  | .arrive x =>
    { s with waiting := Function.update s.waiting (lane x) (s.waiting (lane x) ++ [x]) }
  | .serve k n =>
    { waiting := Function.update s.waiting k ((s.waiting k).drop n)
      served := Function.update s.served k (s.served k ++ (s.waiting k).take n) }

/-- The items that arrive in a step. -/
def Label.arrivals : Label α κ → List α
  | .arrive x => [x]
  | .serve _ _ => []

/-- What a lane has been served and what it holds. -/
def State.line (s : State α κ) (k : κ) : List α := s.served k ++ s.waiting k

theorem step_line (s : State α κ) (l : Label α κ) (k : κ) :
    (step lane s l).line k = s.line k ++ l.arrivals.filter (lane · = k) := by
  cases l with
  | arrive x =>
    by_cases hk : lane x = k
    · subst hk
      simp [step, State.line, Label.arrivals]
    · simp [step, State.line, Label.arrivals, hk, Function.update_of_ne (Ne.symm hk)]
  | serve k' n =>
    by_cases hk : k = k'
    · subst hk
      simp [step, State.line, Label.arrivals]
    · simp [step, State.line, Label.arrivals, Function.update_of_ne hk]

/-- **Every lane is in order.** -/
theorem in_order (ls : List (Label α κ)) (k : κ) :
    (runFrom (step lane) start ls).line k =
      (ls.flatMap Label.arrivals).filter (lane · = k) := by
  have hrun : ∀ s : State α κ, (runFrom (step lane) s ls).line k =
      s.line k ++ (ls.flatMap Label.arrivals).filter (lane · = k) := by
    induction ls with
    | nil => exact fun s => (List.append_nil _).symm
    | cons l ls ih =>
      intro s
      rw [runFrom_cons, ih, step_line, List.flatMap_cons, List.filter_append, List.append_assoc]
  exact hrun start

end Lanes

end Fajita
