import Fajita.Schedule
import Mathlib.Data.List.Basic

/-!
# Lines: what leaves comes out in the order it came in

A system keeps items of one kind in a *line*, which may be spread over many queues, and lets them
out one after the other. `Passes line new out line'` says what happened between two moments: `new`
came in behind, `out` left from the front, and some items may have got lost. Whatever the queues
are, it is enough to show this of every step: then what leaves in a whole run, and behind it what is
left of the line, is a sublist of the input (`Passes.run`).
-/

namespace Fajita

universe u v

variable {α : Type*} {line line₁ line₂ new new' out out' : List α}

/-- Between two moments `new` came in behind the line, and `out` left from its front; some items may
have got lost. -/
def Passes (line new out line₁ : List α) : Prop := (out ++ line₁).Sublist (line ++ new)

namespace Passes

theorem refl (line : List α) : Passes line [] [] line := by
  rw [Passes, List.append_nil, List.nil_append]

theorem trans (h : Passes line new out line₁) (h' : Passes line₁ new' out' line₂) :
    Passes line (new ++ new') (out ++ out') line₂ := by
  rw [Passes, List.append_assoc, ← List.append_assoc line]
  refine (h'.append_left out).trans ?_
  rw [← List.append_assoc]
  exact h.append_right new'

variable {S : Type u} {L : Type v} {step : S → L → S} {I : S → Prop} {C : S → L → Prop}
  {lineOf : S → List α} {newOf outOf : S → L → List α}

/-- **The run rule**: what every step lets pass in order, a whole run does. -/
theorem run (hI : ∀ s l, I s → C s l → I (step s l))
    (hstep : ∀ s l, I s → C s l → Passes (lineOf s) (newOf s l) (outOf s l) (lineOf (step s l)))
    {s : S} {ls : List L} (hs : I s) (hC : Along step C s ls) :
    Passes (lineOf s) (history step newOf s ls) (history step outOf s ls)
      (lineOf (runFrom step s ls)) := by
  induction ls generalizing s with
  | nil => exact refl ..
  | cons l ls ih =>
    obtain ⟨hl, hrest⟩ := hC
    exact (hstep s l hs hl).trans (ih (hI s l hs hl) hrest)

end Passes

end Fajita
