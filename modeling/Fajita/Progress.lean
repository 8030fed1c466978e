import Fajita.Schedule

/-!
# Progress: what the steps of a party lead to

A safety rule says what a run keeps; the rules here say what it comes to. A *party* is a test
`mine` on labels. If a rank goes down with each step of the party, and up with no step, then
the party's steps use it up: after more of them than the rank there has been a moment at which
the goal was met (`Meets.of_rank`). If the goal is then kept, it is still met at the end
(`Meets.kept`). No fairness is assumed; a statement counts the steps of the party.
-/

namespace Fajita

universe u v

variable {S : Type u} {L : Type v} {step : S → L → S}

/-- At some moment of the run `G` holds. -/
def Meets (step : S → L → S) (G : S → Prop) (s : S) (ls : List L) : Prop :=
  ∃ pre post, ls = pre ++ post ∧ G (runFrom step s pre)

namespace Meets

variable {G I P : S → Prop} {C : S → L → Prop} {s : S} {l : L} {ls ls' : List L}

theorem now (h : G s) : Meets step G s ls := ⟨[], ls, rfl, h⟩

theorem later (h : Meets step G (step s l) ls) : Meets step G s (l :: ls) := by
  obtain ⟨pre, post, rfl, hG⟩ := h
  exact ⟨l :: pre, post, rfl, hG⟩

/-- **The ranking rule**: the goal is reached, or the rank goes down with each step of the
party, while no step of another party raises it. -/
theorem of_rank (mine : L → Bool) (rank : S → ℕ)
    (hI : ∀ s l, I s → C s l → I (step s l))
    (hmine : ∀ s l, I s → C s l → P s → mine l = true →
      G (step s l) ∨ P (step s l) ∧ rank (step s l) < rank s)
    (hother : ∀ s l, I s → C s l → P s → mine l = false →
      G (step s l) ∨ P (step s l) ∧ rank (step s l) ≤ rank s)
    (hs : I s) (hP : P s) (hC : Along step C s ls) (hmany : rank s < ls.countP mine) :
    Meets step G s ls := by
  induction ls generalizing s with
  | nil => exact absurd hmany (Nat.not_lt_zero _)
  | cons l ls ih =>
    obtain ⟨hl, hrest⟩ := hC
    cases hm : mine l with
    | true =>
      rw [List.countP_cons_of_pos hm] at hmany
      rcases hmine s l hs hl hP hm with hG | ⟨hP', hlt⟩
      · exact later (now hG)
      · exact later (ih (hI s l hs hl) hP' hrest (by omega))
    | false =>
      rw [List.countP_cons_of_neg (by simp [hm])] at hmany
      rcases hother s l hs hl hP hm with hG | ⟨hP', hle⟩
      · exact later (now hG)
      · exact later (ih (hI s l hs hl) hP' hrest (by omega))

/-- If the goal is not met from the start, some step brings it about. -/
theorem brought_about (h : Meets step G s ls) (hs : ¬ G s) :
    ∃ pre l post, ls = pre ++ l :: post ∧ ¬ G (runFrom step s pre) ∧
      G (step (runFrom step s pre) l) := by
  obtain ⟨pre, post, rfl, hpre⟩ := h
  induction pre generalizing s with
  | nil => exact absurd hpre hs
  | cons l pre ih =>
    by_cases hl : G (step s l)
    · exact ⟨[], l, pre ++ post, rfl, hs, hl⟩
    · obtain ⟨pre', l', post', hsplit, hbefore, hafter⟩ := ih hl hpre
      exact ⟨l :: pre', l', post', congrArg (l :: ·) hsplit, hbefore, hafter⟩

/-- A goal that every later step keeps is met at the end. -/
theorem kept (hI : ∀ s l, I s → C s l → I (step s l))
    (hG : ∀ s l, I s → C s l → G s → G (step s l)) (hs : I s) (hC : Along step C s ls)
    (h : Meets step G s ls) : G (runFrom step s ls) := by
  obtain ⟨pre, post, rfl, hpre⟩ := h
  obtain ⟨hC₁, hC₂⟩ := along_append.mp hC
  rw [runFrom_append]
  have hboth : I (runFrom step s pre) ∧ G (runFrom step s pre) := ⟨hC₁.inv hI hs, hpre⟩
  exact (hC₂.inv (I := fun s => I s ∧ G s)
    (fun s l h hl => ⟨hI s l h.1 hl, hG s l h.1 hl h.2⟩) hboth).2

end Meets

end Fajita
