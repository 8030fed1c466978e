import Fajita.Dealing
import Fajita.Objective

/-!
# When the solver has an answer

`short_solver` has an answer exactly if there are no more offloading cores than working cores and
the shards can be dealt out so that every working core gets one, and gets no more than it can keep
and give away (`exists_feasible_iff`). In particular

* which core offloads to which does not matter;
* the constraint that no core has more shards than the one before it, which spares the solver the
  renamings of an answer, loses none.
-/

namespace Fajita.Solver

open Finset (range Ico)

variable {q : Problem} {f : ℕ → ℕ}

/-- The load that comes to core `i` when shard `s` is dealt to core `f s`. -/
def load (q : Problem) (f : ℕ → ℕ) (i : ℕ) : ℚ := ∑ s ∈ range q.shards, if f s = i then q.V s else 0

/-- What a core with the load `l` keeps when it gives away all it can. -/
def leftOver (q : Problem) (l : ℚ) : ℚ := if q.E = 0 then l else l - min (9 / 10) l

/-- The shards are dealt out so that every working core gets one, and can carry its shards. -/
structure Deals (q : Problem) (f : ℕ → ℕ) : Prop where
  /-- to working cores -/
  within : ∀ s < q.shards, f s < q.W
  /-- to all of them -/
  busy : ∀ i < q.W, ∃ s < q.shards, f s = i
  /-- within their bounds -/
  fits : ∀ i < q.W, WorkFits q (leftOver q (load q f i))

theorem volume_dealing (i : ℕ) : volume q (dealing f) i = load q f i := by
  rw [volume, load]
  refine Finset.sum_congr rfl fun s _ => ?_
  rw [dealing]
  split
  · rw [Nat.cast_one, one_mul]
  · rw [Nat.cast_zero, zero_mul]

theorem fits_dealing : Fits q (dealing f) ↔ ∀ i < q.W, WorkFits q (leftOver q (load q f i)) := by
  refine forall_congr' fun i => imp_congr_right fun _ => ?_
  rw [spare, offer, volume_dealing, leftOver]
  split
  · rw [sub_zero]
  · exact Iff.rfl

namespace Deals

variable (h : Deals q f)

include h

/-- The cores renamed. -/
theorem rename {π : Equiv.Perm ℕ} (hπ : ∀ i < q.W, π i < q.W) (hπ' : ∀ i < q.W, π.symm i < q.W) :
    Deals q (π ∘ f) where
  within s hs := hπ _ (h.within s hs)
  busy i hi := by
    obtain ⟨s, hs, hf⟩ := h.busy _ (hπ' i hi)
    exact ⟨s, hs, by rw [Function.comp_apply, hf, Equiv.apply_symm_apply]⟩
  fits i hi := by
    have hload : load q (π ∘ f) i = load q f (π.symm i) :=
      Finset.sum_congr rfl fun s _ => by simp only [Function.comp_apply, ← Equiv.eq_symm_apply]
    rw [hload]
    exact h.fits _ (hπ' i hi)

/-- The table of a dealing that gives no core more shards than the one before it. -/
theorem linearA (hsorted : ∀ i, i + 1 < q.W → dealt q.shards f (i + 1) ≤ dealt q.shards f i) :
    LinearA q.W q.cores q.shards (dealing f) := by
  have hcores : q.cores = q.W + q.E := rfl
  have hidle : ∀ i, q.W ≤ i → dealt q.shards f i = 0 := fun i hi =>
    dealt_eq_zero fun s hs => (Nat.lt_of_lt_of_le (h.within s hs) hi).ne
  refine ⟨fun s _ i _ => dealing_le_one s i, fun s hs => ?_, fun i hi => ?_, fun i hi => ?_,
    fun i _ => ?_⟩
  · exact sum_dealing_row ((h.within s hs).trans_le (Nat.le_add_right ..))
  · rw [sum_dealing_column]
    exact dealt_pos_iff.mpr (h.busy i hi)
  · rw [sum_dealing_column]
    exact hidle i (Finset.mem_Ico.mp hi).1
  · rw [sum_dealing_column, sum_dealing_column]
    rcases Nat.lt_or_ge (i + 1) q.W with hi | hi
    · exact hsorted i hi
    · rw [hidle (i + 1) hi]
      exact Nat.zero_le _

end Deals

/-- An assignment that fits deals the shards out. -/
theorem exists_deals {A : ℕ → ℕ → ℕ} (hA : LinearA q.W q.cores q.shards A) (hfits : Fits q A) :
    ∃ f, Deals q f := by
  have hcores : q.cores = q.W + q.E := rfl
  obtain ⟨f, hf⟩ := exists_dealing hA.rows
  have hsame : ∀ s < q.shards, ∀ i < q.cores, A s i = dealing f s i := fun s hs => (hf s hs).2
  refine ⟨f, fun s hs => ?_, fun i hi => ?_, fits_dealing.mp (hfits.congr hsame)⟩
  · by_contra hge
    have hcore := (hf s hs).1
    -- the other cores have no shards
    have hidle := Fajita.eq_zero_of_sum_eq_zero
      (hA.idle (f s) (Finset.mem_Ico.mpr ⟨Nat.not_lt.mp hge, hcore⟩)) s hs
    rw [hsame s hs _ hcore, dealing, if_pos rfl] at hidle
    exact one_ne_zero hidle
  · have hbusy := hA.busy i hi
    rw [Finset.sum_congr rfl fun s hs => hsame s (Finset.mem_range.mp hs) i (by omega),
      sum_dealing_column] at hbusy
    exact dealt_pos_iff.mp hbusy

/-- There is a relation if there are enough working cores. -/
theorem exists_linearO (hle : q.E ≤ q.W) : ∃ O, LinearO q.W q.E q.cores O := by
  by_cases hE : q.E = 0
  · exact ⟨fun _ _ => 0, fun _ _ _ _ => Nat.zero_le 1, fun _ _ _ => Finset.sum_const_zero,
      fun h => absurd hE h, fun h => absurd hE h, fun h => absurd hE h, fun h => absurd hE h⟩
  · obtain ⟨G, hG, hcard⟩ := Finset.exists_subset_card_eq
      (show q.W - q.E + 1 ≤ (range q.W).card by rw [Finset.card_range]; omega)
    exact ⟨_, worst_linearO (A := fun _ _ => 0) hE hle hG hcard⟩

theorem LinearO.le {O : ℕ → ℕ → ℕ} (h : LinearO q.W q.E q.cores O) : q.E ≤ q.W := by
  by_cases hE : q.E = 0
  · omega
  · -- some core shares the first offloading core
    have hshare := h.card_sharers hE (Nat.pos_of_ne_zero hE)
    have hsome : (sharers q O 0).card ≠ 0 := by
      intro hnone
      have hused := h.used hE 0 (Nat.pos_of_ne_zero hE)
      have hzero : ∑ i ∈ range q.cores, O 0 i = 0 := by
        refine Finset.sum_eq_zero fun i hi => ?_
        have hi' := Finset.mem_range.mp hi
        rcases Nat.lt_or_ge i q.W with hW | hW
        · have hbinary := h.binary 0 (by omega) i hi'
          have hnot : O 0 i ≠ 1 := fun hone => by
            rw [Finset.card_eq_zero, sharers, Finset.filter_eq_empty_iff] at hnone
            exact hnone (Finset.mem_range.mpr hW) hone
          omega
        · exact h.idle_entry hE (Finset.mem_Ico.mpr ⟨hW, hi'⟩) (by omega)
      omega
    omega

/-- **The solver has an answer** exactly if the working cores are enough for the offloading cores
and the shards can be dealt out to them. -/
theorem exists_feasible_iff (served : List ℕ) (hpos : 0 < q.W) :
    (∃ x, Feasible (scale served) q x) ↔ (0 ≤ q.SLOr ∧ q.E ≤ q.W) ∧ ∃ f, Deals q f := by
  have hcore : 0 < q.cores := Nat.lt_add_right q.E hpos
  rw [scale_eq_zero]
  constructor
  · rintro ⟨x, hx⟩
    exact ⟨⟨hx.slo_nonneg hcore, hx.linearO.le⟩, exists_deals hx.linearA hx.fits⟩
  · rintro ⟨⟨hslo, hle⟩, f, h⟩
    obtain ⟨π, hπ, hπ', hsorted⟩ := exists_sorted q.shards q.W f
    have hrenamed := h.rename hπ hπ'
    obtain ⟨O, hO⟩ := exists_linearO hle
    exact ⟨_, plan_feasible hpos hslo (hrenamed.linearA hsorted) hO
      (fits_dealing.mpr hrenamed.fits)⟩

namespace Small

/-- Three shards and three working cores. -/
theorem crowded_answered : ∃ x, Feasible (scale []) crowded x := by
  refine (exists_feasible_iff [] (by decide)).mpr ⟨by decide +kernel, id, ?_⟩
  refine ⟨fun _ hs => hs, fun i hi => ⟨i, hi, rfl⟩, ?_⟩
  simp only [WorkFits]
  decide +kernel

end Small

end Fajita.Solver
