import Fajita.Distance
import Fajita.LoadBound

/-!
# What the solver minimizes

The objective of `short_solver` is the distance of the answer to the matrices in force,
so that an answer changes as little as the constraints allow. With the `SCALE` of 0 the
relation between working and offloading cores is never part of a constraint on loads:
any relation goes with any assignment (`exists_feasible_iff`). So

* an optimal answer keeps the relation in force, whatever the loads are, and among the
  assignments that fit the working cores it moves the fewest shards (`optimal_iff`);
* it moves none exactly if the assignment in force still fits.

The optimizer is outside: that it returns an optimal point is what `GRB_OPTIMAL` says.
-/

namespace Fajita.Solver

open Finset (range Ico)

variable {q : Problem} {x : Point} {A O : ℕ → ℕ → ℕ}

/-! ## The objective -/

/-- `obj` -/
def objective (q : Problem) (x : Point) : ℚ :=
  ∑ s ∈ range q.shards, ∑ i ∈ range q.cores, x.diffA s i +
    ∑ j ∈ range q.cores, ∑ i ∈ range q.cores, x.diffO j i

/-- The point is one `GRB_OPTIMAL` stands for. -/
structure Optimal (scale : UInt32) (q : Problem) (x : Point) : Prop where
  /-- it meets the constraints -/
  feasible : Feasible scale q x
  /-- and no other has a smaller objective -/
  least : ∀ y, Feasible scale q y → objective q x ≤ objective q y

/-- The objective is the distance to the matrices in force. -/
theorem Feasible.objective_eq {scale : UInt32} (h : Feasible scale q x) :
    objective q x = distance q.shards q.cores x.A q.Aold +
      distance q.cores q.cores x.O q.Oold := by
  rw [objective, distance, distance]
  congr 1
  · refine Finset.sum_congr rfl fun s hs => Finset.sum_congr rfl fun i hi => ?_
    obtain ⟨htemp, -, hdiff, -⟩ := h.distA s (Finset.mem_range.mp hs) i (Finset.mem_range.mp hi)
    rw [hdiff, htemp]
  · refine Finset.sum_congr rfl fun j hj => Finset.sum_congr rfl fun i hi => ?_
    obtain ⟨htemp, -, hdiff, -⟩ := h.distO j (Finset.mem_range.mp hj) i (Finset.mem_range.mp hi)
    rw [hdiff, htemp]

/-! ## Assignments that fit -/

/-- The most that core `i` can give away: nothing where there are no offloading cores. -/
def spare (q : Problem) (A : ℕ → ℕ → ℕ) (i : ℕ) : ℚ := if q.E = 0 then 0 else offer q A i

/-- The working cores are within their bounds when they give away all they can. -/
def Fits (q : Problem) (A : ℕ → ℕ → ℕ) : Prop :=
  ∀ i < q.W, WorkFits q (volume q A i - spare q A i)

theorem spare_bounds (i : ℕ) : 0 ≤ spare q A i ∧ spare q A i ≤ 9 / 10 ∧
    spare q A i ≤ volume q A i := by
  rw [spare]
  split
  · exact ⟨le_refl 0, by norm_num, volume_nonneg i⟩
  · exact ⟨offer_nonneg i, offer_le i⟩

/-- The loads of two assignments that agree are the same. -/
theorem volume_congr {A' : ℕ → ℕ → ℕ} (h : ∀ s < q.shards, ∀ i < q.cores, A s i = A' s i)
    {i : ℕ} (hi : i < q.cores) : volume q A i = volume q A' i :=
  Finset.sum_congr rfl fun s hs => by rw [h s (Finset.mem_range.mp hs) i hi]

theorem Fits.congr {A' : ℕ → ℕ → ℕ} (hA : ∀ s < q.shards, ∀ i < q.cores, A s i = A' s i)
    (h : Fits q A) : Fits q A' := by
  intro i hi
  have hvolume := volume_congr hA (show i < q.cores from Nat.lt_add_right q.E hi)
  have hfits := h i hi
  rw [hvolume, spare, offer, hvolume, ← offer, ← spare] at hfits
  exact hfits

/-- No core gives away more than it can. -/
theorem Feasible.loadWe_le_spare {scale : UInt32} (h : Feasible scale q x) {i : ℕ}
    (hi : i < q.cores) : x.loadWe i ≤ spare q x.A i := by
  rw [spare]
  split
  · next hE =>
    rw [← h.offloads i hi]
    exact (Finset.sum_eq_zero fun s hs => by
      rw [h.noRatio hE s (Finset.mem_range.mp hs), mul_zero]).le
  · exact (h.loadWe_le hi).2.1

/-- The assignment of a feasible point fits. -/
theorem Feasible.fits {scale : UInt32} (h : Feasible scale q x) : Fits q x.A := by
  intro i hi
  have hcore : i < q.cores := Nat.lt_add_right q.E hi
  have hless := h.loadWe_le_spare hcore
  have hload := (h.loadWe_le hcore).2.2
  exact (h.workFits hcore).mono (sub_nonneg.mpr (spare_bounds i).2.2) (by linarith)

/-! ## Any relation goes with an assignment that fits

The auxiliary variables of a feasible point follow from its two matrices. Hence an assignment that
fits is completed to a feasible point with any relation, the old one among them.
-/

/-- Everyone gives away as much as possible. -/
def plan (q : Problem) (A O : ℕ → ℕ → ℕ) : Point where
  A := A
  O := O
  r s := if q.E = 0 then 0 else (worst q A ∅).r s
  loadW i := volume q A i - spare q A i
  loadE _ := 0
  loadWe i := spare q A i
  varsW i := (volume q A i - spare q A i) / (1 - (volume q A i - spare q A i))
  varsE _ := 0
  avgW i := wait q.Cap q.Csp q.T (volume q A i - spare q A i)
  avgE _ := 0
  tempA s i := A s i - q.Aold s i
  diffA s i := |(A s i - q.Aold s i : ℚ)|
  tempO j i := O j i - q.Oold j i
  diffO j i := |(O j i - q.Oold j i : ℚ)|

theorem plan_offloads (hA : LinearA q.W q.cores q.shards A) {i : ℕ} (hi : i < q.cores) :
    ∑ s ∈ range q.shards, A s i * q.V s * (plan q A O).r s = spare q A i := by
  simp only [plan, spare]
  split
  · exact Finset.sum_eq_zero fun _ _ => mul_zero _
  · exact worst_offloads hA hi

theorem plan_ratio (hA : LinearA q.W q.cores q.shards A) {s : ℕ} (hs : s < q.shards) :
    0 ≤ (plan q A O).r s ∧ (plan q A O).r s ≤ 1 := by
  simp only [plan]
  split
  · exact ⟨le_refl 0, zero_le_one⟩
  · obtain ⟨i, -, -, hr, -⟩ := @worst_r q A ∅ hA s hs
    rw [hr]
    exact ⟨div_nonneg (offer_nonneg i) (volume_nonneg i),
      div_le_one_of_le₀ (offer_le i).2 (volume_nonneg i)⟩

/-- What the cores of the plan keep fits them, as it fits the working cores. -/
theorem plan_fits (hpos : 0 < q.W) (hA : LinearA q.W q.cores q.shards A) (hfits : Fits q A)
    {i : ℕ} (hi : i < q.cores) : WorkFits q (volume q A i - spare q A i) := by
  rcases Nat.lt_or_ge i q.W with hW | hW
  · exact hfits i hW
  · have hvolume := volume_idle hA (Finset.mem_Ico.mpr ⟨hW, hi⟩)
    obtain ⟨hnonneg, -, hle⟩ := @spare_bounds q A i
    have hidle : volume q A i - spare q A i = 0 := by linarith
    rw [hidle]
    exact (hfits 0 hpos).mono (le_refl 0) (sub_nonneg.mpr (spare_bounds 0).2.2)

/-- **Any relation goes with an assignment that fits.** -/
theorem plan_feasible (hpos : 0 < q.W) (hslo : 0 ≤ q.SLOr)
    (hA : LinearA q.W q.cores q.shards A) (hO : LinearO q.W q.E q.cores O) (hfits : Fits q A) :
    Feasible 0 q (plan q A O) := by
  have hload : ∀ i < q.cores, InLoad (volume q A i - spare q A i) := fun i hi =>
    ⟨sub_nonneg.mpr (spare_bounds i).2.2, (plan_fits hpos hA hfits hi).1⟩
  -- no offloading core has load: `receives` has the factor 0
  have hzero : InLoad 0 := ⟨le_refl 0, by norm_num⟩
  have hoffloads : ∀ i < q.cores, ∑ s ∈ range q.shards, A s i * q.V s * (plan q A O).r s =
      spare q A i := fun i hi => plan_offloads hA hi
  constructor
  case linearA => exact hA
  case linearO => exact hO
  case ratio => exact fun s hs => plan_ratio hA hs
  case noRatio => exact fun hE _ _ => if_pos hE
  case loads =>
    exact fun i hi => ⟨hload i hi, hzero, (spare_bounds i).1, (spare_bounds i).2.1⟩
  case nonneg =>
    exact fun i hi => ⟨(ratio_mono (hload i hi).1 (le_refl _) (hload i hi).2).1, le_refl 0,
      (plan_fits hpos hA hfits hi).2.1, le_refl 0⟩
  case distA => exact fun s hs i hi => distance_bounds (hA.binary s hs i hi) (q.Aold_le s i)
  case distO => exact fun j hj i hi => distance_bounds (hO.binary j hj i hi) (q.Oold_le j i)
  case keeps =>
    intro i hi
    change _ = volume q A i - spare q A i
    rw [← hoffloads i hi, volume, ← Finset.sum_sub_distrib]
    exact Finset.sum_congr rfl fun s _ => by
      rw [mul_sub, mul_one]
      rfl
  case offloads => exact hoffloads
  case varW =>
    intro i hi
    have h1 : 1 - (volume q A i - spare q A i) ≠ 0 := by
      have := (hload i hi).2
      have hpos : 0 < 1 - (volume q A i - spare q A i) := by linarith
      exact hpos.ne'
    exact div_mul_cancel₀ _ h1
  case waitW => exact fun i _ => rfl
  case sloW => exact fun i hi => (plan_fits hpos hA hfits hi).2.2
  case receives => exact fun j _ => zero_mul _
  case varE => exact fun j _ => zero_mul _
  case waitE => exact fun j _ => by rw [plan, zero_mul, zero_mul]
  case sloE => exact fun j _ => hslo

/-! ## Optimal answers

Of two points with the same assignment the one that keeps the relation is the cheaper one, since the
objective counts the entries that change. For the assignments what remains is the least distance
among those that fit.
-/

theorem LinearA.rows {W cores shards : ℕ} (h : LinearA W cores shards A) :
    ∀ s < shards, ∃ k < cores, ∀ i < cores, A s i = if i = k then 1 else 0 := fun s hs =>
  Fajita.exists_one_of_sum_eq_one (h.assigned s hs)

section

variable (hpos : 0 < q.W) (hA : LinearA q.W q.cores q.shards q.Aold)
  (hO : LinearO q.W q.E q.cores q.Oold)

/-- The plan that keeps the relation is as far away as its assignment. -/
theorem plan_objective (hfeasible : Feasible 0 q (plan q A q.Oold)) :
    objective q (plan q A q.Oold) = distance q.shards q.cores A q.Aold := by
  rw [hfeasible.objective_eq]
  change _ + distance q.cores q.cores q.Oold q.Oold = _
  rw [distance_self, add_zero]
  rfl

include hpos hO in
/-- An optimal answer is no farther away than the plan for an assignment that fits. -/
theorem Optimal.le_plan (h : Optimal 0 q x) (hlinear : LinearA q.W q.cores q.shards A)
    (hfits : Fits q A) : distance q.shards q.cores x.A q.Aold +
      distance q.cores q.cores x.O q.Oold ≤ distance q.shards q.cores A q.Aold := by
  have hslo : 0 ≤ q.SLOr := h.feasible.slo_nonneg (show 0 < q.cores from Nat.lt_add_right q.E hpos)
  have hplan := plan_feasible hpos hslo hlinear hO hfits
  have hleast := h.least _ hplan
  rw [plan_objective hplan, h.feasible.objective_eq] at hleast
  exact hleast

include hpos hO in
/-- **An optimal answer keeps the relation in force.** -/
theorem Optimal.keepsO (h : Optimal 0 q x) :
    ∀ j < q.cores, ∀ i < q.cores, x.O j i = q.Oold j i := by
  have hle := h.le_plan hpos hO h.feasible.linearA h.feasible.fits
  have hnonneg := @distance_nonneg q.cores q.cores x.O q.Oold
  exact distance_eq_zero_iff.mp (by linarith)

include hA in
/-- Assignments are compared by the shards they move. -/
theorem distance_eq_moved (hlinear : LinearA q.W q.cores q.shards A) :
    distance q.shards q.cores A q.Aold = 2 * changed q.shards q.cores A q.Aold :=
  distance_eq_changed hlinear.rows hA.rows

include hpos hA hO in
/-- **An optimal answer moves the fewest shards.** -/
theorem Optimal.moves_least (h : Optimal 0 q x) (hlinear : LinearA q.W q.cores q.shards A)
    (hfits : Fits q A) :
    changed q.shards q.cores x.A q.Aold ≤ changed q.shards q.cores A q.Aold := by
  have hle := h.le_plan hpos hO hlinear hfits
  rw [distance_eq_zero_iff.mpr (h.keepsO hpos hO), add_zero,
    distance_eq_moved hA h.feasible.linearA, distance_eq_moved hA hlinear] at hle
  have hcast : (changed q.shards q.cores x.A q.Aold : ℚ) ≤ changed q.shards q.cores A q.Aold := by
    linarith
  exact_mod_cast hcast

include hA in
/-- Conversely, an answer that keeps the relation and moves the fewest shards is optimal. -/
theorem Optimal.of_least (hx : Feasible 0 q x)
    (hkeeps : ∀ j < q.cores, ∀ i < q.cores, x.O j i = q.Oold j i)
    (hleast : ∀ A, LinearA q.W q.cores q.shards A → Fits q A →
      changed q.shards q.cores x.A q.Aold ≤ changed q.shards q.cores A q.Aold) :
    Optimal 0 q x := by
  refine ⟨hx, fun y hy => ?_⟩
  have hmoved :
      (changed q.shards q.cores x.A q.Aold : ℚ) ≤ changed q.shards q.cores y.A q.Aold := by
    exact_mod_cast hleast y.A hy.linearA hy.fits
  have hnonneg := @distance_nonneg q.cores q.cores y.O q.Oold
  rw [hx.objective_eq, hy.objective_eq, distance_eq_zero_iff.mpr hkeeps,
    distance_eq_moved hA hx.linearA, distance_eq_moved hA hy.linearA]
  linarith

include hpos hA hO in
/-- The assignment in force is kept exactly if it fits. -/
theorem Optimal.keepsA_iff (h : Optimal 0 q x) :
    changed q.shards q.cores x.A q.Aold = 0 ↔ Fits q q.Aold := by
  constructor
  · intro hzero
    exact h.feasible.fits.congr (changed_eq_zero_iff.mp hzero)
  · intro hfits
    have hle := h.moves_least hpos hA hO hA hfits
    rw [changed_eq_zero_iff.mpr fun _ _ _ _ => rfl] at hle
    exact Nat.le_zero.mp hle

/-- **An optimal answer keeps the relation in force and moves the fewest shards** among the
assignments that fit, and it moves none exactly if the assignment in force fits. -/
theorem optimal_iff (served : List ℕ) (hpos : 0 < q.W)
    (hA : LinearA q.W q.cores q.shards q.Aold) (hO : LinearO q.W q.E q.cores q.Oold)
    (hx : Feasible (scale served) q x) :
    (Optimal (scale served) q x ↔ (∀ j < q.cores, ∀ i < q.cores, x.O j i = q.Oold j i) ∧
      ∀ A, LinearA q.W q.cores q.shards A → Fits q A →
        changed q.shards q.cores x.A q.Aold ≤ changed q.shards q.cores A q.Aold) ∧
    (Optimal (scale served) q x →
      (changed q.shards q.cores x.A q.Aold = 0 ↔ Fits q q.Aold)) := by
  rw [scale_eq_zero] at hx ⊢
  refine ⟨⟨fun h => ⟨h.keepsO hpos hO, fun _ => h.moves_least hpos hA hO⟩, ?_⟩,
    fun h => h.keepsA_iff hpos hA hO⟩
  rintro ⟨hkeeps, hleast⟩
  exact .of_least hA hx hkeeps hleast

end

namespace Small

/-- The crowded placement stays in force. -/
theorem crowded_optimal :
    Optimal (scale []) crowded (plan crowded crowded.Aold crowded.Oold) ∧
      (changed crowded.shards crowded.cores crowded.Aold crowded.Aold = 0 ↔
        Fits crowded crowded.Aold) := by
  have hA : LinearA crowded.W crowded.cores crowded.shards crowded.Aold :=
    ⟨by decide, by decide, by decide, by decide, by decide⟩
  have hO : LinearO crowded.W crowded.E crowded.cores crowded.Oold :=
    ⟨by decide, by decide, by decide, by decide, by decide, by decide⟩
  have hfits : Fits crowded crowded.Aold := by
    simp only [Fits, WorkFits]
    decide +kernel
  have hx : Feasible (scale []) crowded (plan crowded crowded.Aold crowded.Oold) :=
    plan_feasible (by decide) (by decide +kernel) hA hO hfits
  have hiff := optimal_iff [] (by decide) hA hO hx
  have hoptimal := hiff.1.mpr ⟨fun _ _ _ _ => rfl, fun A _ _ => by
    have hzero : changed crowded.shards crowded.cores crowded.Aold crowded.Aold = 0 := by decide
    exact hzero.le.trans (Nat.zero_le _)⟩
  exact ⟨hoptimal, hiff.2 hoptimal⟩

end Small

end Fajita.Solver
