import Fajita.Placement
import Mathlib.Algebra.Order.Field.Basic
import Mathlib.Algebra.Order.BigOperators.Ring.Finset
import Mathlib.Data.Nat.Count
import Mathlib.Tactic.Linarith
import Mathlib.Tactic.Positivity
import Mathlib.Tactic.FieldSimp
import Mathlib.Tactic.Ring

/-!
# The bound on the load of an offloading core

`short_solver` means to keep the load of every core at most 0.9 and its mean wait
within its bound (`Respects`). For the working cores it does. For the offloading cores
the constraint is multiplied by `SCALE`, which is 0, so every relation is feasible for
them (`loadE_eq_zero`), and what they are offered is limited by what each working core
may offload, at most 0.9.

So the bound holds of all feasible points exactly if the working cores cannot offer too
much (`Slack`): in every assignment that leaves the working cores within their bounds,
any `W - E + 1` of them, the most that can share an offloading core, together offer no
more than it can take.
-/

namespace Fajita.Solver

open Finset (range Ico)

variable {q : Problem} {x : Point}

/-! ## Loads and waits -/

/-- Mean wait of a core with load `l`: `load/(1-load) * ((Ca^2+Cs^2)/2) * T`. -/
def wait (Ca Cs T l : ℚ) : ℚ := l / (1 - l) * ((Ca * Ca + Cs * Cs) / 2) * T

/-- The load of shard traffic assigned to core `i`. -/
def volume (q : Problem) (A : ℕ → ℕ → ℕ) (i : ℕ) : ℚ := ∑ s ∈ range q.shards, A s i * q.V s

/-- The most that core `i` can offload. -/
def offer (q : Problem) (A : ℕ → ℕ → ℕ) (i : ℕ) : ℚ := min (9 / 10) (volume q A i)

/-- A working core can keep the load `l`. -/
def WorkFits (q : Problem) (l : ℚ) : Prop :=
  l ≤ 9 / 10 ∧ 0 ≤ wait q.Cap q.Csp q.T l ∧ wait q.Cap q.Csp q.T l ≤ q.SLOp

/-- An offloading core can take the load `l`. -/
def CoreFits (q : Problem) (l : ℚ) : Prop :=
  l ≤ 9 / 10 ∧ wait q.Car q.Csr q.Te l ≤ q.SLOr

/-- The load a point offers to offloading core `j`, scaled by 0.4. -/
def offered (q : Problem) (x : Point) (j : ℕ) : ℚ :=
  4 / 10 * ∑ i ∈ range q.cores, x.O j i * ∑ s ∈ range q.shards, x.A s i * q.V s * x.r s

/-- The load a point leaves working core `i`. -/
def kept (q : Problem) (x : Point) (i : ℕ) : ℚ :=
  ∑ s ∈ range q.shards, x.A s i * q.V s * (1 - x.r s)

/-- **What the model is for**: no core gets more load than it can serve in time. -/
structure Respects (q : Problem) (x : Point) : Prop where
  /-- the offloading cores -/
  core : ∀ j < q.E, CoreFits q (offered q x j)
  /-- the working cores -/
  work : ∀ i < q.W, kept q x i ≤ 9 / 10 ∧ wait q.Cap q.Csp q.T (kept q x i) ≤ q.SLOp

/-- The working cores cannot offer more than the offloading cores can take. -/
def Slack (q : Problem) : Prop :=
  q.E ≠ 0 → q.E ≤ q.W → 0 ≤ q.SLOr → ∀ A : ℕ → ℕ → ℕ, LinearA q.W q.cores q.shards A →
    (∀ i < q.W, WorkFits q (volume q A i - offer q A i)) →
      ∀ G ⊆ range q.W, G.card = q.W - q.E + 1 → CoreFits q (4 / 10 * ∑ i ∈ G, offer q A i)

theorem wait_eq (Ca Cs T l : ℚ) :
    wait Ca Cs T l = l / (1 - l) * ((Ca * Ca + Cs * Cs) / 2 * T) := mul_assoc _ _ _

/-- More load, more waiting. -/
theorem ratio_mono {l m : ℚ} (h0 : 0 ≤ l) (hlm : l ≤ m) (hm : m ≤ 9 / 10) :
    0 ≤ l / (1 - l) ∧ l / (1 - l) ≤ m / (1 - m) := by
  have hl1 : 0 < 1 - l := by linarith
  have hm1 : 0 < 1 - m := by linarith
  refine ⟨div_nonneg h0 hl1.le, ?_⟩
  rw [div_le_div_iff₀ hl1 hm1]
  nlinarith

theorem WorkFits.mono {l m : ℚ} (h : WorkFits q m) (h0 : 0 ≤ l) (hlm : l ≤ m) : WorkFits q l := by
  obtain ⟨hm, hpos, hslo⟩ := h
  obtain ⟨hl, hle⟩ := ratio_mono h0 hlm hm
  rw [wait_eq] at hpos hslo
  rw [WorkFits, wait_eq]
  refine ⟨hlm.trans hm, ?_⟩
  generalize (q.Cap * q.Cap + q.Csp * q.Csp) / 2 * q.T = k at hpos hslo ⊢
  rcases le_or_gt 0 k with hk | hk
  · exact ⟨mul_nonneg hl hk, (mul_le_mul_of_nonneg_right hle hk).trans hslo⟩
  · -- a negative service time leaves room for no load at all
    have hm0 : m / (1 - m) = 0 :=
      le_antisymm (by nlinarith) (hl.trans hle)
    have hl0 : l / (1 - l) = 0 := le_antisymm (hm0 ▸ hle) hl
    rw [hm0, zero_mul] at hslo
    rw [hl0, zero_mul]
    exact ⟨le_refl 0, hslo⟩

theorem CoreFits.mono {l m : ℚ} (h : CoreFits q m) (hslo : 0 ≤ q.SLOr) (h0 : 0 ≤ l)
    (hlm : l ≤ m) : CoreFits q l := by
  obtain ⟨hm, hwait⟩ := h
  obtain ⟨hl, hle⟩ := ratio_mono h0 hlm hm
  rw [wait_eq] at hwait
  rw [CoreFits, wait_eq]
  refine ⟨hlm.trans hm, ?_⟩
  generalize (q.Car * q.Car + q.Csr * q.Csr) / 2 * q.Te = k at hwait ⊢
  rcases le_or_gt 0 k with hk | hk
  · exact (mul_le_mul_of_nonneg_right hle hk).trans hwait
  · exact (mul_nonpos_of_nonneg_of_nonpos hl hk.le).trans hslo

/-! ## What feasible points look like

The quadratic constraints determine the auxiliary variables, so that a feasible point is known from
its matrices and its ratios.
-/

/-- The variables `load/(1-load)` and the waits are what they are called. -/
theorem varsW_eq {l v : ℚ} (hl : l ≤ 9 / 10) (h : v * (1 - l) = l) : v = l / (1 - l) := by
  have h1 : 1 - l ≠ 0 := by
    have : 0 < 1 - l := by linarith
    exact this.ne'
  rw [eq_div_iff h1, h]

namespace Feasible

variable {scale : UInt32}

/-- **The working cores** are within their bounds. -/
theorem workFits (h : Feasible scale q x) {i : ℕ} (hi : i < q.cores) :
    WorkFits q (x.loadW i) := by
  have hload := (h.loads i hi).1.2
  have hwait : x.avgW i = wait q.Cap q.Csp q.T (x.loadW i) := by
    rw [h.waitW i hi, varsW_eq hload (h.varW i hi)]
    rfl
  refine ⟨hload, ?_, ?_⟩
  · rw [← hwait]
    exact (h.nonneg i hi).2.2.1
  · rw [← hwait]
    exact h.sloW i hi

/-- **Nothing is ever counted** as load of an offloading core. -/
theorem loadE_eq_zero (h : Feasible 0 q x) {j : ℕ} (hj : j < q.cores) : x.loadE j = 0 := by
  rw [← h.receives j hj]
  exact zero_mul _

/-- All that is left of the bound on the offloading cores. -/
theorem slo_nonneg (h : Feasible 0 q x) {j : ℕ} (hj : j < q.cores) : 0 ≤ q.SLOr := by
  have hvar : x.varsE j = 0 := by
    have := h.varE j hj
    rw [h.loadE_eq_zero hj, sub_zero, mul_one] at this
    exact this
  have hwait : x.avgE j = 0 := by rw [h.waitE j hj, hvar, zero_mul, zero_mul]
  rw [← hwait]
  exact h.sloE j hj

/-- A core offers what it does not keep. -/
theorem loadWe_le (h : Feasible scale q x) {i : ℕ} (hi : i < q.cores) :
    0 ≤ x.loadWe i ∧ x.loadWe i ≤ offer q x.A i ∧
      x.loadW i = volume q x.A i - x.loadWe i := by
  have hsum : x.loadW i + x.loadWe i = volume q x.A i := by
    rw [← h.keeps i hi, ← h.offloads i hi, ← Finset.sum_add_distrib]
    exact Finset.sum_congr rfl fun s _ => by ring
  have hkeep := (h.loads i hi).1.1
  refine ⟨(h.loads i hi).2.2.1, le_min (h.loads i hi).2.2.2 (by linarith), by linarith⟩

end Feasible

/-! ## The working cores that share an offloading core

Every other offloading core must be used by somebody. So at most `W - (E - 1)` working cores can
share one.
-/

/-- The working cores that offload to core `j`. -/
def sharers (q : Problem) (O : ℕ → ℕ → ℕ) (j : ℕ) : Finset ℕ :=
  (range q.W).filter fun i => O j i = 1

/-- Entries of idle cores are 0. -/
theorem LinearO.idle_entry {W E cores : ℕ} {O : ℕ → ℕ → ℕ} (h : LinearO W E cores O)
    (hE : E ≠ 0) {i : ℕ} (hi : i ∈ Ico W cores) {j : ℕ} (hj : j < cores) : O j i = 0 :=
  Fajita.eq_zero_of_sum_eq_zero (h.idle hE i hi) j hj

/-- Every other offloading core is used, so only so many can share one. -/
theorem LinearO.card_sharers {O : ℕ → ℕ → ℕ} (h : LinearO q.W q.E q.cores O) (hE : q.E ≠ 0)
    {j : ℕ} (hj : j < q.E) : (sharers q O j).card + (q.E - 1) ≤ q.W := by
  have hcores : q.cores = q.W + q.E := rfl
  have hrow : ∀ e < q.E, ∑ i ∈ range q.cores, O e i = ∑ i ∈ range q.W, O e i := by
    intro e he
    refine (Finset.sum_subset (Finset.range_mono (by omega)) fun i hi hno => ?_).symm
    rw [Finset.mem_range] at hi hno
    exact h.idle_entry hE (Finset.mem_Ico.mpr ⟨by omega, hi⟩) (by omega)
  have htotal : ∑ e ∈ range q.E, ∑ i ∈ range q.W, O e i = q.W := by
    rw [Finset.sum_comm, Finset.sum_congr rfl fun i hi => h.single hE i (Finset.mem_range.mp hi)]
    simp
  have hcard : (sharers q O j).card = ∑ i ∈ range q.W, O j i := by
    rw [sharers, Finset.card_filter]
    refine Finset.sum_congr rfl fun i hi => ?_
    have hle := h.binary j (by omega) i (by have := Finset.mem_range.mp hi; omega)
    split
    · next hone => rw [hone]
    · omega
  have hothers : q.E - 1 ≤ ∑ e ∈ (range q.E).erase j, ∑ i ∈ range q.W, O e i := by
    calc q.E - 1 = ∑ _e ∈ (range q.E).erase j, 1 := by
          rw [← Finset.card_eq_sum_ones, Finset.card_erase_of_mem (Finset.mem_range.mpr hj),
            Finset.card_range]
      _ ≤ _ := Finset.sum_le_sum fun e he => by
          have he' := Finset.mem_range.mp (Finset.mem_of_mem_erase he)
          rw [← hrow e he']
          exact h.used hE e he'
  rw [← Finset.add_sum_erase _ _ (Finset.mem_range.mpr hj), ← hcard] at htotal
  omega

/-- What an offloading core is offered comes from the cores that share it. -/
theorem Feasible.offered_eq {scale : UInt32} (h : Feasible scale q x) (hE : q.E ≠ 0) {j : ℕ}
    (hj : j < q.E) : offered q x j = 4 / 10 * ∑ i ∈ sharers q x.O j, x.loadWe i := by
  have hcores : q.cores = q.W + q.E := rfl
  rw [offered]
  congr 1
  have hsub : sharers q x.O j ⊆ range q.cores := fun i hi => by
    have := Finset.mem_range.mp (Finset.mem_filter.mp hi).1
    exact Finset.mem_range.mpr (by omega)
  rw [← Finset.sum_subset hsub]
  · refine Finset.sum_congr rfl fun i hi => ?_
    rw [(Finset.mem_filter.mp hi).2, h.offloads i (Finset.mem_range.mp (hsub hi)), Nat.cast_one,
      one_mul]
  · intro i hi hno
    have hi' := Finset.mem_range.mp hi
    have hzero : x.O j i = 0 := by
      rcases Nat.lt_or_ge i q.W with hW | hW
      · have hle := h.linearO.binary j (by omega) i hi'
        have hne : x.O j i ≠ 1 := fun hone =>
          hno (Finset.mem_filter.mpr ⟨Finset.mem_range.mpr hW, hone⟩)
        omega
      · exact h.linearO.idle_entry hE (Finset.mem_Ico.mpr ⟨hW, hi'⟩) (by omega)
    rw [hzero, Nat.cast_zero, zero_mul]

/-- **Slack is enough.** -/
theorem Feasible.respects (h : Feasible 0 q x) (hslack : Slack q) : Respects q x := by
  have hcores : q.cores = q.W + q.E := rfl
  constructor
  · intro j hj
    have hE : q.E ≠ 0 := by omega
    have hcard := h.linearO.card_sharers hE hj
    have hused : 1 ≤ (sharers q x.O j).card := by
      obtain ⟨i, hi, hone⟩ := Fajita.exists_one_of_sum_pos (h.linearO.used hE j hj)
        fun i hi => h.linearO.binary j (by omega) i hi
      refine Finset.card_pos.mpr ⟨i, Finset.mem_filter.mpr ⟨Finset.mem_range.mpr ?_, hone⟩⟩
      by_contra hW
      rw [h.linearO.idle_entry hE (Finset.mem_Ico.mpr ⟨by omega, hi⟩) (by omega)] at hone
      cases hone
    have hslo := h.slo_nonneg (show j < q.cores by omega)
    -- the sharers are at most `W - E + 1`: enlarge them to a set `Slack` speaks about
    obtain ⟨G, hsub, hG, hcardG⟩ := Finset.exists_subsuperset_card_eq
      (Finset.filter_subset (fun i => x.O j i = 1) (range q.W)) (n := q.W - q.E + 1)
      (by rw [← sharers]; omega) (by rw [Finset.card_range]; omega)
    -- offering all that may be offered leaves a core less load than `x` does
    have hwork : ∀ i < q.W, WorkFits q (volume q x.A i - offer q x.A i) := by
      intro i hi
      obtain ⟨-, hle, hkeep⟩ := h.loadWe_le (show i < q.cores by omega)
      refine (h.workFits (show i < q.cores by omega)).mono ?_ (by linarith)
      have := min_le_right (9 / 10) (volume q x.A i)
      rw [offer]
      linarith
    refine (hslack hE (by omega) hslo x.A h.linearA hwork G hG hcardG).mono hslo ?_ ?_
    · rw [h.offered_eq hE hj]
      refine mul_nonneg (by norm_num) (Finset.sum_nonneg fun i hi => ?_)
      have := Finset.mem_range.mp (Finset.mem_filter.mp hi).1
      exact (h.loadWe_le (show i < q.cores by omega)).1
    · rw [h.offered_eq hE hj]
      refine mul_le_mul_of_nonneg_left ?_ (by norm_num)
      have hG' : ∀ i ∈ G, i < q.cores := fun i hi => by
        have := Finset.mem_range.mp (hG hi)
        omega
      calc ∑ i ∈ sharers q x.O j, x.loadWe i
          ≤ ∑ i ∈ G, x.loadWe i :=
            Finset.sum_le_sum_of_subset_of_nonneg hsub fun i hi _ => (h.loadWe_le (hG' i hi)).1
        _ ≤ ∑ i ∈ G, offer q x.A i :=
            Finset.sum_le_sum fun i hi => (h.loadWe_le (hG' i hi)).2.1
  · intro i hi
    have hfits := h.workFits (show i < q.cores by omega)
    rw [kept, h.keeps i (by omega)]
    exact ⟨hfits.1, hfits.2.2⟩

/-! ## The worst point

If so many cores share one offloading core and every core offloads as much as it can, the load of
that core is as high as it gets. The point is feasible, because `SCALE` is 0 and so the constraints
on the load of an offloading core come to nothing.
-/

/-- Some number before `n` is the one with exactly `k` of its kind before it. -/
theorem exists_of_lt_count (P : ℕ → Prop) [DecidablePred P] {k n : ℕ} (h : k < Nat.count P n) :
    ∃ i < n, P i ∧ Nat.count P i = k := by
  induction n with
  | zero => simp at h
  | succ n ih =>
    rw [Nat.count_succ] at h
    rcases Nat.lt_or_ge k (Nat.count P n) with hlt | hge
    · obtain ⟨i, hi, hP⟩ := ih hlt
      exact ⟨i, by omega, hP⟩
    · split at h
      · next hPn => exact ⟨n, n.lt_succ_self, hPn, by omega⟩
      · omega

/-- The cores in `G` share offloading core 0, the others have one each. -/
def row (G : Finset ℕ) (i : ℕ) : ℕ := if i ∈ G then 0 else Nat.count (· ∉ G) i + 1

/-- Everyone offloads as much as possible, and the cores in `G` to one core. -/
def worst (q : Problem) (A : ℕ → ℕ → ℕ) (G : Finset ℕ) : Point where
  A := A
  O j i := if i < q.W ∧ j = row G i then 1 else 0
  r s := ∑ i ∈ range q.cores, A s i * (offer q A i / volume q A i)
  loadW i := volume q A i - offer q A i
  loadE _ := 0
  loadWe i := offer q A i
  varsW i := (volume q A i - offer q A i) / (1 - (volume q A i - offer q A i))
  varsE _ := 0
  avgW i := wait q.Cap q.Csp q.T (volume q A i - offer q A i)
  avgE _ := 0
  tempA s i := A s i - q.Aold s i
  diffA s i := |(A s i - q.Aold s i : ℚ)|
  tempO j i := (if i < q.W ∧ j = row G i then 1 else 0 : ℕ) - q.Oold j i
  diffO j i := |((if i < q.W ∧ j = row G i then 1 else 0 : ℕ) - q.Oold j i : ℚ)|

section

variable {A : ℕ → ℕ → ℕ} {G : Finset ℕ}

theorem volume_nonneg (i : ℕ) : 0 ≤ volume q A i :=
  Finset.sum_nonneg fun s _ => mul_nonneg (Nat.cast_nonneg _) (q.V_nonneg s)

theorem offer_nonneg (i : ℕ) : 0 ≤ offer q A i := le_min (by norm_num) (volume_nonneg i)

theorem offer_le (i : ℕ) : offer q A i ≤ 9 / 10 ∧ offer q A i ≤ volume q A i :=
  ⟨min_le_left _ _, min_le_right _ _⟩

/-- Two entries of 0/1 matrices differ by at most 1. -/
theorem abs_sub_le_one {a b : ℕ} (ha : a ≤ 1) (hb : b ≤ 1) : |(a : ℚ) - b| ≤ 1 := by
  have ha' : (a : ℚ) ≤ 1 := by exact_mod_cast ha
  have hb' : (b : ℚ) ≤ 1 := by exact_mod_cast hb
  rw [abs_le]
  constructor <;> linarith [Nat.cast_nonneg (α := ℚ) a, Nat.cast_nonneg (α := ℚ) b]

/-- The distance of two entries keeps its bounds. -/
theorem distance_bounds {a b : ℕ} (ha : a ≤ 1) (hb : b ≤ 1) :
    (a - b : ℚ) = a - b ∧ |(a - b : ℚ)| ≤ 1 ∧ |(a - b : ℚ)| = |(a - b : ℚ)| ∧
      |(|(a - b : ℚ)|)| ≤ 1 := by
  have hle := abs_sub_le_one ha hb
  exact ⟨rfl, hle, rfl, by rw [abs_abs]; exact hle⟩

section

variable (hA : LinearA q.W q.cores q.shards A)

include hA

/-- An idle core has no load. -/
theorem volume_idle {i : ℕ} (hi : i ∈ Ico q.W q.cores) : volume q A i = 0 := by
  refine Finset.sum_eq_zero fun s hs => ?_
  rw [Fajita.eq_zero_of_sum_eq_zero (hA.idle i hi) s (Finset.mem_range.mp hs), Nat.cast_zero,
    zero_mul]

/-- The share of a shard is that of its core. -/
theorem worst_r {s : ℕ} (hs : s < q.shards) : ∃ i < q.cores, A s i = 1 ∧
    (worst q A G).r s = offer q A i / volume q A i ∧ ∀ k < q.cores, k ≠ i → A s k = 0 := by
  obtain ⟨i, hi, hrow⟩ := Fajita.exists_one_of_sum_eq_one (hA.assigned s hs)
  refine ⟨i, hi, by rw [hrow i hi, if_pos rfl], ?_, fun k hk hne => by rw [hrow k hk, if_neg hne]⟩
  change ∑ k ∈ range q.cores, A s k * (offer q A k / volume q A k) = _
  rw [Finset.sum_eq_single_of_mem i (Finset.mem_range.mpr hi) fun k hk hne => by
      rw [hrow k (Finset.mem_range.mp hk), if_neg hne, Nat.cast_zero, zero_mul],
    hrow i hi, if_pos rfl, Nat.cast_one, one_mul]

/-- The cores offload what they offer. -/
theorem worst_offloads {i : ℕ} (hi : i < q.cores) :
    ∑ s ∈ range q.shards, A s i * q.V s * (worst q A G).r s = offer q A i := by
  have hterm : ∀ s ∈ range q.shards, A s i * q.V s * (worst q A G).r s =
      A s i * q.V s * (offer q A i / volume q A i) := by
    intro s hs
    obtain ⟨k, hk, -, hr, hzero⟩ := worst_r (G := G) hA (Finset.mem_range.mp hs)
    by_cases hki : i = k
    · rw [hki, hr]
    · rw [hzero i hi hki, Nat.cast_zero, zero_mul, zero_mul, zero_mul]
  rw [Finset.sum_congr rfl hterm, ← Finset.sum_mul, ← volume]
  by_cases h0 : volume q A i = 0
  · rw [h0, zero_mul, offer, h0, min_eq_right (by norm_num)]
  · rw [mul_div_cancel₀ _ h0]

end

/-- The rows of the working cores. -/
theorem row_lt (hE : q.E ≠ 0) (hle : q.E ≤ q.W) (hG : G ⊆ range q.W)
    (hcard : G.card = q.W - q.E + 1) :
    (∀ i < q.W, row G i < q.E) ∧ ∀ j < q.E, ∃ i < q.W, row G i = j := by
  have hcount : Nat.count (· ∉ G) q.W = q.E - 1 := by
    have hfilter : (range q.W).filter (· ∉ G) = range q.W \ G := by
      ext i
      simp
    rw [Nat.count_eq_card_filter_range, hfilter, Finset.card_sdiff_of_subset hG, Finset.card_range,
      hcard]
    omega
  constructor
  · intro i hi
    rw [row]
    split
    · omega
    · next hno =>
      have := Nat.count_strict_mono (p := (· ∉ G)) hno hi
      omega
  · intro j hj
    rcases Nat.eq_zero_or_pos j with rfl | hpos
    · obtain ⟨i, hi⟩ := Finset.card_pos.mp (show 0 < G.card by omega)
      exact ⟨i, Finset.mem_range.mp (hG hi), if_pos hi⟩
    · obtain ⟨i, hi, hno, hk⟩ := exists_of_lt_count (· ∉ G) (k := j - 1) (n := q.W) (by omega)
      exact ⟨i, hi, by rw [row, if_neg hno, hk]; omega⟩

/-- The relation of the worst point meets the linear constraints. -/
theorem worst_linearO (hE : q.E ≠ 0) (hle : q.E ≤ q.W) (hG : G ⊆ range q.W)
    (hcard : G.card = q.W - q.E + 1) : LinearO q.W q.E q.cores (worst q A G).O := by
  have hcores : q.cores = q.W + q.E := rfl
  obtain ⟨hlt, hsurj⟩ := row_lt hE hle hG hcard
  have hentry : ∀ j i, (worst q A G).O j i = if i < q.W ∧ j = row G i then 1 else 0 :=
    fun _ _ => rfl
  refine ⟨fun j _ i _ => ?_, fun h0 => absurd h0 hE, fun _ i hi => ?_, fun _ i hi => ?_,
    fun _ i hi => ?_, fun _ j hj => ?_⟩
  · rw [hentry]
    split <;> omega
  · have hrow := hlt i hi
    simp only [hentry, hi, true_and]
    rw [Finset.sum_ite_eq', if_pos (Finset.mem_range.mpr hrow)]
  · refine Finset.sum_eq_zero fun j hj => ?_
    have hrow := hlt i hi
    have hj' := (Finset.mem_Ico.mp hj).1
    rw [hentry, if_neg fun h => by omega]
  · have hi' := (Finset.mem_Ico.mp hi).1
    exact Finset.sum_eq_zero fun j _ => by rw [hentry, if_neg fun h => by omega]
  · obtain ⟨i, hi, hrow⟩ := hsurj j hj
    refine (Finset.single_le_sum (f := fun i => (worst q A G).O j i) (fun _ _ => Nat.zero_le _)
      (Finset.mem_range.mpr (show i < q.cores by omega))).trans' ?_
    rw [hentry, if_pos ⟨hi, hrow.symm⟩]

/-- What the cores of the worst point keep fits them, as it fits the working cores. -/
theorem worst_fits (hpos : 0 < q.W) (hA : LinearA q.W q.cores q.shards A)
    (hwork : ∀ i < q.W, WorkFits q (volume q A i - offer q A i)) {i : ℕ} (hi : i < q.cores) :
    WorkFits q (volume q A i - offer q A i) := by
  rcases Nat.lt_or_ge i q.W with hW | hW
  · exact hwork i hW
  · have hidle : volume q A i - offer q A i = 0 := by
      rw [offer, volume_idle hA (Finset.mem_Ico.mpr ⟨hW, hi⟩), min_eq_right (by norm_num), sub_zero]
    rw [hidle]
    exact (hwork 0 hpos).mono (le_refl 0) (sub_nonneg.mpr (offer_le 0).2)

/-- **The worst point is feasible.** -/
theorem worst_feasible (hE : q.E ≠ 0) (hle : q.E ≤ q.W) (hslo : 0 ≤ q.SLOr)
    (hA : LinearA q.W q.cores q.shards A)
    (hwork : ∀ i < q.W, WorkFits q (volume q A i - offer q A i)) (hG : G ⊆ range q.W)
    (hcard : G.card = q.W - q.E + 1) : Feasible 0 q (worst q A G) := by
  have hfits : ∀ i < q.cores, WorkFits q (volume q A i - offer q A i) := fun i hi =>
    worst_fits (by omega) hA hwork hi
  have hload : ∀ i < q.cores, InLoad (volume q A i - offer q A i) := fun i hi =>
    ⟨sub_nonneg.mpr (offer_le i).2, (hfits i hi).1⟩
  have hentry : ∀ j i, (worst q A G).O j i ≤ 1 := by
    intro j i
    change (if i < q.W ∧ j = row G i then 1 else 0) ≤ 1
    split <;> omega
  -- no offloading core has load at the worst point: `receives` has the factor 0
  have hzero : InLoad 0 := ⟨le_refl 0, by norm_num⟩
  have hoffer : ∀ i < q.cores, ∑ s ∈ range q.shards, A s i * q.V s * (worst q A G).r s =
      offer q A i := fun i hi => worst_offloads hA hi
  constructor
  case linearA => exact hA
  case linearO => exact worst_linearO hE hle hG hcard
  case ratio =>
    intro s hs
    obtain ⟨i, -, -, hr, -⟩ := worst_r (G := G) hA hs
    rw [hr]
    exact ⟨div_nonneg (offer_nonneg i) (volume_nonneg i),
      div_le_one_of_le₀ (offer_le i).2 (volume_nonneg i)⟩
  case noRatio => exact fun h0 => absurd h0 hE
  case loads => exact fun i hi => ⟨hload i hi, hzero, offer_nonneg i, (offer_le i).1⟩
  case nonneg =>
    exact fun i hi => ⟨(ratio_mono (hload i hi).1 (le_refl _) (hload i hi).2).1, le_refl 0,
      (hfits i hi).2.1, le_refl 0⟩
  case distA => exact fun s hs i hi => distance_bounds (hA.binary s hs i hi) (q.Aold_le s i)
  case distO => exact fun j _ i _ => distance_bounds (hentry j i) (q.Oold_le j i)
  case keeps =>
    intro i hi
    change _ = volume q A i - offer q A i
    rw [← hoffer i hi, volume, ← Finset.sum_sub_distrib]
    exact Finset.sum_congr rfl fun s _ => by
      rw [mul_sub, mul_one]
      rfl
  case offloads => exact hoffer
  case varW =>
    intro i hi
    have h1 : 1 - (volume q A i - offer q A i) ≠ 0 := by
      have := (hload i hi).2
      have hpos : 0 < 1 - (volume q A i - offer q A i) := by linarith
      exact hpos.ne'
    exact div_mul_cancel₀ _ h1
  case waitW => exact fun i _ => rfl
  case sloW => exact fun i hi => (hfits i hi).2.2
  case receives => exact fun j _ => zero_mul _
  case varE => exact fun j _ => zero_mul _
  case waitE => exact fun j _ => by rw [worst, zero_mul, zero_mul]
  case sloE => exact fun j _ => hslo

end

/-! ## Without load -/

/-- Nothing is offloaded, and there is nothing to do. -/
def unloaded (q : Problem) (A O : ℕ → ℕ → ℕ) : Point where
  A := A
  O := O
  r _ := 0
  loadW _ := 0
  loadE _ := 0
  loadWe _ := 0
  varsW _ := 0
  varsE _ := 0
  avgW _ := 0
  avgE _ := 0
  tempA s i := A s i - q.Aold s i
  diffA s i := |(A s i - q.Aold s i : ℚ)|
  tempO j i := O j i - q.Oold j i
  diffO j i := |(O j i - q.Oold j i : ℚ)|

/-- **Without load every placement is feasible.** -/
theorem unloaded_feasible {A O : ℕ → ℕ → ℕ} (hV : ∀ s, q.V s = 0) (hslop : 0 ≤ q.SLOp)
    (hslor : 0 ≤ q.SLOr) (hA : LinearA q.W q.cores q.shards A) (hO : LinearO q.W q.E q.cores O) :
    Feasible 0 q (unloaded q A O) := by
  have hzero : InLoad 0 := ⟨le_refl 0, by norm_num⟩
  constructor
  case linearA => exact hA
  case linearO => exact hO
  case ratio => exact fun _ _ => ⟨le_refl 0, zero_le_one⟩
  case noRatio => exact fun _ _ _ => rfl
  case loads => exact fun _ _ => ⟨hzero, hzero, hzero⟩
  case nonneg => exact fun _ _ => ⟨le_refl 0, le_refl 0, le_refl 0, le_refl 0⟩
  case distA => exact fun s hs i hi => distance_bounds (hA.binary s hs i hi) (q.Aold_le s i)
  case distO => exact fun j hj i hi => distance_bounds (hO.binary j hj i hi) (q.Oold_le j i)
  case keeps => exact fun i _ => Finset.sum_eq_zero fun s _ => by rw [hV, mul_zero, zero_mul]
  case offloads => exact fun i _ => Finset.sum_eq_zero fun s _ => by rw [hV, mul_zero, zero_mul]
  case varW => exact fun _ _ => zero_mul _
  case waitW => exact fun _ _ => by rw [unloaded, zero_mul, zero_mul]
  case sloW => exact fun _ _ => hslop
  case receives => exact fun _ _ => zero_mul _
  case varE => exact fun _ _ => zero_mul _
  case waitE => exact fun _ _ => by rw [unloaded, zero_mul, zero_mul]
  case sloE => exact fun _ _ => hslor

/-! ## The bound

Both directions meet at the worst point: it is feasible, and no feasible point loads an offloading
core more.
-/

/-- **The load bound of the offloading cores.** Every feasible point of the model
respects the bounds exactly if the working cores cannot offer more than the offloading
cores can take. -/
theorem respects_iff_slack (served : List ℕ) (q : Problem) :
    (∀ x, Feasible (scale served) q x → Respects q x) ↔ Slack q := by
  rw [scale_eq_zero]
  refine ⟨fun hall hE hle hslo A hA hwork G hG hcard => ?_, fun hslack x hx => hx.respects hslack⟩
  have hx := worst_feasible hE hle hslo hA hwork hG hcard
  have hcore := (hall _ hx).core 0 (Nat.pos_of_ne_zero hE)
  have hsharers : sharers q (worst q A G).O 0 = G := by
    ext i
    rw [sharers, Finset.mem_filter, Finset.mem_range]
    change (i < q.W ∧ (if i < q.W ∧ 0 = row G i then 1 else 0) = 1) ↔ i ∈ G
    rw [row]
    constructor
    · rintro ⟨hi, hone⟩
      by_contra hno
      simp [hno] at hone
    · intro hi
      exact ⟨Finset.mem_range.mp (hG hi), by simp [hi, Finset.mem_range.mp (hG hi)]⟩
  rw [hx.offered_eq hE (Nat.pos_of_ne_zero hE), hsharers] at hcore
  exact hcore

/-! ## A crowded offloading core -/

namespace Small

/-- Three working cores with a shard each, loaded to 0.9, and one offloading core. -/
def crowded : Problem where
  W := 3
  E := 1
  shards := 3
  Cap := 914 / 10000
  Csp := 1166 / 10000
  SLOp := 100000
  Car := 966 / 10000
  Csr := 1202 / 10000
  SLOr := 100000
  T := 1000
  Te := 1000
  V := fun _ => 9 / 10
  Aold := fun s i => if i = s then 1 else 0
  Oold := fun j i => if j = 0 ∧ i < 3 then 1 else 0
  V_nonneg := fun _ => by norm_num
  Aold_le := fun s i => by split <;> omega
  Oold_le := fun j i => by split <;> omega

/-- All three offload everything: the offloading core gets 0.4 * 2.7. -/
theorem crowded_not_respected :
    ¬ ∀ x, Feasible (scale []) crowded x → Respects crowded x := by
  intro hall
  have hwork : ∀ i < crowded.W, WorkFits crowded
      (volume crowded crowded.Aold i - offer crowded crowded.Aold i) := by
    simp only [WorkFits]
    decide +kernel
  have hx : Feasible (scale []) crowded (worst crowded crowded.Aold (range 3)) :=
    worst_feasible (by decide) (by decide) (by decide +kernel)
      ⟨by decide, by decide, by decide, by decide, by decide⟩ hwork (by decide) (by decide)
  have hload : ¬ offered crowded (worst crowded crowded.Aold (range 3)) 0 ≤ 9 / 10 := by
    decide +kernel
  exact hload ((hall _ hx).core 0 (by decide)).1

end Small

end Fajita.Solver
