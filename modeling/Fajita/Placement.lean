import Fajita.Solver
import Fajita.Relating
import Fajita.Steps

/-!
# The placement

What the matrices `A` and `O` of the controller mean: every shard is on exactly one
working core and every working core has one, the cores with fewer shards come later,
and the working cores are spread over all offloading cores (`Placement`).

The linear constraints of `short_solver` imply it (`Placement.of_linear`), and so does
the round-robin layout of `init_dpdk` (`placement_init`). Between epochs the matrices
the solver writes to are copies of those in force (`Arranged`); the two copies at the
end of `update_relationship` and `update_shards` see to that, also where these
functions return early.
-/

namespace Fajita

open Finset (range Ico)

variable {D : Type} [Double D] {cfg : Cfg} {σ : Sys D} {w : ℕ}

/-! ## Matrices of zeros and ones

The constraints speak of sums of rows and columns. For natural numbers a sum that is 1 has one term
that is 1, and the others are 0.
-/

/-- A sum of natural numbers that is 1 has exactly one term that is not 0. -/
theorem exists_one_of_sum_eq_one {n : ℕ} {f : ℕ → ℕ} (h : ∑ i ∈ range n, f i = 1) :
    ∃ i < n, ∀ j < n, f j = if j = i then 1 else 0 := by
  induction n with
  | zero => simp at h
  | succ n ih =>
    rw [Finset.sum_range_succ] at h
    rcases Nat.eq_zero_or_pos (f n) with h0 | hpos
    · rw [h0, Nat.add_zero] at h
      obtain ⟨i, hi, hf⟩ := ih h
      refine ⟨i, by omega, fun j hj => ?_⟩
      rcases Nat.lt_succ_iff_lt_or_eq.mp hj with hj | rfl
      · exact hf j hj
      · rw [h0, if_neg (by omega)]
    · have hzero : ∑ i ∈ range n, f i = 0 := by omega
      refine ⟨n, n.lt_succ_self, fun j hj => ?_⟩
      rcases Nat.lt_succ_iff_lt_or_eq.mp hj with hj | rfl
      · rw [if_neg (by omega)]
        exact (Finset.sum_eq_zero_iff.mp hzero) j (Finset.mem_range.mpr hj)
      · rw [if_pos rfl]
        omega

/-- A positive sum of zeros and ones has a one. -/
theorem exists_one_of_sum_pos {n : ℕ} {f : ℕ → ℕ} (h : 1 ≤ ∑ i ∈ range n, f i)
    (hf : ∀ i < n, f i ≤ 1) : ∃ i < n, f i = 1 := by
  by_contra hno
  push Not at hno
  have hzero : ∑ i ∈ range n, f i = 0 := Finset.sum_eq_zero fun i hi => by
    have := hno i (Finset.mem_range.mp hi)
    have := hf i (Finset.mem_range.mp hi)
    omega
  omega

/-- A sum of zeros. -/
theorem eq_zero_of_sum_eq_zero {n : ℕ} {f : ℕ → ℕ} (h : ∑ i ∈ range n, f i = 0) :
    ∀ i < n, f i = 0 :=
  fun i hi => (Finset.sum_eq_zero_iff.mp h) i (Finset.mem_range.mpr hi)

/-! ## What a placement is -/

/-- The shards of a core. -/
def shardCount (cfg : Cfg) (A : ℕ → ℕ → ℕ) (w : ℕ) : ℕ := ∑ s ∈ range cfg.totalShards, A s w

/-- **A placement**: an assignment of the shards to the working cores and of the
working cores to the offloading cores. -/
structure Placement (cfg : Cfg) (A O : ℕ → ℕ → ℕ) : Prop where
  /-- every shard is on one working core -/
  oneHot : OneHot cfg A
  /-- every working core has a shard -/
  busy : ∀ w < cfg.W, ∃ s < cfg.totalShards, A s w = 1
  /-- no core has more shards than the one before it -/
  ordered : ∀ w, w + 1 < cfg.totalCores → shardCount cfg A (w + 1) ≤ shardCount cfg A w
  /-- the other cores have no shards -/
  idle : ∀ w, cfg.W ≤ w → w < cfg.totalCores → shardCount cfg A w = 0
  /-- without offloading cores nothing is offloaded -/
  none : cfg.E = 0 → ∀ e < cfg.totalCores, ∀ w < cfg.totalCores, O e w = 0
  /-- a working core offloads to one offloading core -/
  single : cfg.E ≠ 0 → ∀ w < cfg.W, ∃ e < cfg.E, ∀ f < cfg.totalCores,
    O f w = if f = e then 1 else 0
  /-- every offloading core is used -/
  used : cfg.E ≠ 0 → ∀ e < cfg.E, ∃ w < cfg.W, O e w = 1
  /-- the other cores offload nothing -/
  rest : cfg.E ≠ 0 → ∀ w, cfg.W ≤ w → w < cfg.totalCores → ∀ e < cfg.totalCores, O e w = 0

/-- Only the entries of the matrices matter. -/
theorem Placement.congr {A A' O O' : ℕ → ℕ → ℕ} (h : Placement cfg A O)
    (hA : ∀ s < cfg.totalShards, ∀ w < cfg.totalCores, A' s w = A s w)
    (hO : ∀ e < cfg.totalCores, ∀ w < cfg.totalCores, O' e w = O e w) : Placement cfg A' O' := by
  have hcores : cfg.totalCores = cfg.W + cfg.E := rfl
  have hcount : ∀ w < cfg.totalCores, shardCount cfg A' w = shardCount cfg A w := fun w hw =>
    Finset.sum_congr rfl fun s hs => hA s (Finset.mem_range.mp hs) w hw
  refine ⟨?_, ?_, ?_, ?_, ?_, ?_, ?_, ?_⟩
  · intro s hs
    obtain ⟨w, hw, hrow⟩ := h.oneHot s hs
    exact ⟨w, hw, fun v hv => by rw [hA s hs v hv, hrow v hv]⟩
  · intro w hw
    obtain ⟨s, hs, hone⟩ := h.busy w hw
    exact ⟨s, hs, by rw [hA s hs w (by omega), hone]⟩
  · intro w hw
    rw [hcount _ hw, hcount w (by omega)]
    exact h.ordered w hw
  · intro w hw hw'
    rw [hcount w hw', h.idle w hw hw']
  · intro h0 e he w hw
    rw [hO e he w hw, h.none h0 e he w hw]
  · intro h0 w hw
    obtain ⟨e, he, hcol⟩ := h.single h0 w hw
    exact ⟨e, he, fun f hf => by rw [hO f hf w (by omega), hcol f hf]⟩
  · intro h0 e he
    obtain ⟨w, hw, hone⟩ := h.used h0 e he
    exact ⟨w, hw, by rw [hO e (by omega) w (by omega), hone]⟩
  · intro h0 w hw hw' e he
    rw [hO e he w hw', h.rest h0 w hw hw' e he]

/-- **The linear constraints describe placements.** -/
theorem Placement.of_linear {A O : ℕ → ℕ → ℕ}
    (hA : Solver.LinearA cfg.W cfg.totalCores cfg.totalShards A)
    (hO : Solver.LinearO cfg.W cfg.E cfg.totalCores O) : Placement cfg A O := by
  have hcores : cfg.totalCores = cfg.W + cfg.E := rfl
  have hidleA : ∀ w, cfg.W ≤ w → w < cfg.totalCores → ∀ s < cfg.totalShards, A s w = 0 :=
    fun w hw hw' => eq_zero_of_sum_eq_zero (hA.idle w (Finset.mem_Ico.mpr ⟨hw, hw'⟩))
  have hrestO : cfg.E ≠ 0 → ∀ w, cfg.W ≤ w → w < cfg.totalCores → ∀ e < cfg.totalCores,
      O e w = 0 :=
    fun hE w hw hw' => eq_zero_of_sum_eq_zero (hO.idle hE w (Finset.mem_Ico.mpr ⟨hw, hw'⟩))
  refine ⟨?_, ?_, fun w hw => hA.ordered w (by omega), ?_, ?_, ?_, ?_, hrestO⟩
  · intro s hs
    obtain ⟨w, hw, hrow⟩ := exists_one_of_sum_eq_one (hA.assigned s hs)
    refine ⟨w, ?_, hrow⟩
    -- the row has its one at an idle core otherwise, whose column is zero
    by_contra hW
    have hzero := hidleA w (by omega) hw s hs
    rw [hrow w hw, if_pos rfl] at hzero
    cases hzero
  · intro w hw
    exact exists_one_of_sum_pos (hA.busy w hw) fun s hs => hA.binary s hs w (by omega)
  · exact fun w hw hw' => hA.idle w (Finset.mem_Ico.mpr ⟨hw, hw'⟩)
  · intro hE e he w hw
    exact eq_zero_of_sum_eq_zero (hO.none hE w hw) e he
  · intro hE w hw
    obtain ⟨e, he, hcol⟩ := exists_one_of_sum_eq_one (hO.single hE w hw)
    refine ⟨e, he, fun f hf => ?_⟩
    rcases Nat.lt_or_ge f cfg.E with hfE | hfE
    · exact hcol f hfE
    · -- below `E` the column has a single one, from `E` on it is zero by `within`
      rw [if_neg (by omega)]
      exact (Finset.sum_eq_zero_iff.mp (hO.within hE w hw)) f (Finset.mem_Ico.mpr ⟨hfE, hf⟩)
  · intro hE e he
    obtain ⟨w, hw, hone⟩ := exists_one_of_sum_pos (hO.used hE e he)
      fun w hw => hO.binary e (by omega) w hw
    refine ⟨w, ?_, hone⟩
    by_contra hW
    rw [hrestO hE w (by omega) hw e (by omega)] at hone
    cases hone

/-! ## The round-robin layout -/

/-- The shards of the core after are the shards of a core, moved by one. -/
theorem roundRobin_ordered (W i : ℕ) (hi : i + 1 < W) (n : ℕ) :
    (∑ s ∈ range n, if i + 1 = s % W then 1 else 0) ≤
      ∑ s ∈ range n, if i = s % W then 1 else 0 := by
  cases n with
  | zero => exact Nat.le_refl _
  | succ n =>
    -- shard `s + 1` falls to core `i + 1` exactly when shard `s` falls to core `i`
    have hshift : ∀ s, (i + 1 = (s + 1) % W) ↔ i = s % W := by
      intro s
      have hs : s % W < W := Nat.mod_lt _ (by omega)
      rw [Nat.add_mod, Nat.mod_eq_of_lt (show 1 < W by omega)]
      rcases Nat.lt_or_ge (s % W + 1) W with hlt | hge
      · rw [Nat.mod_eq_of_lt hlt]
        omega
      · have hW : s % W + 1 = W := by omega
        rw [hW, Nat.mod_self]
        omega
    rw [Finset.sum_range_succ', Finset.sum_range_succ _ n, if_neg (by simp), Nat.add_zero]
    simp only [hshift]
    exact Nat.le_add_right _ _

theorem shardCount_init (w : ℕ) :
    shardCount cfg (Init.A cfg) w = ∑ s ∈ range cfg.totalShards, if w = s % cfg.W then 1 else 0 :=
  Finset.sum_congr rfl fun s hs => by
    rw [Init.A]
    exact if_congr (and_iff_right (Finset.mem_range.mp hs)) rfl rfl

/-- **The matrices of `init_dpdk` are a placement.** -/
theorem placement_init (hshards : cfg.W ≤ cfg.totalShards) (hE : cfg.E ≤ cfg.W) :
    Placement cfg (Init.A cfg) (Init.O cfg) := by
  have hmod : ∀ s, s % cfg.W < cfg.W := fun s => Nat.mod_lt s cfg.W_pos
  have hidle : ∀ w, cfg.W ≤ w → shardCount cfg (Init.A cfg) w = 0 := by
    intro w hw
    rw [shardCount_init]
    refine Finset.sum_eq_zero fun s _ => if_neg ?_
    have := hmod s
    omega
  constructor
  case oneHot =>
    intro s hs
    exact ⟨s % cfg.W, hmod s, fun v _ => if_congr (and_iff_right hs) rfl rfl⟩
  case busy =>
    intro w hw
    exact ⟨w, by omega, if_pos ⟨by omega, (Nat.mod_eq_of_lt hw).symm⟩⟩
  case ordered =>
    intro w _
    rcases Nat.lt_or_ge (w + 1) cfg.W with hlt | hge
    · rw [shardCount_init, shardCount_init]
      exact roundRobin_ordered cfg.W w hlt cfg.totalShards
    · rw [hidle _ hge]
      exact Nat.zero_le _
  case idle => exact fun w hw _ => hidle w hw
  case none => exact fun h0 e _ w _ => if_neg fun h => h.1 h0
  case single =>
    intro h0 w hw
    exact ⟨w % cfg.E, Nat.mod_lt _ (Nat.pos_of_ne_zero h0), fun f _ =>
      if_congr ⟨fun h => h.2.2, fun h => ⟨h0, hw, h⟩⟩ rfl rfl⟩
  case used =>
    intro h0 e he
    exact ⟨e, by omega, if_pos ⟨h0, by omega, (Nat.mod_eq_of_lt he).symm⟩⟩
  case rest =>
    intro _ w hw _ e _
    exact if_neg fun h => by omega

/-! ## The invariant

Between two epochs the matrices that the solver writes to are copies of those in force.
-/

/-- The matrices in force are a placement, and those the solver writes to are copies. -/
structure Arranged (cfg : Cfg) (σ : Sys D) : Prop where
  /-- `A` and `O` are a placement -/
  placement : Placement cfg σ.A σ.O
  /-- `newA` is a copy of `A` -/
  newA : ∀ s < cfg.totalShards, ∀ w < cfg.totalCores, σ.newA s w = σ.A s w
  /-- `newO` is a copy of `O` -/
  newO : ∀ e < cfg.totalCores, ∀ w < cfg.totalCores, σ.newO e w = σ.O e w

/-- If the solver answers, its answer meets the linear constraints. -/
def MeetsConstraints (cfg : Cfg) : Act D → Prop
  | .epoch (some ans) _ =>
    Solver.LinearA cfg.W cfg.totalCores cfg.totalShards ans.A ∧
      Solver.LinearO cfg.W cfg.E cfg.totalCores ans.O
  | _ => True

namespace Controller

/-- What the solver asks for stays readable for the rest of the epoch. -/
theorem applyAnswer_asked (ans : Answer D) (σ : Sys D) :
    (applyAnswer cfg ans σ).newA = ans.A ∧ (applyAnswer cfg ans σ).newO = ans.O := by
  have hO : ∀ σ : Sys D, (updateRelationship cfg σ).1.newO = σ.newO := by
    intro σ
    simp only [updateRelationship]
    split <;> rfl
  have hshards : ∀ σ : Sys D, (updateShards cfg σ).1.newA = σ.newA ∧
      (updateShards cfg σ).1.newO = σ.newO := by
    intro σ
    simp only [updateShards]
    split <;> exact ⟨rfl, rfl⟩
  simp only [applyAnswer]
  split
  all_goals
    refine ⟨(hshards _).1.trans ?_, (hshards _).2.trans ?_⟩
    · rw [updateRelationship_newA]
      rfl
    · rw [hO]
      rfl

/-- What an epoch does to the matrices the solver writes to. -/
theorem updateShortEpoch_asked (ans : Option (Answer D)) (vec : ℕ → List FlowKey) (σ : Sys D) :
    (updateShortEpoch cfg ans vec σ).newA = (match ans with
      | some ans => if cfg.solver then ans.A else σ.newA
      | none => σ.newA) ∧
    (updateShortEpoch cfg ans vec σ).newO = match ans with
      | some ans => if cfg.solver then ans.O else σ.newO
      | none => σ.newO := by
  have hvolume : (volumeShards cfg (swapShards cfg σ)).newA = σ.newA ∧
      (volumeShards cfg (swapShards cfg σ)).newO = σ.newO := by
    simp only [volumeShards]
    split
    · exact ⟨rfl, rfl⟩
    · split <;> exact ⟨rfl, rfl⟩
  simp only [updateShortEpoch]
  cases ans with
  | none => exact hvolume
  | some ans =>
    dsimp only
    split
    · exact applyAnswer_asked ans _
    · exact hvolume

end Controller

namespace Arranged

/-- **An epoch** keeps the invariant: the matrices in force become those asked for, and
those asked for, if any, meet the linear constraints. -/
theorem epoch (h : Arranged cfg σ) {ans : Option (Answer D)} {vec : ℕ → List FlowKey}
    (hm : MeetsConstraints cfg (.epoch ans vec)) :
    Arranged cfg (Controller.updateShortEpoch cfg ans vec σ) := by
  obtain ⟨hnewA, hnewO⟩ := @Controller.updateShortEpoch_asked _ _ cfg ans vec σ
  have hA := (Controller.updateShortEpoch_moved cfg σ ans vec).A
  have hO := (Controller.updateShortEpoch_related cfg σ ans vec).O
  have hkeep : Controller.asked cfg ans σ = σ.A → Controller.askedO cfg ans σ = σ.O →
      (Controller.updateShortEpoch cfg ans vec σ).newA = σ.newA →
      (Controller.updateShortEpoch cfg ans vec σ).newO = σ.newO →
      Arranged cfg (Controller.updateShortEpoch cfg ans vec σ) := by
    intro hasked haskedO hA' hO'
    rw [hasked] at hA
    rw [haskedO] at hO
    refine ⟨h.placement.congr hA hO, fun s hs w hw => ?_, fun e he w hw => ?_⟩
    · rw [hA', hA s hs w hw, h.newA s hs w hw]
    · rw [hO', hO e he w hw, h.newO e he w hw]
  cases ans with
  | none => exact hkeep rfl rfl hnewA hnewO
  | some ans =>
    by_cases hsolver : cfg.solver = true
    · simp only [Controller.asked, Controller.askedO, if_pos hsolver] at hA hO hnewA hnewO
      refine ⟨(Placement.of_linear hm.1 hm.2).congr hA hO, fun s hs w hw => ?_,
        fun e he w hw => ?_⟩
      · rw [hnewA, hA s hs w hw]
      · rw [hnewO, hO e he w hw]
    · simp only [if_neg hsolver] at hnewA hnewO
      exact hkeep (if_neg hsolver) (if_neg hsolver) hnewA hnewO

omit [Double D] in
/-- A step that leaves the matrices alone. -/
theorem of_same {σ' : Sys D} (h : Arranged cfg σ) (hA : σ'.A = σ.A) (hnewA : σ'.newA = σ.newA)
    (hO : σ'.O = σ.O) (hnewO : σ'.newO = σ.newO) : Arranged cfg σ' where
  placement := by
    rw [hA, hO]
    exact h.placement
  newA := by
    rw [hA, hnewA]
    exact h.newA
  newO := by
    rw [hO, hnewO]
    exact h.newO

theorem step (h : Arranged cfg σ) (hwired : Wired cfg σ) {a : Act D} (hp : Possible cfg σ a)
    (hm : MeetsConstraints cfg a) : Arranged cfg (step cfg σ a) := by
  cases a with
  | arrive p => exact h.of_same rfl rfl rfl rfl
  | epoch ans vec => exact h.epoch hm
  | work w inp =>
    have hl := hwired.runTask_localTo hp inp
    have hs := hwired.runTask_statics hp inp
    exact h.of_same hl.A hs.2.1 hl.O hs.2.2
  | offload e accept =>
    obtain ⟨core, ring, transmitted, lost, heq, -⟩ := OffloadingCore.runTask_eq cfg e accept σ
    simp only [Fajita.step, heq]
    exact h.of_same rfl rfl rfl rfl

end Arranged

/-- **The placement invariant.** Whatever the packets and the tasks in between, with a
solver that fails or meets its linear constraints the matrices in force are a
placement in every state, and between epochs those asked for are copies of them. -/
theorem placement_invariant (cfg : Cfg) (hshards : cfg.W ≤ cfg.totalShards) (hE : cfg.E ≤ cfg.W)
    (acts : List (Act D))
    (hC : Along (Fajita.step cfg) (fun σ a => Possible cfg σ a ∧ MeetsConstraints cfg a)
      (init D cfg) acts) :
    Arranged cfg (runFrom (Fajita.step cfg) (init D cfg) acts) := by
  have hinit : Arranged cfg (init D cfg) :=
    ⟨placement_init hshards hE, fun _ _ _ _ => rfl, fun _ _ _ _ => rfl⟩
  refine (Along.inv (I := fun σ => Wired cfg σ ∧ Arranged cfg σ) ?_ ⟨wired_init, hinit⟩ hC).2
  rintro σ a ⟨hwired, h⟩ ⟨hp, hm⟩
  exact ⟨hwired.step hp, h.step hwired hp hm⟩

namespace Small

/-- The two shards change places, then core 0 receives a packet. -/
def swapEpoch : List (Act ℚ) :=
  [.epoch (some (answer (fun s => 1 - s) (fun _ => 0) fun _ => 1 / 2)) fun _ => [],
    .arrive (packet 1 1), .work 0 (task 1)]

theorem swapEpoch_arranged :
    Arranged (router 1) (runFrom (Fajita.step (router 1)) (init ℚ (router 1)) swapEpoch) :=
  placement_invariant (router 1) (by decide) (by decide) swapEpoch
    ⟨⟨by decide +kernel,
        ⟨by decide, by decide, by decide, by decide, by decide⟩,
        ⟨by decide, by decide, by decide, by decide, by decide, by decide⟩⟩,
      ⟨trivial, trivial⟩, ⟨by decide, trivial⟩, trivial⟩

end Small

end Fajita
