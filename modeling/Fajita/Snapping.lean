import Fajita.Shares
import Mathlib.Tactic.Ring

/-!
# Snapping a ratio to the flows

A ratio of a shard rarely falls between two flows. `update_ratio` walks along `ordered_flows` and
adds up their shares; if the first sum that reaches `r_new` is less than `SCALE` times as large,
`r_new` becomes that sum and `EPSILON` more, so that the flow which crosses the ratio is offloaded
as a whole. The working cores compare `cdf` and `r` up to a relative `EPSILON`, though, and an
absolute `EPSILON` more is enough for them only as long as the new ratio is less than 1
(`isLessThan_snapped`). `snaps_iff` says that this is all there is to it.
-/

namespace Fajita

namespace Controller

/-! ## Comparing up to `EPSILON`

Two numbers are equal for the program if they differ by no more than `EPSILON` times the larger one.
For numbers that are not negative, less than means less by this margin.
-/

theorem epsilon_pos : (0 : ℚ) < Double.epsilon := by
  change (0 : ℚ) < 14411519 / 144115188075855872
  norm_num

theorem epsilon_lt_one : (Double.epsilon : ℚ) < 1 := by
  change (14411519 / 144115188075855872 : ℚ) < 1
  norm_num

/-- The larger of the two numbers sets the tolerance. -/
theorem tolerance_eq {a b : ℚ} (ha : 0 ≤ a) (hb : 0 ≤ b) :
    tolerance a b = max a b * Double.epsilon := by
  have hmax : (if |a| < |b| then |b| else |a|) = max a b := by
    rw [abs_of_nonneg ha, abs_of_nonneg hb]
    split
    · next h => exact (max_eq_right h.le).symm
    · next h => exact (max_eq_left (not_lt.mp h)).symm
  exact congrArg (· * (Double.epsilon : ℚ)) hmax

/-- `is_less_than` leaves a margin below the larger number. -/
theorem isLessThan_iff {c r : ℚ} (hc : 0 ≤ c) (hr : 0 ≤ r) :
    isLessThan c r = true ↔ c < r * (1 - Double.epsilon) := by
  have hε := epsilon_pos
  have hdef : isLessThan c r = true ↔ max c r * Double.epsilon < r - c := by
    rw [isLessThan, tolerance_eq hc hr]
    exact decide_eq_true_iff
  rw [hdef]
  rcases le_or_gt r c with hle | hlt
  · rw [max_eq_left hle]
    have htol : 0 ≤ c * Double.epsilon := mul_nonneg hc hε.le
    have hmargin : 0 ≤ r * Double.epsilon := mul_nonneg hr hε.le
    constructor
    · intro h
      linarith
    · intro h
      linarith
  · rw [max_eq_right hlt.le, lt_sub_comm]
    ring_nf

/-- A flow is below a ratio that has been snapped to it exactly if the ratio is less than 1. -/
theorem isLessThan_snapped {a : ℚ} (ha : 0 ≤ a) :
    isLessThan a (a + Double.epsilon) = true ↔ a + Double.epsilon < 1 := by
  have hε := epsilon_pos
  rw [isLessThan_iff ha (add_nonneg ha hε.le)]
  have hscale : (a + Double.epsilon) * (1 - Double.epsilon) =
      a + Double.epsilon * (1 - (a + Double.epsilon)) := by ring
  rw [hscale, lt_add_iff_pos_right, mul_pos_iff_of_pos_left hε, sub_pos]

/-- A positive number is not equal to 0, however small it is. -/
theorem isEqualThan_zero {r : ℚ} (hr : 0 < r) : isEqualThan r 0 = false := by
  have hlt : r * Double.epsilon < r := mul_lt_of_lt_one_right hr epsilon_lt_one
  rw [isEqualThan, tolerance_eq hr.le le_rfl, max_eq_left hr.le]
  refine decide_eq_false (not_le.mpr ?_)
  change _ < |r - 0|
  rwa [sub_zero, abs_of_pos hr]

/-! ## The flows of a shard -/

variable (sh : ShardInfo ℚ)

/-- The states in `ordered_flows`. -/
def listed : List (DyssectState ℚ) := sh.orderedFlows.filterMap sh.table

/-- The share of the first flows, up to the `i`-th. -/
def shareUpTo (i : ℕ) : ℚ := ((prob2s sh).take (i + 1)).sum

/-- `ordered_flows` and `cdf` as `order_shards` leaves them. -/
structure Ordered : Prop where
  /-- larger shares come first -/
  sorted : (prob2s sh).Pairwise fun p p' => p' ≤ p
  /-- no share is negative -/
  nonneg : ∀ p ∈ prob2s sh, 0 ≤ p
  /-- together they are at most 1 -/
  sum_le : (prob2s sh).sum ≤ 1
  /-- `cdf` is the share up to the flow -/
  cdf : ∀ i, (hi : i < (listed sh).length) → (listed sh)[i].cdf = shareUpTo sh i

/-- The `i`-th flow is the first with which the share reaches `r_new`. -/
structure Crosses (i : ℕ) : Prop where
  /-- there is such a flow -/
  lt : i < (listed sh).length
  /-- it reaches the ratio -/
  reaches : sh.rNew ≤ shareUpTo sh i
  /-- no flow before it does -/
  first : ∀ j < i, shareUpTo sh j < sh.rNew

/-- With `r_new` as `update_ratio` leaves it, the `i`-th flow is offloaded. -/
def Offloads (i : ℕ) : Prop :=
  ∃ hi : i < (listed sh).length, isLessThan (listed sh)[i].cdf (ratioNew sh) = true

/-- The share of the flows that are offloaded. -/
def offloadedShare : ℚ :=
  (((listed sh).filter fun st => isLessThan st.cdf (ratioNew sh)).map DyssectState.prob2).sum

/-- `update_ratio` offloads the flows it is meant to. -/
structure Snaps : Prop where
  /-- close to the ratio, all flows up to the crossing one -/
  near : ∀ i, Crosses sh i → shareUpTo sh i < sh.rNew * 1.5 →
    (∀ j ≤ i, Offloads sh j) ∧ sh.rNew ≤ offloadedShare sh
  /-- otherwise the ratio stays, and the crossing flow is not offloaded -/
  far : (∀ i, Crosses sh i → sh.rNew * 1.5 ≤ shareUpTo sh i) →
    ratioNew sh = sh.rNew ∧ ∀ i, Crosses sh i → ¬ Offloads sh i
  /-- the offloaded flows come first -/
  first : ∀ i j, j ≤ i → Offloads sh i → Offloads sh j

variable {sh}

theorem prob2s_eq : prob2s sh = (listed sh).map DyssectState.prob2 :=
  (List.map_filterMap ..).symm

theorem prob2s_length : (prob2s sh).length = (listed sh).length := by
  rw [prob2s_eq, List.length_map]

/-- Sums of shares are not negative. -/
theorem Ordered.shareUpTo_nonneg (h : Ordered sh) (i : ℕ) : 0 ≤ shareUpTo sh i :=
  List.sum_nonneg fun p hp => h.nonneg p (List.mem_of_mem_take hp)

/-- The sums of the shares grow along the list. -/
theorem Ordered.shareUpTo_mono (h : Ordered sh) {i j : ℕ} (hji : j ≤ i) :
    shareUpTo sh j ≤ shareUpTo sh i := by
  have hsplit : (prob2s sh).take (i + 1) =
      (prob2s sh).take (j + 1) ++ ((prob2s sh).drop (j + 1)).take (i - j) := by
    rw [← List.take_add]
    congr 1
    omega
  have hmore : 0 ≤ (((prob2s sh).drop (j + 1)).take (i - j)).sum :=
    List.sum_nonneg fun p hp => h.nonneg p (List.mem_of_mem_drop (List.mem_of_mem_take hp))
  rw [shareUpTo, shareUpTo, hsplit, List.sum_append]
  linarith

/-- If all keys of a list are in a table, its first keys lead to its first entries. -/
theorem filterMap_take {α β : Type} {f : α → Option β} {ks : List α}
    (hall : ∀ k ∈ ks, (f k).isSome = true) (i : ℕ) :
    (ks.take i).filterMap f = (ks.filterMap f).take i := by
  induction ks generalizing i with
  | nil => simp
  | cons k ks ih =>
    obtain ⟨x, hx⟩ := Option.isSome_iff_exists.mp (hall k (List.mem_cons_self ..))
    cases i with
    | zero => rfl
    | succ i =>
      rw [List.take_succ_cons, List.filterMap_cons_some hx, List.filterMap_cons_some hx,
        List.take_succ_cons, ih fun k hk => hall k (List.mem_cons_of_mem _ hk)]

/-- An epoch leaves a shard in order, if its shares are those of parts of a whole. -/
theorem CollectionExact.ordered {known : List FlowKey} (h : CollectionExact known sh)
    (hshares : SubProb sh) : Ordered sh := by
  refine ⟨?_, hshares.nonneg, hshares.sum_le, fun i hi => ?_⟩
  · rw [prob2s, List.pairwise_filterMap]
    refine h.sorted.imp fun {k k'} hle p hp p' hp' => ?_
    obtain ⟨st, hst, rfl⟩ := Option.map_eq_some_iff.mp hp
    obtain ⟨st', hst', rfl⟩ := Option.map_eq_some_iff.mp hp'
    exact hle st hst st' hst'
  · have hone : sh.orderedFlows.filterMap sh.table = listed sh := rfl
    have hlength : (listed sh).length ≤ sh.orderedFlows.length := List.length_filterMap_le ..
    have hkey := List.getElem_mem (hi.trans_le hlength)
    obtain ⟨st, hst⟩ := Option.isSome_iff_exists.mp (h.stored _ hkey)
    -- the `i`-th state is that of the `i`-th key
    have hith : (listed sh)[i] = st := by
      have htake := filterMap_take h.stored (i + 1)
      rw [List.take_succ_eq_append_getElem (hi.trans_le hlength), List.filterMap_append,
        filterMap_take h.stored i, List.filterMap_cons_some hst, List.filterMap_nil, hone,
        List.take_succ_eq_append_getElem hi] at htake
      exact (List.singleton_inj.mp (List.append_cancel_left htake)).symm
    have hmap : ∀ k ∈ sh.orderedFlows,
        ((sh.table k).map DyssectState.prob2).isSome = true := fun k hk => by
      rw [Option.isSome_map]
      exact h.stored k hk
    rw [hith, h.cdf i (hi.trans_le hlength) st hst, filterMap_take hmap]
    rfl

/-- The ratio is crossed once. -/
theorem Crosses.unique {i j : ℕ} (hi : Crosses sh i) (hj : Crosses sh j) : i = j := by
  rcases lt_trichotomy i j with hlt | heq | hgt
  · exact absurd (hj.first i hlt) (not_lt.mpr hi.reaches)
  · exact heq
  · exact absurd (hi.first j hgt) (not_lt.mpr hj.reaches)

/-- If all of the first flows are offloaded, so is their share. -/
theorem Ordered.le_offloadedShare (h : Ordered sh) {i : ℕ} (hall : ∀ j ≤ i, Offloads sh j) :
    shareUpTo sh i ≤ offloadedShare sh := by
  have hsplit := (List.take_append_drop (i + 1) (listed sh)).symm
  have hfirst : ((listed sh).take (i + 1)).filter
      (fun st => isLessThan st.cdf (ratioNew sh)) = (listed sh).take (i + 1) := by
    refine List.filter_eq_self.mpr fun st hst => ?_
    obtain ⟨j, hj, rfl⟩ := List.mem_iff_getElem.mp hst
    rw [List.length_take] at hj
    obtain ⟨hlt, hless⟩ := hall j (by omega)
    rwa [List.getElem_take]
  have hrest : 0 ≤ ((((listed sh).drop (i + 1)).filter
      (fun st => isLessThan st.cdf (ratioNew sh))).map DyssectState.prob2).sum := by
    refine List.sum_nonneg fun p hp => h.nonneg p ?_
    obtain ⟨st, hst, rfl⟩ := List.mem_map.mp hp
    rw [prob2s_eq]
    exact List.mem_map_of_mem (List.mem_of_mem_drop (List.mem_of_mem_filter hst))
  rw [offloadedShare, hsplit, List.filter_append, hfirst, List.map_append, List.sum_append,
    shareUpTo, prob2s_eq, ← List.map_take]
  linarith

/-! ## The walk of `update_ratio`

The loop stops at the first flow whose sum reaches the ratio. What it returns depends on that sum
only.
-/

/-- The walk ends at the first sum that reaches the ratio, or finds none. -/
theorem snapRatio_spec (r accum : ℚ) (ps : List ℚ) :
    (∃ i < ps.length, r ≤ accum + (ps.take (i + 1)).sum ∧
        (∀ j < i, accum + (ps.take (j + 1)).sum < r) ∧
        snapRatio r accum ps = if accum + (ps.take (i + 1)).sum < r * 1.5 then
          accum + (ps.take (i + 1)).sum + Double.epsilon else r) ∨
      (∀ i < ps.length, accum + (ps.take (i + 1)).sum < r) ∧ snapRatio r accum ps = r := by
  induction ps generalizing accum with
  | nil => exact .inr ⟨fun i hi => absurd hi (Nat.not_lt_zero i), rfl⟩
  | cons p ps ih =>
    have hsum : ∀ i, accum + ((p :: ps).take (i + 1)).sum = accum + p + (ps.take i).sum := by
      intro i
      rw [List.take_succ_cons, List.sum_cons, add_assoc]
    simp only [hsum, snapRatio]
    split
    · next hreach =>
      refine .inl ⟨0, Nat.succ_pos _, ?_, fun j hj => absurd hj (Nat.not_lt_zero j), ?_⟩
      · rw [List.take_zero, List.sum_nil, add_zero]
        exact hreach
      · rw [List.take_zero, List.sum_nil, add_zero]
    · next hbelow =>
      have hzero : accum + p + (ps.take 0).sum < r := by
        rw [List.take_zero, List.sum_nil, add_zero]
        exact not_le.mp hbelow
      rcases ih (accum + p) with ⟨i, hi, hreach, hfirst, hsnap⟩ | ⟨hnone, hsnap⟩
      · refine .inl ⟨i + 1, Nat.succ_lt_succ hi, hreach, fun j hj => ?_, hsnap⟩
        cases j with
        | zero => exact hzero
        | succ j => exact hfirst j (Nat.lt_of_succ_lt_succ hj)
      · refine .inr ⟨fun i hi => ?_, hsnap⟩
        cases i with
        | zero => exact hzero
        | succ i => exact hnone i (Nat.lt_of_succ_lt_succ hi)

/-- `r_new` after `update_ratio`. -/
theorem ratioNew_spec (hr : 0 < sh.rNew) :
    (∃ i, Crosses sh i ∧ ratioNew sh = if shareUpTo sh i < sh.rNew * 1.5 then
        shareUpTo sh i + Double.epsilon else sh.rNew) ∨
      (∀ i, ¬ Crosses sh i) ∧ ratioNew sh = sh.rNew := by
  have hratio : ratioNew sh = snapRatio sh.rNew 0 (prob2s sh) := by
    have hne : isEqualThan sh.rNew 0 = false := isEqualThan_zero hr
    rw [ratioNew, hne]
    rfl
  rw [hratio]
  rcases snapRatio_spec sh.rNew 0 (prob2s sh) with ⟨i, hi, hreach, hfirst, hsnap⟩ | ⟨hnone, hsnap⟩
  · simp only [zero_add] at hreach hfirst hsnap
    rw [prob2s_length] at hi
    exact .inl ⟨i, ⟨hi, hreach, hfirst⟩, hsnap⟩
  · simp only [zero_add, prob2s_length] at hnone
    exact .inr ⟨fun i hi => absurd (hnone i hi.lt) (not_lt.mpr hi.reaches), hsnap⟩

/-- **Near a crossing** the new ratio is snapped to it. -/
theorem ratioNew_near (hr : 0 < sh.rNew) {i : ℕ} (hi : Crosses sh i)
    (hnear : shareUpTo sh i < sh.rNew * 1.5) :
    ratioNew sh = shareUpTo sh i + Double.epsilon := by
  rcases ratioNew_spec hr with ⟨j, hj, hratio⟩ | ⟨hnone, -⟩
  · obtain rfl := hi.unique hj
    rw [hratio, if_pos hnear]
  · exact absurd hi (hnone i)

/-- Away from every crossing the new ratio stays. -/
theorem ratioNew_far (hr : 0 < sh.rNew)
    (hfar : ∀ i, Crosses sh i → sh.rNew * 1.5 ≤ shareUpTo sh i) : ratioNew sh = sh.rNew := by
  rcases ratioNew_spec hr with ⟨i, hi, hratio⟩ | ⟨-, hratio⟩
  · rw [hratio, if_neg (not_lt.mpr (hfar i hi))]
  · exact hratio

/-- The new ratio is not negative. -/
theorem Ordered.ratioNew_nonneg (h : Ordered sh) (hr : 0 < sh.rNew) : 0 ≤ ratioNew sh := by
  rcases ratioNew_spec hr with ⟨i, -, hratio⟩ | ⟨-, hratio⟩
  · rw [hratio]
    split
    · exact add_nonneg (h.shareUpTo_nonneg i) epsilon_pos.le
    · exact hr.le
  · rw [hratio]
    exact hr.le

/-- The offloaded flows are those whose share leaves the margin. -/
theorem Ordered.offloads_iff (h : Ordered sh) (hr : 0 < sh.rNew) (i : ℕ) :
    Offloads sh i ↔ i < (listed sh).length ∧
      shareUpTo sh i < ratioNew sh * (1 - Double.epsilon) := by
  have hless : ∀ hi : i < (listed sh).length,
      isLessThan (listed sh)[i].cdf (ratioNew sh) = true ↔
        shareUpTo sh i < ratioNew sh * (1 - Double.epsilon) := by
    intro hi
    rw [h.cdf i hi, isLessThan_iff (h.shareUpTo_nonneg i) (h.ratioNew_nonneg hr)]
  constructor
  · rintro ⟨hi, hoff⟩
    exact ⟨hi, (hless hi).mp hoff⟩
  · rintro ⟨hi, hoff⟩
    exact ⟨hi, (hless hi).mpr hoff⟩

/-- A crossing flow that is close to the ratio is offloaded only if the new ratio is below 1. -/
theorem Ordered.lt_one_of_offloads (h : Ordered sh) (hr : 0 < sh.rNew) {i : ℕ}
    (hi : Crosses sh i) (hnear : shareUpTo sh i < sh.rNew * 1.5) (hoff : Offloads sh i) :
    shareUpTo sh i + Double.epsilon < 1 := by
  obtain ⟨hlt, hless⟩ := hoff
  rw [h.cdf i hlt, ratioNew_near hr hi hnear] at hless
  exact (isLessThan_snapped (h.shareUpTo_nonneg i)).mp hless

/-- **Snapping offloads the flows it is meant to** exactly if the share that it snaps to, if
any, is less than 1 by more than `EPSILON`. -/
theorem snaps_iff (h : Ordered sh) (hr : 0 < sh.rNew) :
    Snaps sh ↔ ∀ i, Crosses sh i → shareUpTo sh i < sh.rNew * 1.5 →
      shareUpTo sh i + Double.epsilon < 1 := by
  constructor
  · intro hsnaps i hi hnear
    exact h.lt_one_of_offloads hr hi hnear ((hsnaps.near i hi hnear).1 i le_rfl)
  · intro hone
    refine ⟨fun i hi hnear => ?_, fun hfar => ⟨ratioNew_far hr hfar, fun i hi hoff => ?_⟩,
      fun i j hji hoff => ?_⟩
    · -- the crossing flow leaves the margin, and the flows before it all the more
      have hcross : isLessThan (shareUpTo sh i) (shareUpTo sh i + Double.epsilon) = true :=
        (isLessThan_snapped (h.shareUpTo_nonneg i)).mpr (hone i hi hnear)
      rw [isLessThan_iff (h.shareUpTo_nonneg i)
        (add_nonneg (h.shareUpTo_nonneg i) epsilon_pos.le), ← ratioNew_near hr hi hnear] at hcross
      have hall : ∀ j ≤ i, Offloads sh j := fun j hj =>
        (h.offloads_iff hr j).mpr
          ⟨hj.trans_lt hi.lt, (h.shareUpTo_mono hj).trans_lt hcross⟩
      exact ⟨hall, hi.reaches.trans (h.le_offloadedShare hall)⟩
    · obtain ⟨-, hless⟩ := (h.offloads_iff hr i).mp hoff
      have hmargin : 0 ≤ sh.rNew * Double.epsilon := mul_nonneg hr.le epsilon_pos.le
      rw [ratioNew_far hr hfar] at hless
      have hreach := hi.reaches
      linarith
    · obtain ⟨hlt, hless⟩ := (h.offloads_iff hr i).mp hoff
      exact (h.offloads_iff hr j).mpr
        ⟨hji.trans_lt hlt, (h.shareUpTo_mono hji).trans_lt hless⟩

end Controller

/-! ## Small shards -/

namespace Small

open Controller

/-- A flow with the given share, and the given shares up to it. -/
def stateOf (share upTo : ℚ) (k : FlowKey) : DyssectState ℚ where
  cdf := upTo
  prob := share
  prob2 := share
  priority := false
  epoch := 1
  bytes := 0
  shard := 0
  flow := k

/-- A shard with two flows of the given shares, of which the part `r` is to be offloaded. -/
def twoFlows (cfg : Cfg) (p p' r : ℚ) : ShardInfo ℚ :=
  { Init.shard ℚ cfg 0 with
    rNew := r
    table := fun k =>
      if k = ⟨1, 2, 0, 4⟩ then some (stateOf p p k)
      else if k = ⟨1, 2, 2, 4⟩ then some (stateOf p' (p + p') k)
      else none
    orderedFlows := [⟨1, 2, 0, 4⟩, ⟨1, 2, 2, 4⟩] }

/-- Two flows, of which the first is at least as large. -/
theorem twoFlows_ordered {cfg : Cfg} {p p' r : ℚ} (hp' : 0 ≤ p') (hle : p' ≤ p)
    (hsum : p + p' ≤ 1) : Ordered (twoFlows cfg p p' r) := by
  have hlisted : listed (twoFlows cfg p p' r) =
      [stateOf p p ⟨1, 2, 0, 4⟩, stateOf p' (p + p') ⟨1, 2, 2, 4⟩] := rfl
  have hshares : prob2s (twoFlows cfg p p' r) = [p, p'] := rfl
  refine ⟨?_, ?_, ?_, fun i hi => ?_⟩
  · rw [hshares, List.pairwise_pair]
    exact hle
  · rw [hshares]
    intro x hx
    rcases List.mem_pair.mp hx with rfl | rfl
    · exact hp'.trans hle
    · exact hp'
  · rw [hshares, List.sum_pair]
    exact hsum
  · simp only [hlisted] at hi ⊢
    rw [shareUpTo, hshares]
    match i, hi with
    | 0, _ => simp [stateOf]
    | 1, _ => simp [stateOf]

/-- The sums of the shares of two flows. -/
theorem twoFlows_shares (cfg : Cfg) (p p' r : ℚ) :
    shareUpTo (twoFlows cfg p p' r) 0 = p ∧ shareUpTo (twoFlows cfg p p' r) 1 = p + p' := by
  have hshares : prob2s (twoFlows cfg p p' r) = [p, p'] := rfl
  constructor
  · rw [shareUpTo, hshares]
    simp
  · rw [shareUpTo, hshares]
    simp

/-- Half of the traffic is asked for, and the first flow has three fifths of it. -/
theorem threeFifths_snaps : Snaps (twoFlows (router 1) (3 / 5) (2 / 5) (1 / 2)) := by
  have hε : (Double.epsilon : ℚ) < 2 / 5 := by
    change (14411519 / 144115188075855872 : ℚ) < 2 / 5
    norm_num
  obtain ⟨hfirst, -⟩ := twoFlows_shares (router 1) (3 / 5) (2 / 5) (1 / 2)
  refine (snaps_iff (twoFlows_ordered (by norm_num) (by norm_num) (by norm_num))
    (show (0 : ℚ) < 1 / 2 by norm_num)).mpr fun i hi _ => ?_
  -- the first flow crosses the ratio
  have hi0 : i = 0 := by
    by_contra hne
    have hbelow := hi.first 0 (Nat.pos_of_ne_zero hne)
    rw [hfirst] at hbelow
    exact absurd (show (3 / 5 : ℚ) < 1 / 2 from hbelow) (by norm_num)
  rw [hi0, hfirst]
  linarith

/-- A shard with three flows of the shares 7/10, 1/5 and 1/10, of which 19/20 are to be
offloaded. -/
def threeFlows (cfg : Cfg) : ShardInfo ℚ :=
  { Init.shard ℚ cfg 0 with
    rNew := 19 / 20
    table := fun k =>
      if k = ⟨1, 2, 0, 4⟩ then some (stateOf (7 / 10) (7 / 10) k)
      else if k = ⟨1, 2, 2, 4⟩ then some (stateOf (1 / 5) (9 / 10) k)
      else if k = ⟨1, 2, 4, 4⟩ then some (stateOf (1 / 10) 1 k)
      else none
    orderedFlows := [⟨1, 2, 0, 4⟩, ⟨1, 2, 2, 4⟩, ⟨1, 2, 4, 4⟩] }

/-- Three flows in falling order. -/
theorem threeFlows_ordered (cfg : Cfg) : Ordered (threeFlows cfg) := by
  have hshares : prob2s (threeFlows cfg) = [7 / 10, 1 / 5, 1 / 10] := rfl
  refine ⟨?_, ?_, ?_, fun i hi => ?_⟩
  · rw [hshares]
    decide +kernel
  · rw [hshares]
    decide +kernel
  · rw [hshares]
    decide +kernel
  · have hlisted : listed (threeFlows cfg) = [stateOf (7 / 10) (7 / 10) ⟨1, 2, 0, 4⟩,
        stateOf (1 / 5) (9 / 10) ⟨1, 2, 2, 4⟩, stateOf (1 / 10) 1 ⟨1, 2, 4, 4⟩] := rfl
    simp only [hlisted] at hi ⊢
    rw [shareUpTo, hshares]
    match i, hi with
    | 0, _ => norm_num [stateOf]
    | 1, _ => norm_num [stateOf]
    | 2, _ => norm_num [stateOf]

/-- **A ratio near 1.** The third flow completes all of the traffic, and 1 is close to 19/20; but
the new ratio is above 1, and there `EPSILON` is less than the margin that the working cores leave.
-/
theorem allTraffic_not_snaps : ¬ Snaps (threeFlows (router 1)) := by
  intro hsnaps
  have hshares : prob2s (threeFlows (router 1)) = [7 / 10, 1 / 5, 1 / 10] := rfl
  have hlast : shareUpTo (threeFlows (router 1)) 2 = 1 := by
    rw [shareUpTo, hshares]
    decide +kernel
  have hcross : Crosses (threeFlows (router 1)) 2 := by
    refine ⟨Nat.lt_succ_self 2, ?_, fun j hj => ?_⟩
    · rw [hlast]
      change (19 / 20 : ℚ) ≤ 1
      norm_num
    · rw [shareUpTo, hshares]
      change _ < (19 / 20 : ℚ)
      match j, hj with
      | 0, _ => decide +kernel
      | 1, _ => decide +kernel
  have hnear : shareUpTo (threeFlows (router 1)) 2 < (threeFlows (router 1)).rNew * 1.5 := by
    rw [hlast]
    change (1 : ℚ) < 19 / 20 * 1.5
    norm_num
  have hlt := (threeFlows_ordered (router 1)).lt_one_of_offloads
    (show (0 : ℚ) < 19 / 20 by norm_num) hcross hnear ((hsnaps.near 2 hcross hnear).1 2 le_rfl)
  rw [hlast] at hlt
  have hε := epsilon_pos
  linarith

end Small

end Fajita
