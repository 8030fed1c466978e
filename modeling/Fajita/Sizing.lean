import Fajita.Answers

/-!
# The sizes

`long_solver` has a model of its own, in which the numbers of working and offloading cores are
variables: it asks for the fewest cores that carry the traffic. `short_solver` is told the numbers.
`long_iff_short` compares the two: with given numbers of cores they allow the same placements, but

* `long_solver` wants two working cores for each offloading core;
* it lets a working core give away up to 1 instead of 0.9, and
* it lets an offloading core be given up to 1 by all its working cores together, where
  `short_solver` has no bound at all.

So `short_solver` may have no answer for the sizes that `long_solver` found (`heavy_sizes`).
-/

namespace Fajita.Solver

open Finset (range Ico)

/-! ## The model of `long_solver` -/

/-- What `long_solver` is asked about. -/
structure LongProblem where
  /-- `MAXCORES` -/
  maxCores : ℕ
  /-- `SHARDS` -/
  shards : ℕ
  /-- coefficient of variation of the arrivals of priority packets -/
  Cap : ℚ
  /-- coefficient of variation of the service of priority packets -/
  Csp : ℚ
  /-- bound on the mean wait on a working core -/
  SLOp : ℚ
  /-- coefficient of variation of the arrivals of regular packets -/
  Car : ℚ
  /-- coefficient of variation of the service of regular packets -/
  Csr : ℚ
  /-- bound on the mean wait on an offloading core -/
  SLOr : ℚ
  /-- service time on a working core -/
  T : ℚ
  /-- service time on an offloading core -/
  Te : ℚ
  /-- load of each shard -/
  V : ℕ → ℚ

/-- The variables of the model. -/
structure LongPoint where
  /-- offloading is allowed -/
  rFactor : ℕ
  /-- core `i` is a working core -/
  w : ℕ → ℕ
  /-- there is an offloading core `j` -/
  e : ℕ → ℕ
  /-- shard `s` is assigned to core `i` -/
  A : ℕ → ℕ → ℕ
  /-- core `i` offloads to core `j` -/
  O : ℕ → ℕ → ℕ
  /-- load a core keeps -/
  tempW1 : ℕ → ℚ
  /-- load a core offloads -/
  tempW2 : ℕ → ℚ
  /-- load a core is given -/
  tempE1 : ℕ → ℚ
  /-- the share of each shard that is offloaded -/
  r : ℕ → ℚ
  /-- load of a working core -/
  loadW : ℕ → ℚ
  /-- load of an offloading core -/
  loadE : ℕ → ℚ
  /-- `load/(1-load)` on a working core -/
  varsW : ℕ → ℚ
  /-- `load/(1-load)` on an offloading core -/
  varsE : ℕ → ℚ
  /-- mean wait on a working core -/
  avgW : ℕ → ℚ
  /-- mean wait on an offloading core -/
  avgE : ℕ → ℚ
  /-- core `i` is a working core that offloads -/
  res : ℕ → ℕ

/-- `W` -/
def LongPoint.workings (x : LongPoint) (n : ℕ) : ℕ := ∑ i ∈ range n, x.w i

/-- `E` -/
def LongPoint.offloadings (x : LongPoint) (n : ℕ) : ℕ := ∑ i ∈ range n, x.e i

/-- The constraints of `long_solver`. -/
structure LongFeasible (scale : UInt32) (q : LongProblem) (x : LongPoint) : Prop where
  /-- `GRB_BINARY` -/
  binaryCores : ∀ i < q.maxCores, x.w i ≤ 1 ∧ x.e i ≤ 1
  /-- `GRB_BINARY` -/
  binaryA : ∀ s < q.shards, ∀ i < q.maxCores, x.A s i ≤ 1
  /-- `GRB_BINARY` -/
  binaryO : ∀ j < q.maxCores, ∀ i < q.maxCores, x.O j i ≤ 1
  /-- bounds of the loads that are kept, given away and got -/
  temps : ∀ i < q.maxCores, (-1 ≤ x.tempW1 i ∧ x.tempW1 i ≤ 1) ∧
    (-1 ≤ x.tempW2 i ∧ x.tempW2 i ≤ 1) ∧ (-1 ≤ x.tempE1 i ∧ x.tempE1 i ≤ 1)
  /-- bounds of `r` -/
  ratio : ∀ s < q.shards, 0 ≤ x.r s ∧ x.r s ≤ 1
  /-- bounds of the loads -/
  loads : ∀ i < q.maxCores, InLoad (x.loadW i) ∧ InLoad (x.loadE i)
  /-- the remaining variables have the default lower bound -/
  nonneg : ∀ i < q.maxCores, 0 ≤ x.varsW i ∧ 0 ≤ x.varsE i ∧ 0 ≤ x.avgW i ∧ 0 ≤ x.avgE i
  /-- there is a working core -/
  someone : 1 ≤ x.workings q.maxCores
  /-- there are enough cores -/
  enough : x.workings q.maxCores + x.offloadings q.maxCores ≤ q.maxCores
  /-- an offloading core has two working cores -/
  half : 2 * x.offloadings q.maxCores ≤ x.workings q.maxCores
  /-- with an offloading core offloading is allowed -/
  factorOn : x.e 0 = 1 → x.rFactor = 1
  /-- and without it is not -/
  factorOff : x.e 0 = 0 → x.rFactor = 0
  /-- no share is offloaded where it is not -/
  factor : ∀ s < q.shards, x.r s * x.rFactor = x.r s
  /-- every shard is on one core -/
  assigned : ∀ s < q.shards, ∑ i ∈ range q.maxCores, x.A s i = 1
  /-- `addGenConstrAnd` -/
  both : ∀ i < q.maxCores, x.res i = if x.w i = 1 ∧ x.e 0 = 1 then 1 else 0
  /-- a core that does not work has no shards -/
  idleA : ∀ i < q.maxCores, x.w i = 0 → ∑ s ∈ range q.shards, x.A s i = 0
  /-- and does not offload -/
  idleO : ∀ i < q.maxCores, x.w i = 0 → ∑ j ∈ range q.maxCores, x.O j i = 0
  /-- a working core offloads to one core if there is one -/
  single : ∀ i < q.maxCores, x.res i = 1 → ∑ j ∈ range q.maxCores, x.O j i = 1
  /-- and has a shard -/
  busy : ∀ i < q.maxCores, x.w i = 1 → 1 ≤ ∑ s ∈ range q.shards, x.A s i
  /-- what is not an offloading core gets nothing -/
  unused : ∀ j < q.maxCores, x.e j = 0 → ∑ i ∈ range q.maxCores, x.O j i = 0
  /-- every offloading core is used -/
  used : ∀ j < q.maxCores, x.e j = 1 → 1 ≤ ∑ i ∈ range q.maxCores, x.O j i
  /-- no core has more shards than the one before it -/
  ordered : ∀ i < q.maxCores - 1,
    ∑ s ∈ range q.shards, x.A s (i + 1) ≤ ∑ s ∈ range q.shards, x.A s i
  /-- the working cores come first -/
  orderedW : ∀ i < q.maxCores - 1, x.w (i + 1) ≤ x.w i
  /-- the offloading cores come first -/
  orderedE : ∀ i < q.maxCores - 1, x.e (i + 1) ≤ x.e i
  /-- the load a core keeps -/
  keeps : ∀ i < q.maxCores, x.tempW1 i = ∑ s ∈ range q.shards, x.A s i * q.V s * (1 - x.r s)
  /-- the load a core offloads -/
  offloads : ∀ i < q.maxCores, x.tempW2 i = ∑ s ∈ range q.shards, x.A s i * q.V s * x.r s
  /-- the load of a working core -/
  works : ∀ i < q.maxCores, x.loadW i = x.w i * x.tempW1 i
  /-- `load/(1-load)` of a working core -/
  varW : ∀ i < q.maxCores, x.varsW i * (1 - x.loadW i) = x.loadW i
  /-- mean wait on a working core -/
  waitW : ∀ i < q.maxCores, x.avgW i = x.varsW i * ((q.Cap * q.Cap + q.Csp * q.Csp) / 2) * q.T
  /-- its bound -/
  sloW : ∀ i < q.maxCores, x.avgW i ≤ q.SLOp
  /-- what a core is given -/
  gets : ∀ j < q.maxCores, x.tempE1 j = ∑ i ∈ range q.maxCores, x.O j i * x.tempW2 i
  /-- the load of an offloading core -/
  receives : ∀ j < q.maxCores, x.loadE j = scale.toNat * x.e j * x.tempE1 j
  /-- `load/(1-load)` of an offloading core -/
  varE : ∀ j < q.maxCores, x.varsE j * (1 - x.loadE j) = x.loadE j
  /-- mean wait on an offloading core -/
  waitE : ∀ j < q.maxCores, x.avgE j = x.varsE j * ((q.Car * q.Car + q.Csr * q.Csr) / 2) * q.Te
  /-- its bound -/
  sloE : ∀ j < q.maxCores, x.avgE j ≤ q.SLOr

/-! ## The same traffic

The two solvers have much in common: `long_solver` chooses the numbers of cores, and `short_solver`
is told them. Cores that are not chosen carry nothing.
-/

/-- `long_solver` is asked about the same traffic, with up to `n` cores. -/
def Problem.long (q : Problem) (n : ℕ) : LongProblem where
  maxCores := n
  shards := q.shards
  Cap := q.Cap
  Csp := q.Csp
  SLOp := q.SLOp
  Car := q.Car
  Csr := q.Csr
  SLOr := q.SLOr
  T := q.T
  Te := q.Te
  V := q.V

/-- What core `i` gives away. -/
def given (q : Problem) (A : ℕ → ℕ → ℕ) (r : ℕ → ℚ) (i : ℕ) : ℚ :=
  ∑ s ∈ range q.shards, A s i * q.V s * r s

/-- What core `i` does not give away. -/
def retained (q : Problem) (A : ℕ → ℕ → ℕ) (r : ℕ → ℚ) (i : ℕ) : ℚ :=
  ∑ s ∈ range q.shards, A s i * q.V s * (1 - r s)

/-- The cores from `q.cores` to `n` have no part in the placement. -/
structure Unused (q : Problem) (n : ℕ) (A O : ℕ → ℕ → ℕ) : Prop where
  /-- they have no shards -/
  shards : ∀ s < q.shards, ∀ i ∈ Ico q.cores n, A s i = 0
  /-- they do not offload -/
  offload : ∀ j < n, ∀ i ∈ Ico q.cores n, O j i = 0
  /-- and nothing is offloaded to them -/
  receive : ∀ j ∈ Ico q.cores n, ∀ i < n, O j i = 0

variable {q : Problem} {n : ℕ} {A O : ℕ → ℕ → ℕ} {r : ℕ → ℚ} {x : LongPoint} {y : Point}

/-- A sum over all cores is one over those that count. -/
theorem sum_cores {M : Type*} [AddCommMonoid M] {c : ℕ} (hle : c ≤ n) {f : ℕ → M}
    (h : ∀ i ∈ Ico c n, f i = 0) : ∑ i ∈ range n, f i = ∑ i ∈ range c, f i := by
  refine (Finset.sum_subset (Finset.range_mono hle) fun i hi hno => h i ?_).symm
  rw [Finset.mem_range] at hi hno
  exact Finset.mem_Ico.mpr ⟨Nat.not_lt.mp hno, hi⟩

theorem given_eq_zero {i : ℕ} (h : ∀ s < q.shards, A s i = 0) : given q A r i = 0 :=
  Finset.sum_eq_zero fun s hs => by
    rw [h s (Finset.mem_range.mp hs), Nat.cast_zero, zero_mul, zero_mul]

theorem retained_eq_zero {i : ℕ} (h : ∀ s < q.shards, A s i = 0) : retained q A r i = 0 :=
  Finset.sum_eq_zero fun s hs => by
    rw [h s (Finset.mem_range.mp hs), Nat.cast_zero, zero_mul, zero_mul]

theorem given_nonneg (hr : ∀ s < q.shards, 0 ≤ r s) (i : ℕ) : 0 ≤ given q A r i :=
  Finset.sum_nonneg fun s hs =>
    mul_nonneg (mul_nonneg (Nat.cast_nonneg _) (q.V_nonneg s)) (hr s (Finset.mem_range.mp hs))

/-! ## From the long solver to the short one

The chosen cores come first, working cores and offloading cores alike. So a point of the one solver
is a point of the other, once the cores that are not chosen are left out.
-/

namespace LongFeasible

variable (h : LongFeasible 0 (q.long n) x) (hW : x.workings n = q.W) (hE : x.offloadings n = q.E)

include h hW hE

theorem cores_le : q.cores ≤ n := by
  have henough : x.workings n + x.offloadings n ≤ n := h.enough
  rw [hW, hE] at henough
  exact henough

omit hE in
/-- The first cores are the working cores. -/
theorem w_eq {i : ℕ} (hi : i < n) : x.w i = if i < q.W then 1 else 0 := by
  rw [← hW]
  exact stairs_eq (fun k hk => (h.binaryCores k hk).1) h.orderedW i hi

omit hW in
theorem e_eq {j : ℕ} (hj : j < n) : x.e j = if j < q.E then 1 else 0 := by
  rw [← hE]
  exact stairs_eq (fun k hk => (h.binaryCores k hk).2) h.orderedE j hj

omit hE in
theorem w_eq_zero {i : ℕ} (hi : i ∈ Ico q.W n) : x.w i = 0 := by
  obtain ⟨hge, hlt⟩ := Finset.mem_Ico.mp hi
  rw [h.w_eq hW hlt, if_neg (Nat.not_lt.mpr hge)]

omit hW in
theorem e_eq_zero {j : ℕ} (hj : j ∈ Ico q.E n) : x.e j = 0 := by
  obtain ⟨hge, hlt⟩ := Finset.mem_Ico.mp hj
  rw [h.e_eq hE hlt, if_neg (Nat.not_lt.mpr hge)]

omit hE in
theorem A_eq_zero {i : ℕ} (hi : i ∈ Ico q.W n) : ∀ s < q.shards, x.A s i = 0 :=
  Fajita.eq_zero_of_sum_eq_zero (h.idleA i (Finset.mem_Ico.mp hi).2 (h.w_eq_zero hW hi))

omit hE in
theorem O_eq_zero {i : ℕ} (hi : i ∈ Ico q.W n) : ∀ j < n, x.O j i = 0 :=
  Fajita.eq_zero_of_sum_eq_zero (h.idleO i (Finset.mem_Ico.mp hi).2 (h.w_eq_zero hW hi))

omit hW in
theorem row_eq_zero {j : ℕ} (hj : j ∈ Ico q.E n) : ∀ i < n, x.O j i = 0 :=
  Fajita.eq_zero_of_sum_eq_zero (h.unused j (Finset.mem_Ico.mp hj).2 (h.e_eq_zero hE hj))

theorem outside : Unused q n x.A x.O where
  shards s hs _ hi := h.A_eq_zero hW
    (Finset.Ico_subset_Ico_left (Nat.le_add_right q.W q.E) hi) s hs
  offload j hj _ hi := h.O_eq_zero hW
    (Finset.Ico_subset_Ico_left (Nat.le_add_right q.W q.E) hi) j hj
  receive _ hj i hi := h.row_eq_zero hE
    (Finset.Ico_subset_Ico_left (Nat.le_add_left q.E q.W) hj) i hi

theorem linearA : LinearA q.W q.cores q.shards x.A := by
  have hle := h.cores_le hW hE
  have hcores : q.cores = q.W + q.E := rfl
  have hunused := h.outside hW hE
  refine ⟨fun s hs i hi => h.binaryA s hs i (hi.trans_le hle), fun s hs => ?_, fun i hi => ?_,
    fun i hi => ?_, fun i hi => h.ordered i ?_⟩
  · rw [← sum_cores hle (hunused.shards s hs)]
    exact h.assigned s hs
  · have hin : i < n := by omega
    exact h.busy i hin (by rw [h.w_eq hW hin, if_pos hi])
  · exact h.idleA i ((Finset.mem_Ico.mp hi).2.trans_le hle)
      (h.w_eq_zero hW (Finset.Ico_subset_Ico_right hle hi))
  · have hn : (q.long n).maxCores = n := rfl
    omega

theorem linearO : LinearO q.W q.E q.cores x.O := by
  have hle := h.cores_le hW hE
  have hcores : q.cores = q.W + q.E := rfl
  refine ⟨fun j hj i hi => h.binaryO j (hj.trans_le hle) i (hi.trans_le hle), fun h0 i hi => ?_,
    fun hne i hi => ?_, fun _ i hi => ?_, fun _ i hi => ?_, fun hne j hj => ?_⟩
  · -- no core is an offloading core
    refine Finset.sum_eq_zero fun j hj => h.row_eq_zero hE ?_ i (hi.trans_le hle)
    rw [h0]
    exact Finset.mem_Ico.mpr ⟨Nat.zero_le j, (Finset.mem_range.mp hj).trans_le hle⟩
  · have hin : i < n := by omega
    have hres : x.res i = 1 := by
      rw [h.both i hin, h.w_eq hW hin, h.e_eq hE (show 0 < n by omega), if_pos hi,
        if_pos (Nat.pos_of_ne_zero hne), if_pos ⟨rfl, rfl⟩]
    rw [← sum_cores (show q.E ≤ n by omega) fun j hj => h.row_eq_zero hE hj i hin]
    exact h.single i hin hres
  · exact Finset.sum_eq_zero fun j hj =>
      h.row_eq_zero hE (Finset.Ico_subset_Ico_right hle hj) i (by omega)
  · refine Finset.sum_eq_zero fun j hj => h.O_eq_zero hW (Finset.Ico_subset_Ico_right hle hi) j ?_
    exact (Finset.mem_range.mp hj).trans_le hle
  · have hjn : j < n := by omega
    rw [← sum_cores hle fun i hi => (h.outside hW hE).offload j hjn i hi]
    exact h.used j hjn (by rw [h.e_eq hE hjn, if_pos hj])

omit hE in
/-- A core that does not work keeps nothing. -/
theorem loadW_eq {i : ℕ} (hi : i < n) : x.loadW i = retained q x.A x.r i := by
  have hkeeps : x.tempW1 i = retained q x.A x.r i := h.keeps i hi
  have hworks : x.loadW i = x.w i * x.tempW1 i := h.works i hi
  rw [hworks, hkeeps, h.w_eq hW hi]
  split
  · rw [Nat.cast_one, one_mul]
  · next hidle =>
    rw [Nat.cast_zero, zero_mul, retained_eq_zero]
    exact h.A_eq_zero hW (Finset.mem_Ico.mpr ⟨Nat.not_lt.mp hidle, hi⟩)

omit hE in
theorem SLOr_nonneg : 0 ≤ q.SLOr := by
  have hsome : 1 ≤ x.workings n := h.someone
  have henough : x.workings n + x.offloadings n ≤ n := h.enough
  have hpos : 0 < n := by omega
  exact (h.nonneg 0 hpos).2.2.2.trans (h.sloE 0 hpos)

omit hW hE in
theorem noRatio (hE : x.offloadings n = 0) : ∀ s < q.shards, x.r s = 0 := by
  intro s hs
  have hsome : 1 ≤ x.workings n := h.someone
  have henough : x.workings n + x.offloadings n ≤ n := h.enough
  have hpos : 0 < n := by omega
  have he : x.e 0 = 0 := Fajita.eq_zero_of_sum_eq_zero hE 0 hpos
  have hfactor := h.factor s hs
  rw [h.factorOff he, Nat.cast_zero, mul_zero] at hfactor
  exact hfactor.symm

/-- An offloading core is given at most 1. -/
theorem given_le {j : ℕ} (hj : j < q.E) :
    ∑ i ∈ range q.cores, x.O j i * given q x.A x.r i ≤ 1 := by
  have hle := h.cores_le hW hE
  have hjn : j < n := (hj.trans_le (Nat.le_add_left q.E q.W)).trans_le hle
  have hgets : x.tempE1 j = ∑ i ∈ range n, x.O j i * x.tempW2 i := h.gets j hjn
  have hsum : ∑ i ∈ range n, x.O j i * x.tempW2 i =
      ∑ i ∈ range q.cores, x.O j i * given q x.A x.r i := by
    rw [sum_cores hle fun i hi => by
      rw [(h.outside hW hE).offload j hjn i hi, Nat.cast_zero, zero_mul]]
    exact Finset.sum_congr rfl fun i hi => by
      rw [h.offloads i ((Finset.mem_range.mp hi).trans_le hle)]
      rfl
  rw [← hsum, ← hgets]
  exact (h.temps j hjn).2.2.2

end LongFeasible

/-- The point of `short_solver` with the same placement. -/
def LongPoint.short (q : Problem) (x : LongPoint) : Point where
  A := x.A
  O := x.O
  r := x.r
  loadW := x.loadW
  loadE _ := 0
  loadWe := x.tempW2
  varsW := x.varsW
  varsE _ := 0
  avgW := x.avgW
  avgE _ := 0
  tempA s i := x.A s i - q.Aold s i
  diffA s i := |(x.A s i - q.Aold s i : ℚ)|
  tempO j i := x.O j i - q.Oold j i
  diffO j i := |(x.O j i - q.Oold j i : ℚ)|

/-- **From the long solver to the short one.** -/
theorem LongFeasible.short (h : LongFeasible 0 (q.long n) x) (hW : x.workings n = q.W)
    (hE : x.offloadings n = q.E) (hgiven : ∀ i < q.W, given q x.A x.r i ≤ 9 / 10) :
    Feasible 0 q (x.short q) := by
  have hle := h.cores_le hW hE
  have hn : ∀ {i}, i < q.cores → i < n := fun hi => hi.trans_le hle
  have hoffloads : ∀ i < q.cores, x.tempW2 i = given q x.A x.r i := fun i hi =>
    h.offloads i (hn hi)
  have hzero : InLoad 0 := ⟨le_refl 0, by norm_num⟩
  have hgives : ∀ i < q.cores, InLoad (x.tempW2 i) := by
    intro i hi
    rw [hoffloads i hi]
    refine ⟨given_nonneg (fun s hs => (h.ratio s hs).1) i, ?_⟩
    rcases Nat.lt_or_ge i q.W with hlt | hge
    · exact hgiven i hlt
    · rw [given_eq_zero (h.A_eq_zero hW (Finset.mem_Ico.mpr ⟨hge, hn hi⟩))]
      norm_num
  constructor
  case linearA => exact h.linearA hW hE
  case linearO => exact h.linearO hW hE
  case ratio => exact h.ratio
  case noRatio => exact fun h0 => h.noRatio (hE.trans h0)
  case loads => exact fun i hi => ⟨(h.loads i (hn hi)).1, hzero, hgives i hi⟩
  case nonneg =>
    exact fun i hi => ⟨(h.nonneg i (hn hi)).1, le_refl 0, (h.nonneg i (hn hi)).2.2.1, le_refl 0⟩
  case distA =>
    exact fun s hs i hi => distance_bounds (h.binaryA s hs i (hn hi)) (q.Aold_le s i)
  case distO =>
    exact fun j hj i hi => distance_bounds (h.binaryO j (hn hj) i (hn hi)) (q.Oold_le j i)
  case keeps => exact fun i hi => (h.loadW_eq hW (hn hi)).symm
  case offloads => exact fun i hi => (hoffloads i hi).symm
  case varW => exact fun i hi => h.varW i (hn hi)
  case waitW => exact fun i hi => h.waitW i (hn hi)
  case sloW => exact fun i hi => h.sloW i (hn hi)
  case receives => exact fun j _ => zero_mul _
  case varE => exact fun j _ => zero_mul _
  case waitE => exact fun j _ => by rw [LongPoint.short, zero_mul, zero_mul]
  case sloE => exact fun j _ => h.SLOr_nonneg hW

/-! ## And back

A point for so many cores is a point of `long_solver` that chooses these cores.
-/

/-- The point of `long_solver` with the same placement. -/
def Point.long (q : Problem) (y : Point) : LongPoint where
  rFactor := if q.E = 0 then 0 else 1
  w i := if i < q.W then 1 else 0
  e j := if j < q.E then 1 else 0
  A := y.A
  O := y.O
  tempW1 := retained q y.A y.r
  tempW2 := given q y.A y.r
  tempE1 j := ∑ i ∈ range q.cores, y.O j i * given q y.A y.r i
  r := y.r
  loadW := retained q y.A y.r
  loadE _ := 0
  varsW i := if i < q.W then y.varsW i else 0
  varsE _ := 0
  avgW i := if i < q.W then y.avgW i else 0
  avgE _ := 0
  res i := if i < q.W ∧ 0 < q.E then 1 else 0

theorem long_workings (hle : q.W ≤ n) : (y.long q).workings n = q.W := by
  rw [LongPoint.workings]
  exact (sum_stairs q.W n).trans (min_eq_left hle)

theorem long_offloadings (hle : q.E ≤ n) : (y.long q).offloadings n = q.E := by
  rw [LongPoint.offloadings]
  exact (sum_stairs q.E n).trans (min_eq_left hle)

namespace Feasible

variable (h : Feasible 0 q y) (hunused : Unused q n y.A y.O)

include h hunused

/-- Only the working cores have shards. -/
theorem A_beyond {i : ℕ} (hi : i < n) (hge : q.W ≤ i) : ∀ s < q.shards, y.A s i = 0 := by
  rcases Nat.lt_or_ge i q.cores with hlt | hge'
  · exact Fajita.eq_zero_of_sum_eq_zero (h.linearA.idle i (Finset.mem_Ico.mpr ⟨hge, hlt⟩))
  · exact fun s hs => hunused.shards s hs i (Finset.mem_Ico.mpr ⟨hge', hi⟩)

/-- Only working cores offload, and to offloading cores only. -/
theorem O_beyond {j i : ℕ} (hj : j < n) (hi : i < n) (hout : q.W ≤ i ∨ q.E ≤ j) :
    y.O j i = 0 := by
  rcases Nat.lt_or_ge i q.cores with hi' | hge
  · rcases Nat.lt_or_ge j q.cores with hj' | hge
    · by_cases h0 : q.E = 0
      · exact Fajita.eq_zero_of_sum_eq_zero (h.linearO.none h0 i hi') j hj'
      · rcases Nat.lt_or_ge i q.W with hlt | hge
        · have hrow := h.linearO.within h0 i hlt
          have hge : q.E ≤ j := hout.resolve_left (Nat.not_le.mpr hlt)
          exact Finset.sum_eq_zero_iff.mp hrow j (Finset.mem_Ico.mpr ⟨hge, hj'⟩)
        · exact h.linearO.idle_entry h0 (Finset.mem_Ico.mpr ⟨hge, hi'⟩) hj'
    · exact hunused.receive j (Finset.mem_Ico.mpr ⟨hge, hj⟩) i hi
  · exact hunused.offload j hj i (Finset.mem_Ico.mpr ⟨hge, hi⟩)

/-- What the cores keep and give away. -/
theorem retained_given {i : ℕ} (hi : i < n) :
    InLoad (retained q y.A y.r i) ∧ InLoad (given q y.A y.r i) := by
  rcases Nat.lt_or_ge i q.cores with hlt | hge
  · obtain ⟨hkeep, -, hgive⟩ := h.loads i hlt
    rw [← h.keeps i hlt] at hkeep
    rw [← h.offloads i hlt] at hgive
    exact ⟨hkeep, hgive⟩
  · have hzero : InLoad 0 := ⟨le_refl 0, by norm_num⟩
    have hA := h.A_beyond hunused hi ((Nat.le_add_right q.W q.E).trans hge)
    rw [retained_eq_zero hA, given_eq_zero hA]
    exact ⟨hzero, hzero⟩

end Feasible

/-- **From the short solver to the long one.** -/
theorem Feasible.long (h : Feasible 0 q y) (hpos : 1 ≤ q.W) (hhalf : 2 * q.E ≤ q.W)
    (hle : q.cores ≤ n) (hunused : Unused q n y.A y.O)
    (hgiven : ∀ j < q.E, ∑ i ∈ range q.cores, y.O j i * given q y.A y.r i ≤ 1) :
    LongFeasible 0 (q.long n) (y.long q) := by
  have hcores : q.cores = q.W + q.E := rfl
  have hcore : 0 < q.cores := Nat.lt_add_right q.E hpos
  have hW := @long_workings q n y (by omega)
  have hE := @long_offloadings q n y (by omega)
  have hzero : InLoad 0 := ⟨le_refl 0, by norm_num⟩
  have hA : ∀ i < n, q.W ≤ i → ∀ s < q.shards, y.A s i = 0 := fun i hi =>
    h.A_beyond hunused hi
  have hO : ∀ j < n, ∀ i < n, (q.W ≤ i ∨ q.E ≤ j) → y.O j i = 0 := fun j hj i hi =>
    h.O_beyond hunused hj hi
  have hw : ∀ i, (y.long q).w i = if i < q.W then 1 else 0 := fun _ => rfl
  have he : ∀ j, (y.long q).e j = if j < q.E then 1 else 0 := fun _ => rfl
  have hworking : ∀ i, (y.long q).w i = 1 ↔ i < q.W := fun i => by rw [hw]; split <;> simp [*]
  have hidle : ∀ i, (y.long q).w i = 0 ↔ q.W ≤ i := fun i => by rw [hw]; split <;> omega
  have hused : ∀ j, (y.long q).e j = 1 ↔ j < q.E := fun j => by rw [he]; split <;> simp [*]
  have hspare : ∀ j, (y.long q).e j = 0 ↔ q.E ≤ j := fun j => by rw [he]; split <;> omega
  have hgets : ∀ j < n, ∑ i ∈ range n, y.O j i * given q y.A y.r i =
      ∑ i ∈ range q.cores, y.O j i * given q y.A y.r i := fun j hj =>
    sum_cores hle fun i hi => by
      rw [hunused.offload j hj i hi, Nat.cast_zero, zero_mul]
  have hload : ∀ i < q.W, y.loadW i = retained q y.A y.r i := fun i hi =>
    (h.keeps i (by omega)).symm
  constructor
  case binaryCores => exact fun i _ => ⟨by rw [hw]; split <;> omega, by rw [he]; split <;> omega⟩
  case binaryA =>
    intro s hs i hi
    rcases Nat.lt_or_ge i q.cores with hlt | hge
    · exact h.linearA.binary s hs i hlt
    · exact (hA i hi (by omega) s hs).le.trans zero_le_one
  case binaryO =>
    intro j hj i hi
    by_cases hin : i < q.W ∧ j < q.E
    · exact h.linearO.binary j (by omega) i (by omega)
    · exact (hO j hj i hi (by omega)).le.trans zero_le_one
  case temps =>
    intro i hi
    obtain ⟨⟨hkeep, hkeep'⟩, hgive, hgive'⟩ := h.retained_given hunused hi
    refine ⟨⟨by change -1 ≤ retained q y.A y.r i; linarith, by
        change retained q y.A y.r i ≤ 1; linarith⟩,
      ⟨by change -1 ≤ given q y.A y.r i; linarith, by change given q y.A y.r i ≤ 1; linarith⟩, ?_⟩
    have hsum : (y.long q).tempE1 i = ∑ k ∈ range q.cores, y.O i k * given q y.A y.r k := rfl
    rw [hsum]
    refine ⟨(by norm_num : (-1 : ℚ) ≤ 0).trans (Finset.sum_nonneg fun k hk => ?_), ?_⟩
    · exact mul_nonneg (Nat.cast_nonneg _) (given_nonneg (fun s hs => (h.ratio s hs).1) k)
    · rcases Nat.lt_or_ge i q.E with hlt | hge
      · exact hgiven i hlt
      · rw [Finset.sum_eq_zero fun k hk => by
          have := Finset.mem_range.mp hk
          rw [hO i hi k (by omega) (Or.inr hge), Nat.cast_zero, zero_mul]]
        exact zero_le_one
  case ratio => exact h.ratio
  case loads => exact fun i hi => ⟨(h.retained_given hunused hi).1, hzero⟩
  case nonneg =>
    intro i hi
    simp only [Point.long]
    split
    · obtain ⟨hvars, -, havg, -⟩ := h.nonneg i (by omega)
      exact ⟨hvars, le_refl 0, havg, le_refl 0⟩
    · exact ⟨le_refl 0, le_refl 0, le_refl 0, le_refl 0⟩
  case someone => exact hpos.trans hW.ge
  case enough =>
    change (y.long q).workings n + (y.long q).offloadings n ≤ n
    rw [hW, hE]
    exact hle
  case half =>
    change 2 * (y.long q).offloadings n ≤ (y.long q).workings n
    rw [hW, hE]
    exact hhalf
  case factorOn => exact fun he0 => if_neg ((hused 0).mp he0).ne'
  case factorOff => exact fun he0 => if_pos (Nat.le_zero.mp ((hspare 0).mp he0))
  case factor =>
    intro s hs
    simp only [Point.long]
    split
    · next h0 => rw [h.noRatio h0 s hs, zero_mul]
    · rw [Nat.cast_one, mul_one]
  case assigned =>
    intro s hs
    change ∑ i ∈ range n, y.A s i = 1
    rw [sum_cores hle (hunused.shards s hs)]
    exact h.linearA.assigned s hs
  case both =>
    intro i _
    simp only [hworking, hused]
    rfl
  case idleA =>
    exact fun i hi hw0 => Finset.sum_eq_zero fun s hs =>
      hA i hi ((hidle i).mp hw0) s (Finset.mem_range.mp hs)
  case idleO =>
    exact fun i hi hw0 => Finset.sum_eq_zero fun j hj =>
      hO j (Finset.mem_range.mp hj) i hi (Or.inl ((hidle i).mp hw0))
  case single =>
    intro i hi hres
    obtain ⟨hlt, hpos⟩ : i < q.W ∧ 0 < q.E := by
      by_contra hnot
      exact absurd (hres.symm.trans (if_neg hnot)) one_ne_zero
    change ∑ j ∈ range n, y.O j i = 1
    rw [sum_cores (show q.E ≤ n by omega) fun j hj =>
      hO j (Finset.mem_Ico.mp hj).2 i hi (Or.inr (Finset.mem_Ico.mp hj).1)]
    exact h.linearO.single hpos.ne' i hlt
  case busy => exact fun i _ hw1 => h.linearA.busy i ((hworking i).mp hw1)
  case unused =>
    exact fun j hj he0 => Finset.sum_eq_zero fun i hi =>
      hO j hj i (Finset.mem_range.mp hi) (Or.inr ((hspare j).mp he0))
  case used =>
    intro j hj he1
    have hlt := (hused j).mp he1
    change 1 ≤ ∑ i ∈ range n, y.O j i
    rw [sum_cores hle (hunused.offload j hj)]
    exact h.linearO.used (Nat.ne_of_gt (Nat.zero_lt_of_lt hlt)) j hlt
  case ordered =>
    intro i hi
    have hi' : i < n - 1 := hi
    rcases Nat.lt_or_ge i (q.cores - 1) with hlt | hge
    · exact h.linearA.ordered i hlt
    · refine (Finset.sum_eq_zero fun s hs => ?_).le.trans (Nat.zero_le _)
      exact hA (i + 1) (by omega) (by omega) s (Finset.mem_range.mp hs)
  case orderedW => exact fun i _ => by rw [hw, hw]; split <;> split <;> omega
  case orderedE => exact fun i _ => by rw [he, he]; split <;> split <;> omega
  case keeps => exact fun _ _ => rfl
  case offloads => exact fun _ _ => rfl
  case works =>
    intro i hi
    change retained q y.A y.r i = (y.long q).w i * retained q y.A y.r i
    rw [hw]
    split
    · rw [Nat.cast_one, one_mul]
    · next hnot => rw [retained_eq_zero (hA i hi (by omega)), mul_zero]
  case varW =>
    intro i hi
    change (if i < q.W then y.varsW i else 0) * (1 - retained q y.A y.r i) = retained q y.A y.r i
    split
    · next hlt =>
      rw [← hload i hlt]
      exact h.varW i (by omega)
    · next hnot => rw [zero_mul, retained_eq_zero (hA i hi (by omega))]
  case waitW =>
    intro i _
    simp only [Point.long, Problem.long]
    split
    · exact h.waitW i (by omega)
    · rw [zero_mul, zero_mul]
  case sloW =>
    intro i _
    simp only [Point.long, Problem.long]
    split
    · exact h.sloW i (by omega)
    · exact (h.nonneg 0 hcore).2.2.1.trans (h.sloW 0 hcore)
  case gets => exact fun j hj => (hgets j hj).symm
  case receives =>
    intro j _
    change (0 : ℚ) = (0 : UInt32).toNat * _ * _
    rw [UInt32.toNat_zero, Nat.cast_zero, zero_mul, zero_mul]
  case varE => exact fun j _ => zero_mul _
  case waitE => exact fun j _ => by rw [Point.long, zero_mul, zero_mul]
  case sloE => exact fun j _ => h.slo_nonneg hcore

/-- **The two solvers allow the same placements** for given numbers of cores, up to the bounds on
what is given away: `short_solver` wants every working core to give away at most 0.9, `long_solver`
wants two working cores for each offloading core, and that this is given at most 1 by all of them
together. -/
theorem long_iff_short (served served' : List ℕ) (q : Problem) (n : ℕ) (A O : ℕ → ℕ → ℕ)
    (r : ℕ → ℚ) :
    ((∃ x, LongFeasible (scale served) (q.long n) x ∧
        (x.workings n = q.W ∧ x.offloadings n = q.E) ∧ x.A = A ∧ x.O = O ∧ x.r = r) ∧
      ∀ i < q.W, given q A r i ≤ 9 / 10) ↔
    (∃ y, Feasible (scale served') q y ∧ y.A = A ∧ y.O = O ∧ y.r = r) ∧
      (1 ≤ q.W ∧ 2 * q.E ≤ q.W ∧ q.cores ≤ n) ∧ Unused q n A O ∧
        ∀ j < q.E, ∑ i ∈ range q.cores, O j i * given q A r i ≤ 1 := by
  rw [scale_eq_zero, scale_eq_zero]
  constructor
  · rintro ⟨⟨x, h, ⟨hW, hE⟩, rfl, rfl, rfl⟩, hgiven⟩
    have hsome : 1 ≤ x.workings n := h.someone
    have hhalf : 2 * x.offloadings n ≤ x.workings n := h.half
    rw [hW] at hsome
    rw [hW, hE] at hhalf
    exact ⟨⟨x.short q, h.short hW hE hgiven, rfl, rfl, rfl⟩, ⟨hsome, hhalf, h.cores_le hW hE⟩,
      h.outside hW hE, fun j hj => h.given_le hW hE hj⟩
  · rintro ⟨⟨y, h, rfl, rfl, rfl⟩, ⟨hpos, hhalf, hle⟩, hunused, hgiven⟩
    have hcores : q.cores = q.W + q.E := rfl
    refine ⟨⟨y.long q, h.long hpos hhalf hle hunused hgiven,
      ⟨long_workings (by omega), long_offloadings (by omega)⟩, rfl, rfl, rfl⟩, fun i hi => ?_⟩
    have hi' : i < q.cores := by omega
    have hgive := (h.loads i hi').2.2.2
    rw [← h.offloads i hi'] at hgive
    exact hgive

/-! ## Sizes without an answer -/

namespace Small

theorem heavy_nonneg (s : ℕ) : (0 : ℚ) ≤ if s = 0 then 185 / 100 else 0 := by
  split <;> norm_num

/-- A shard with the load of almost two cores, and one without load. -/
def heavy : Problem where
  W := 2
  E := 1
  shards := 2
  Cap := 914 / 10000
  Csp := 1166 / 10000
  SLOp := 100000
  Car := 966 / 10000
  Csr := 1202 / 10000
  SLOr := 100000
  T := 1000
  Te := 1000
  V s := if s = 0 then 185 / 100 else 0
  Aold := dealing id
  Oold := dealing fun _ => 0
  V_nonneg := heavy_nonneg
  Aold_le := dealing_le_one
  Oold_le := dealing_le_one

/-- The first core keeps 0.9 and gives 0.95 away. -/
def heavyPoint : LongPoint where
  rFactor := 1
  w i := if i < 2 then 1 else 0
  e j := if j < 1 then 1 else 0
  A := dealing id
  O j i := if j = 0 ∧ i < 2 then 1 else 0
  tempW1 i := if i = 0 then 9 / 10 else 0
  tempW2 i := if i = 0 then 95 / 100 else 0
  tempE1 j := if j = 0 then 95 / 100 else 0
  r s := if s = 0 then 95 / 185 else 0
  loadW i := if i = 0 then 9 / 10 else 0
  loadE _ := 0
  varsW i := if i = 0 then 9 else 0
  varsE _ := 0
  avgW i := if i = 0 then wait heavy.Cap heavy.Csp heavy.T (9 / 10) else 0
  avgE _ := 0
  res i := if i < 2 then 1 else 0

/-- `long_solver` finds two working cores and an offloading core, with which `short_solver` has no
answer. -/
theorem heavy_sizes : LongFeasible (scale []) (heavy.long 3) heavyPoint ∧
    (heavyPoint.workings 3 = heavy.W ∧ heavyPoint.offloadings 3 = heavy.E) ∧
    ¬ ∃ y, Feasible (scale []) heavy y := by
  refine ⟨?_, by decide, ?_⟩
  · constructor <;> first | decide +kernel | (simp only [InLoad]; decide +kernel)
  · rintro ⟨y, hy⟩
    obtain ⟨f, hf⟩ := exists_deals hy.linearA hy.fits
    -- the core that gets the first shard cannot carry it
    have hfirst := hf.within 0 (by decide)
    have hload : 185 / 100 ≤ load heavy f (f 0) := by
      rw [load]
      refine (Finset.single_le_sum (f := fun s => if f s = f 0 then heavy.V s else 0)
        (fun s _ => ?_) (Finset.mem_range.mpr (show 0 < heavy.shards by decide))).trans' ?_
      · split
        · exact heavy.V_nonneg s
        · exact le_refl 0
      · simp [heavy]
    have hfits := (hf.fits (f 0) hfirst).1
    have hE : heavy.E ≠ 0 := by decide
    rw [leftOver, if_neg hE, min_eq_left (by linarith)] at hfits
    linarith

end Small

end Fajita.Solver
