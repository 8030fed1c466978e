import Mathlib.Algebra.BigOperators.Group.Finset.Basic
import Mathlib.Algebra.BigOperators.Intervals
import Mathlib.Algebra.Order.BigOperators.Group.Finset
import Mathlib.Algebra.Order.Ring.Rat
import Mathlib.Algebra.Order.Group.Unbundled.Abs
import Mathlib.Algebra.Order.Floor.Ring
import Mathlib.Data.Rat.Floor

/-!
# The placement model

`short_solver` in `solver.cpp` hands Gurobi a mixed-integer model: which working
core each shard is assigned to (`A`), which offloading core each working core
offloads to (`O`), and which share of each shard is offloaded (`r`). This file is
that model, constraint by constraint, in exact arithmetic; the optimizer itself is
outside.

* `LinearA`, `LinearO` — the linear constraints on the two matrices;
* `Feasible` — all constraints, for a value of the global `SCALE`;
* `scale` — the value `SCALE` has, which is 0 (`scale_eq_zero`).

The matrices are tables of natural numbers, as the answer carries them; that their
entries are binary is a constraint.
-/

namespace Fajita.Solver

open Finset (range Ico)

/-! ## Sizes and data -/

/-- What `short_solver` works on, after it has read a request and turned seconds into
nanoseconds. The controller's volumes are not negative, and its matrices are 0/1. -/
structure Problem where
  /-- working cores -/
  W : ℕ
  /-- offloading cores -/
  E : ℕ
  /-- `SHARDS` -/
  shards : ℕ
  /-- coefficient of variation of the arrivals of priority packets -/
  Cap : ℚ
  /-- coefficient of variation of the service of priority packets -/
  Csp : ℚ
  /-- bound on the mean wait on a working core -/
  SLOp : ℚ
  /-- coefficient of variation of the arrivals of regular packets -/
  Car : ℚ
  /-- coefficient of variation of the service of regular packets -/
  Csr : ℚ
  /-- bound on the mean wait on an offloading core -/
  SLOr : ℚ
  /-- service time on a working core -/
  T : ℚ
  /-- service time on an offloading core -/
  Te : ℚ
  /-- load of each shard -/
  V : ℕ → ℚ
  /-- the assignment in force -/
  Aold : ℕ → ℕ → ℕ
  /-- the relation in force -/
  Oold : ℕ → ℕ → ℕ
  /-- loads are not negative -/
  V_nonneg : ∀ s, 0 ≤ V s
  /-- the assignment is a 0/1 matrix -/
  Aold_le : ∀ s i, Aold s i ≤ 1
  /-- the relation is a 0/1 matrix -/
  Oold_le : ∀ j i, Oold j i ≤ 1

/-- `MAXCORES`, the `total_cores` of the controller -/
def Problem.cores (q : Problem) : ℕ := q.W + q.E

/-- The variables of the model. -/
structure Point where
  /-- shard `s` is assigned to core `i` -/
  A : ℕ → ℕ → ℕ
  /-- core `i` offloads to core `j` -/
  O : ℕ → ℕ → ℕ
  /-- the share of each shard that is offloaded -/
  r : ℕ → ℚ
  /-- load a working core keeps -/
  loadW : ℕ → ℚ
  /-- load of an offloading core -/
  loadE : ℕ → ℚ
  /-- load a working core offloads -/
  loadWe : ℕ → ℚ
  /-- `load/(1-load)` on a working core -/
  varsW : ℕ → ℚ
  /-- `load/(1-load)` on an offloading core -/
  varsE : ℕ → ℚ
  /-- mean wait on a working core -/
  avgW : ℕ → ℚ
  /-- mean wait on an offloading core -/
  avgE : ℕ → ℚ
  /-- `A - Aold` -/
  tempA : ℕ → ℕ → ℚ
  /-- its absolute value -/
  diffA : ℕ → ℕ → ℚ
  /-- `O - Oold` -/
  tempO : ℕ → ℕ → ℚ
  /-- its absolute value -/
  diffO : ℕ → ℕ → ℚ

/-! ## The linear constraints -/

/-- The constraints on the assignment of shards to cores. -/
structure LinearA (W cores shards : ℕ) (A : ℕ → ℕ → ℕ) : Prop where
  /-- `GRB_BINARY` -/
  binary : ∀ s < shards, ∀ i < cores, A s i ≤ 1
  /-- every shard is on one core -/
  assigned : ∀ s < shards, ∑ i ∈ range cores, A s i = 1
  /-- every working core has a shard -/
  busy : ∀ i < W, 1 ≤ ∑ s ∈ range shards, A s i
  /-- the other cores have none -/
  idle : ∀ i ∈ Ico W cores, ∑ s ∈ range shards, A s i = 0
  /-- no core has more shards than the one before it -/
  ordered : ∀ i < cores - 1, ∑ s ∈ range shards, A s (i + 1) ≤ ∑ s ∈ range shards, A s i

/-- The constraints on the relation between working and offloading cores. -/
structure LinearO (W E cores : ℕ) (O : ℕ → ℕ → ℕ) : Prop where
  /-- `GRB_BINARY` -/
  binary : ∀ j < cores, ∀ i < cores, O j i ≤ 1
  /-- without offloading cores nothing is offloaded -/
  none : E = 0 → ∀ i < cores, ∑ j ∈ range cores, O j i = 0
  /-- a working core offloads to one offloading core -/
  single : E ≠ 0 → ∀ i < W, ∑ j ∈ range E, O j i = 1
  /-- and to no other core -/
  within : E ≠ 0 → ∀ i < W, ∑ j ∈ Ico E cores, O j i = 0
  /-- the other cores offload nothing -/
  idle : E ≠ 0 → ∀ i ∈ Ico W cores, ∑ j ∈ range cores, O j i = 0
  /-- every offloading core is used -/
  used : E ≠ 0 → ∀ j < E, 1 ≤ ∑ i ∈ range cores, O j i

/-! ## `SCALE`

The constant is meant to be 0.4 but is an integer.
-/

/-- `SCALE = 0.4`, where `SCALE` is a `uint32_t`. -/
def scaleAssigned : UInt32 := UInt32.ofNat ⌊(4 / 10 : ℚ)⌋.toNat

/-- `SCALE` after requests with the given modes, the last one first: a global without
an initializer, which `long_solver` assigns. -/
def scale : List ℕ → UInt32
  | [] => 0
  | mode :: served => if mode = 0 then scaleAssigned else scale served

/-- **`SCALE` is 0**, whatever has been served before. -/
theorem scale_eq_zero (served : List ℕ) : scale served = 0 := by
  induction served with
  | nil => rfl
  | cons mode served ih =>
    rw [scale, ih]
    split
    · have hfloor : ⌊(4 / 10 : ℚ)⌋ = 0 := by decide +kernel
      rw [scaleAssigned, hfloor]
      rfl
    · rfl

/-! ## All constraints

The linear constraints on the two matrices, and the quadratic ones that determine loads and waits.
-/

/-- The bounds of `load_w`, `load_e` and `load_we`. -/
def InLoad (l : ℚ) : Prop := 0 ≤ l ∧ l ≤ 9 / 10

/-- The point satisfies every constraint `short_solver` adds to the model. -/
structure Feasible (scale : UInt32) (q : Problem) (x : Point) : Prop where
  /-- constraints on `A` -/
  linearA : LinearA q.W q.cores q.shards x.A
  /-- constraints on `O` -/
  linearO : LinearO q.W q.E q.cores x.O
  /-- bounds of `r` -/
  ratio : ∀ s < q.shards, 0 ≤ x.r s ∧ x.r s ≤ 1
  /-- without offloading cores no share is offloaded -/
  noRatio : q.E = 0 → ∀ s < q.shards, x.r s = 0
  /-- bounds of the loads -/
  loads : ∀ i < q.cores, InLoad (x.loadW i) ∧ InLoad (x.loadE i) ∧ InLoad (x.loadWe i)
  /-- the remaining variables have the default lower bound -/
  nonneg : ∀ i < q.cores, 0 ≤ x.varsW i ∧ 0 ≤ x.varsE i ∧ 0 ≤ x.avgW i ∧ 0 ≤ x.avgE i
  /-- the distance to the assignment in force, for the objective -/
  distA : ∀ s < q.shards, ∀ i < q.cores, x.tempA s i = x.A s i - q.Aold s i ∧
    |x.tempA s i| ≤ 1 ∧ x.diffA s i = |x.tempA s i| ∧ |x.diffA s i| ≤ 1
  /-- the distance to the relation in force, for the objective -/
  distO : ∀ j < q.cores, ∀ i < q.cores, x.tempO j i = x.O j i - q.Oold j i ∧
    |x.tempO j i| ≤ 1 ∧ x.diffO j i = |x.tempO j i| ∧ |x.diffO j i| ≤ 1
  /-- the load a core keeps -/
  keeps : ∀ i < q.cores, ∑ s ∈ range q.shards, x.A s i * q.V s * (1 - x.r s) = x.loadW i
  /-- the load a core offloads -/
  offloads : ∀ i < q.cores, ∑ s ∈ range q.shards, x.A s i * q.V s * x.r s = x.loadWe i
  /-- `load/(1-load)` of a working core -/
  varW : ∀ i < q.cores, x.varsW i * (1 - x.loadW i) = x.loadW i
  /-- mean wait on a working core -/
  waitW : ∀ i < q.cores, x.avgW i = x.varsW i * ((q.Cap * q.Cap + q.Csp * q.Csp) / 2) * q.T
  /-- its bound -/
  sloW : ∀ i < q.cores, x.avgW i ≤ q.SLOp
  /-- the load of an offloading core -/
  receives : ∀ j < q.cores,
    scale.toNat * ∑ i ∈ range q.cores, x.O j i * x.loadWe i = x.loadE j
  /-- `load/(1-load)` of an offloading core -/
  varE : ∀ j < q.cores, x.varsE j * (1 - x.loadE j) = x.loadE j
  /-- mean wait on an offloading core -/
  waitE : ∀ j < q.cores, x.avgE j = x.varsE j * ((q.Car * q.Car + q.Csr * q.Csr) / 2) * q.Te
  /-- its bound -/
  sloE : ∀ j < q.cores, x.avgE j ≤ q.SLOr

end Fajita.Solver
