import Fajita.FlowTable

/-!
# The controller

`DyssectController::update_short_epoch` and what it calls. The solver is a
separate program: its answer is a parameter, `none` when `run_short_solver`
returns false. The order `std::sort` leaves `ordered_flows` in is a parameter
too, since the sort is not stable; `SortedFlows` says which orders it can be.
-/

namespace Fajita

variable {D : Type}

/-- A complete answer of the solver. -/
structure Answer (D : Type) where
  /-- `r_new` of every shard -/
  r : ℕ → D
  /-- the assignment of shards to working cores -/
  A : ℕ → ℕ → ℕ
  /-- the relation between working and offloading cores -/
  O : ℕ → ℕ → ℕ

namespace Controller

/-! ## Counters -/

/-- `swap_shards` -/
def swapShards (cfg : Cfg) (σ : Sys D) : Sys D :=
  let shards := forRange cfg.totalShards
    (fun s shards => Function.update shards s
      { shards s with
        use2 := !(shards s).use2
        oldBytes := (shards s).bytes
        oldPackets := (shards s).packets
        bytes := 0
        packets := 0 })
    σ.shards
  { σ with
    lastTotalpackets := σ.totalPackets
    totalBytes := forRange cfg.totalShards (fun s n => n + (shards s).oldBytes) 0
    totalPackets := forRange cfg.totalShards (fun s n => n + (shards s).oldPackets) 0
    shards := shards }

section Ratios

variable [Double D]

/-- `volume_shards`; `processingtime_r` and `processingtime_p` are a microsecond,
and `SHORT_TIME` is 100000. -/
def volumeShards (cfg : Cfg) (σ : Sys D) : Sys D :=
  if σ.lastTotalpackets = 0 then σ
  else if σ.totalPackets ≠ 0 then
    { σ with
      Tr := 1e-6
      Tp := 1e-6
      shards := forRange cfg.totalShards
        (fun s shards => Function.update shards s
          { shards s with V := ((shards s).oldPackets.toNat : D) * 1e-6 * 1e6 / (100000 : ℕ) })
        σ.shards }
  else
    { σ with
      shards := forRange cfg.totalShards
        (fun s shards => Function.update shards s { shards s with V := 0 }) σ.shards }

/-! ## Ratios -/

/-- The `prob2` of the flows in `ordered_flows`. -/
def prob2s (sh : ShardInfo D) : List D :=
  sh.orderedFlows.filterMap fun k => (sh.table k).map DyssectState.prob2

/-- The walk of `update_ratio` over `ordered_flows`; `SCALE` is 1.5. -/
def snapRatio (rNew : D) : D → List D → D
  | _, [] => rNew
  | accum, p :: ps =>
    let accum := accum + p
    if rNew ≤ accum then
      if accum < rNew * 1.5 then accum + Double.epsilon else rNew
    else snapRatio rNew accum ps

/-- `r_new` of a shard after `update_ratio`. -/
def ratioNew (sh : ShardInfo D) : D :=
  if !isEqualThan sh.rNew 0 then snapRatio sh.rNew 0 (prob2s sh) else sh.rNew

/-- The fields that the loop of `update_ratio` changes. -/
structure RatioLoop (D : Type) where
  /-- `shards` -/
  shards : ℕ → ShardInfo D
  /-- `transfer_r` -/
  transferR : ℕ → Bool
  /-- the return value -/
  changed : Bool

/-- An iteration of `update_ratio`. -/
def ratioStep (s : ℕ) (l : RatioLoop D) : RatioLoop D :=
  let shards := updateShard s (fun sh => { sh with rNew := ratioNew sh }) l.shards
  if !isEqualThan (shards s).r (shards s).rNew then
    { shards := shards
      transferR := Function.update l.transferR (shards s).owner true
      changed := true }
  else { l with shards := shards }

/-- `update_ratio` -/
def updateRatio (cfg : Cfg) (σ : Sys D) : Sys D × Bool :=
  let l := forRange cfg.totalShards ratioStep ⟨σ.shards, σ.transferR, false⟩
  ({ σ with shards := l.shards, transferR := l.transferR }, l.changed)

end Ratios

/-! ## The relation between working and offloading cores

Two loops, one around the other, look at every pair of a working and an offloading core: does the
working core gain the offloading core, does it lose it?
-/

/-- The fields that the loops of `update_relationship` change. -/
structure RelationLoop where
  /-- `new_offloading_from_working` -/
  newOffloadingFromWorking : ℕ → ℕ
  /-- `transfer_offloading` -/
  transferOffloading : ℕ → Bool
  /-- `toRemoveQueue` -/
  toRemoveQueue : ℕ → Fifo RingId
  /-- history: requests sent to each offloading core -/
  posted : ℕ → List (Request RingId)

/-- The first test of an iteration: core `w` gets the new offloading core `e`.
`offloading_from_working` is read to skip a core that is already there. -/
def relationGain (σ : Sys D) (w e : ℕ) (l : RelationLoop) : RelationLoop :=
  if σ.O e w = 0 ∧ σ.newO e w = 1 ∧ σ.offloadingFromWorking w ≠ uint32Max ∧
      σ.offloadingFromWorking w ≠ e then
    { l with
      newOffloadingFromWorking := Function.update l.newOffloadingFromWorking w e
      transferOffloading := Function.update l.transferOffloading w true }
  else l

/-- The second test of an iteration: core `w` leaves the offloading core `e`. -/
def relationLose (σ : Sys D) (w e : ℕ) (l : RelationLoop) : RelationLoop :=
  if σ.O e w = 1 ∧ σ.newO e w = 0 then
    { l with
      toRemoveQueue := Function.update l.toRemoveQueue e ((l.toRemoveQueue e).enqueue (σ.queues w))
      posted := Function.update l.posted e (l.posted e ++ [.remove (σ.queues w)]) }
  else l

/-- `memcmp(newO, O) == 0` -/
def sameRelation (cfg : Cfg) (σ : Sys D) : Bool :=
  ∀ e < cfg.totalCores, ∀ w < cfg.totalCores, σ.newO e w = σ.O e w

/-- `update_relationship` -/
def updateRelationship (cfg : Cfg) (σ : Sys D) : Sys D × Bool :=
  if sameRelation cfg σ then (σ, false)
  else
    let l := forRange cfg.totalCores
      (fun w => forRange cfg.totalCores fun e l => relationLose σ w e (relationGain σ w e l))
      ⟨σ.newOffloadingFromWorking, σ.transferOffloading, σ.toRemoveQueue, σ.posted⟩
    ({ σ with
        newOffloadingFromWorking := l.newOffloadingFromWorking
        transferOffloading := l.transferOffloading
        toRemoveQueue := l.toRemoveQueue
        posted := l.posted
        O := σ.newO }, true)

/-! ## The assignment of shards

`migration_shard` is called in two passes: one pauses the shards that have changed, the other, after
the NIC has been told, raises the flags of the cores that give them away.
-/

/-- The fields that `migration_shard` changes. -/
structure Migration (D : Type) where
  /-- `shards` -/
  shards : ℕ → ShardInfo D
  /-- `transfer_shard` -/
  transferShard : ℕ → Bool

/-- `migration_shard` -/
def migrationShard (s w : ℕ) (sendSignal : Bool) (m : Migration D) : Migration D :=
  if (m.shards s).owner = w then m
  else if !sendSignal then
    { m with shards := updateShard s (fun sh => { sh with ownerNew := w, pause := true }) m.shards }
  else { m with transferShard := Function.update m.transferShard (m.shards s).owner true }

/-- A pass of `update_shards` over the entries of the assignment that are new. -/
def migrationPass (cfg : Cfg) (A newA : ℕ → ℕ → ℕ) (sendSignal : Bool) (m : Migration D) :
    Migration D :=
  forRange cfg.totalShards
    (fun s => forRange cfg.totalCores fun w m =>
      if newA s w = 1 ∧ A s w = 0 then migrationShard s w sendSignal m else m) m

/-- The counter and the table that `update_reta` builds. -/
structure RetaLoop where
  /-- `transfers` -/
  transfers : ℕ
  /-- `reta_conf` -/
  conf : ℕ → RetaGroup

/-- An iteration of the loops of `update_reta`. -/
def retaStep (cfg : Cfg) (A newA : ℕ → ℕ → ℕ) (s w : ℕ) (l : RetaLoop) : RetaLoop :=
  if cfg.W ≤ w then l
  else
    { transfers := if A s w ≠ newA s w then l.transfers + 1 else l.transfers
      conf := if newA s w = 1 then
          forStride cfg.retaSize cfg.totalShards s (fun k conf => setReta conf k w) l.conf
        else l.conf }

/-- `update_reta` -/
def updateReta (cfg : Cfg) (σ : Sys D) : Sys D :=
  let l := forRange cfg.totalShards
    (fun s => forRange cfg.totalCores (retaStep cfg σ.A σ.newA s)) ⟨0, σ.retaConf⟩
  { σ with
    retaConf := l.conf
    nicReta := if l.transfers / 2 ≠ 0 then
        rteEthDevRssRetaUpdate l.conf cfg.retaSize σ.nicReta else σ.nicReta }

/-- `memcmp(A, newA) == 0` -/
def sameAssignment (cfg : Cfg) (σ : Sys D) : Bool :=
  ∀ s < cfg.totalShards, ∀ w < cfg.totalCores, σ.A s w = σ.newA s w

/-- `update_shards` -/
def updateShards (cfg : Cfg) (σ : Sys D) : Sys D × Bool :=
  if sameAssignment cfg σ then (σ, false)
  else
    let m := migrationPass cfg σ.A σ.newA false ⟨σ.shards, σ.transferShard⟩
    let σ := updateReta cfg { σ with shards := m.shards }
    let m := migrationPass cfg σ.A σ.newA true ⟨σ.shards, σ.transferShard⟩
    ({ σ with transferShard := m.transferShard, A := σ.newA }, true)

/-! ## Flow statistics

The flows of the last epoch are collected and sorted, and get their shares. The sorted list comes in
with the step, as `vec`.
-/

/-- The flows `order_shards` collects: those of the table the working cores do
not record in. -/
def collected (sh : ShardInfo D) : List FlowKey := if sh.use2 then sh.flows3 else sh.flows3₂

/-- `clear_flows` -/
def clearFlows (cfg : Cfg) (σ : Sys D) : Sys D :=
  { σ with
    shards := forRange cfg.totalShards
      (fun s shards => Function.update shards s
        (if (shards s).use2 then { shards s with flows3 := [] }
        else { shards s with flows3₂ := [] }))
      σ.shards }

/-- What `run_short_solver` stores on success. -/
def runShortSolver (cfg : Cfg) (ans : Answer D) (σ : Sys D) : Sys D :=
  { σ with
    shards := forRange cfg.totalShards
      (fun s shards => Function.update shards s { shards s with rNew := ans.r s }) σ.shards
    newA := ans.A
    newO := ans.O }

/-- The signal that ends the solver branch of `update_short_epoch`. -/
def sendSignals (cfg : Cfg) (σ : Sys D) : Sys D :=
  { σ with
    controllerSignal := forRange cfg.W (fun i sig => Function.update sig i true)
      σ.controllerSignal }

variable [Double D]

/-! ### Sorting

`order_shards` goes over the entries of a table, copies the share of each flow and puts the flow at
the end of `ordered_flows`, which it has cleared; then it sorts the vector, and last it sums up the
shares. The loops are the same whatever a table is keyed by, so that is left open here. Only
`std::sort` is a parameter: `vec` is what it leaves.
-/

/-- `sortByVal` -/
def sortByVal (a b : DyssectState D) : Bool := b.prob2 < a.prob2

section

variable {K : Type} [DecidableEq K]

/-- The vector and the states that the first loop of `order_shards` changes. -/
structure OrderLoop (K D : Type) where
  /-- `vec` -/
  vec : List K
  /-- the states -/
  table : K → Option (DyssectState D)

/-- An iteration of the loop: `prob2 = prob`, and `push_back`. -/
def pushFlow (l : OrderLoop K D) (k : K) : OrderLoop K D where
  vec := l.vec ++ [k]
  table := Function.update l.table k ((l.table k).map fun st => { st with prob2 := st.prob })

/-- `vec->clear()` and the loop over the flows of `pflow`. The order in which a `dense_hash_map` is
gone over does not matter, as the vector is sorted afterwards. -/
def pushFlows (keys : List K) (table : K → Option (DyssectState D)) : OrderLoop K D :=
  keys.foldl pushFlow ⟨[], table⟩

/-- The orders `std::sort` can leave the vector in: a permutation in which no flow stands behind one
that it goes before. -/
def SortedBy (l : OrderLoop K D) (vec : List K) : Prop :=
  vec.Perm l.vec ∧
    vec.Pairwise fun k k' => ∀ st ∈ l.table k, ∀ st' ∈ l.table k', sortByVal st' st = false

/-- `accum += prob2; cdf = accum` along `ordered_flows`. -/
def assignCdf : D → List K → (K → Option (DyssectState D)) → (K → Option (DyssectState D))
  | _, [], table => table
  | accum, k :: ks, table =>
    match table k with
    | none => assignCdf accum ks table
    | some st =>
      let accum := accum + st.prob2
      assignCdf accum ks (Function.update table k (some { st with cdf := accum }))

end

/-- `order_shards` on a shard, when `std::sort` leaves the flows in the order `vec`. -/
def orderShard (vec : List FlowKey) (sh : ShardInfo D) : ShardInfo D :=
  { sh with
    orderedFlows := vec
    table := assignCdf 0 vec (pushFlows (collected sh) sh.table).table }

/-- `order_shards` -/
def orderShards (cfg : Cfg) (vec : ℕ → List FlowKey) (σ : Sys D) : Sys D :=
  { σ with
    totalFlows := forRange cfg.totalShards
      (fun s n => n + UInt32.ofNat (collected (σ.shards s)).length) 0
    shards := forRange cfg.totalShards
      (fun s shards => Function.update shards s (orderShard (vec s) (shards s))) σ.shards }

/-- The orders `std::sort` can leave a shard's flows in. -/
def SortedFlows (sh : ShardInfo D) (vec : List FlowKey) : Prop :=
  SortedBy (pushFlows (collected sh) sh.table) vec

/-! ### What the loop over the flows leaves -/

section

variable {K : Type} [DecidableEq K]

/-- `prob2 = prob` for the flows of the list. -/
def copyProb (keys : List K) (table : K → Option (DyssectState D)) :
    K → Option (DyssectState D) := fun k =>
  if k ∈ keys then (table k).map fun st => { st with prob2 := st.prob } else table k

omit [Double D] in
/-- The loop, from any iteration on. -/
theorem foldl_pushFlow (keys : List K) (l : OrderLoop K D) :
    keys.foldl pushFlow l = ⟨l.vec ++ keys, copyProb keys l.table⟩ := by
  induction keys generalizing l with
  | nil =>
    rw [List.foldl_nil, List.append_nil]
    rfl
  | cons k keys ih =>
    rw [List.foldl_cons, ih, pushFlow, List.append_assoc]
    congr 1
    funext k'
    by_cases hk : k' = k
    · -- a flow that comes again gets the same copy again
      subst hk
      simp only [copyProb, Function.update_self, List.mem_cons_self, if_true, Option.map_map]
      split <;> rfl
    · simp [copyProb, hk]

omit [Double D] in
/-- **The loop** puts the flows into the vector, and each gets a copy of its share. -/
theorem pushFlows_eq (keys : List K) (table : K → Option (DyssectState D)) :
    pushFlows keys table = ⟨keys, copyProb keys table⟩ :=
  foldl_pushFlow keys ⟨[], table⟩

/-- `order_shards` on a shard, with the first loop carried out. -/
theorem orderShard_eq (vec : List FlowKey) (sh : ShardInfo D) :
    orderShard vec sh =
      { sh with
        orderedFlows := vec
        table := assignCdf 0 vec (copyProb (collected sh) sh.table) } := by
  rw [orderShard, pushFlows_eq]

omit [Double D] in
/-- Copying makes no state. -/
theorem copyProb_isSome (keys : List K) (table : K → Option (DyssectState D)) (k : K) :
    (copyProb keys table k).isSome = (table k).isSome := by
  rw [copyProb]
  split
  · exact Option.isSome_map
  · rfl

/-- Summing up makes no state. -/
theorem assignCdf_isSome (accum : D) (vec : List K) (table : K → Option (DyssectState D)) (k : K) :
    (assignCdf accum vec table k).isSome = (table k).isSome := by
  induction vec generalizing accum table with
  | nil => rfl
  | cons k' vec ih =>
    rw [assignCdf]
    cases hst : table k' with
    | none => exact ih accum table
    | some st =>
      dsimp only
      rw [ih]
      by_cases hk : k = k'
      · rw [hk, Function.update_self, hst]
        rfl
      · rw [Function.update_of_ne hk]

/-- The sorted vector holds the flows of the table. -/
theorem SortedBy.perm {keys vec : List K} {table : K → Option (DyssectState D)}
    (h : SortedBy (pushFlows keys table) vec) : vec.Perm keys := by
  rw [pushFlows_eq] at h
  exact h.1

/-- No flow has a larger share than one before it. -/
theorem SortedBy.sorted {keys vec : List K} {table : K → Option (DyssectState D)}
    (h : SortedBy (pushFlows keys table) vec) :
    vec.Pairwise fun k k' => ∀ st ∈ table k, ∀ st' ∈ table k', ¬ st.prob < st'.prob := by
  have hperm := h.perm
  rw [pushFlows_eq] at h
  refine h.2.imp_of_mem fun {k k'} hk hk' hle st hst st' hst' => ?_
  have hcopy : ∀ {k : K} {st : DyssectState D}, k ∈ vec → st ∈ table k →
      { st with prob2 := st.prob } ∈ copyProb keys table k := by
    intro k st hk hst
    rw [copyProb, if_pos (hperm.subset hk), Option.mem_def.mp hst]
    rfl
  exact of_decide_eq_false (hle _ (hcopy hk hst) _ (hcopy hk' hst'))

end

/-! ## The epoch

The order of these calls is the order of the source: the answer is applied before the number of the
epoch goes up and the flows are sorted.
-/

/-- The solver branch of `update_short_epoch`, for an answer of the solver. -/
def applyAnswer (cfg : Cfg) (ans : Answer D) (σ : Sys D) : Sys D :=
  let σ := runShortSolver cfg ans σ
  let r := updateRatio cfg σ
  let o := updateRelationship cfg r.1
  let a := updateShards cfg o.1
  if r.2 || o.2 || a.2 then sendSignals cfg a.1 else a.1

/-- `update_short_epoch` -/
def updateShortEpoch (cfg : Cfg) (ans : Option (Answer D)) (vec : ℕ → List FlowKey) (σ : Sys D) :
    Sys D :=
  let σ := volumeShards cfg (swapShards cfg σ)
  let σ :=
    match ans with
    | some ans => if cfg.solver then applyAnswer cfg ans σ else σ
    | none => σ
  clearFlows cfg (orderShards cfg vec { σ with epoch := σ.epoch + 1 })

end Controller

end Fajita
