import Fajita.Fifo
import Fajita.Loop
import Fajita.Roster
import Mathlib.Data.Rat.Defs
import Mathlib.Algebra.Order.Ring.Rat
import Mathlib.Algebra.Order.Group.Unbundled.Abs

/-!
# The state of a Dyssect router

One controller, `W` working cores and `E` offloading cores share the statics of
`DyssectController` (`ShardInfo`, control flags, rings) and a NIC with one
receive queue per working core. This file is the data: the configuration the
elements read, the records of `dyssectcontroller.hh` and
`dyssectworkingcore.hh`, the whole state `Sys`, and the state `init` that
`DyssectController::configure` and the working cores' `configure` build.

Conventions of the embedding:

* `rte_atomic32_t` flags only ever hold 0 and 1, and are `Bool`;
* a `DyssectState*` is the pair (shard, flow key) under which the shard's
  `table` holds the state, so `flows3`, `flows3_2` and `ordered_flows` are lists
  of keys into `table`; that the hash of a flow can be left out is right as long as
  its packets have one hash in a shard (`Fajita.Hashing`, which says what the
  tables are when they have not);
* an `rte_ring*` is a `RingId`; the contents of the rings are the field `ring`;
* `double` is any type with the operations of the class `Double`, so nothing
  proved about the control flow depends on the laws of arithmetic.

Four fields of `Sys` are history: `received`, `transmitted` and `lost` record
where buffers went, `posted` the requests sent to an offloading core since it
last drained its control rings, whether there was room for them or not. No
function reads them.
-/

namespace Fajita

/-! ## Numbers

The elements add, divide and compare `double`s. Results that depend on what these operations do say
so; the others hold for any `D`.
-/

/-- The operations the elements perform on `double`. -/
class Double (D : Type) extends Zero D, Add D, Sub D, Mul D, Div D, NatCast D, OfScientific D,
    LE D, LT D where
  /-- `fabs` -/
  abs : D → D
  /-- `EPSILON`, the `float` nearest to `1e-10` -/
  epsilon : D
  /-- `<=` is a test -/
  decLE : ∀ a b : D, Decidable (a ≤ b)
  /-- `<` is a test -/
  decLT : ∀ a b : D, Decidable (a < b)

attribute [instance, reducible] Double.decLE Double.decLT

/-- Exact rational arithmetic. -/
instance : Double ℚ where
  abs q := |q|
  epsilon := 14411519 / 144115188075855872
  decLE := inferInstance
  decLT := inferInstance

/-- `UINT32_MAX`, used as "none" for owners and offloading indices. -/
def uint32Max : ℕ := 4294967295

/-! ## Packets and flows -/

/-- The 12 bytes of a `DyssectFlow` that `EqualTo` compares. -/
structure FlowKey where
  /-- `src_port` -/
  srcPort : ℕ
  /-- `dst_port` -/
  dstPort : ℕ
  /-- `src_addr` -/
  srcAddr : ℕ
  /-- `dst_addr` -/
  dstAddr : ℕ
  deriving DecidableEq

/-- A received buffer, with the header fields the elements read. -/
structure Packet where
  /-- which `rte_mbuf` it is -/
  mbuf : ℕ
  /-- addresses and ports -/
  flow : FlowKey
  /-- `hash.rss`, the hash the NIC computed -/
  rss : ℕ
  /-- `ip_id`, in host order -/
  ipId : ℕ
  /-- `ip_len`, in host order -/
  ipLen : ℕ
  deriving DecidableEq

/-- `is_priority` -/
def isPriority (p : Packet) : Bool := p.ipId = 1

/-- `DyssectState`: what a working core knows about a flow. -/
structure DyssectState (D : Type) where
  /-- sum of the shares up to this flow, largest first -/
  cdf : D
  /-- share of the shard's bytes in the last epoch -/
  prob : D
  /-- the copy of `prob` the controller sorts by -/
  prob2 : D
  /-- whether the packet that created the flow was a priority packet -/
  priority : Bool
  /-- the epoch of the last regular packet -/
  epoch : UInt32
  /-- bytes since `epoch` began -/
  bytes : UInt64
  /-- the shard of the flow -/
  shard : ℕ
  /-- its key -/
  flow : FlowKey

/-! ## Configuration -/

/-- What the elements are configured with. The last fields hold in every router
that gets past `init_dpdk`: it divides by `W`, DPDK numbers the queues of a port
in 16 bits, the arrays `A` and `newA` are indexed by a `uint32_t`, and
`reta_conf` has 512 slots. `extract_state` divides by `total_shards`. -/
structure Cfg where
  /-- working cores -/
  W : ℕ
  /-- offloading cores -/
  E : ℕ
  /-- `total_shards` -/
  totalShards : ℕ
  /-- slots of the NIC's redirection table -/
  retaSize : ℕ
  /-- `SOLVER` of the controller -/
  solver : Bool
  /-- `SOLVER` of each working core -/
  workerSolver : ℕ → Bool
  /-- `BURST` of each working core -/
  burst : ℕ → ℕ
  /-- `BURST` of each offloading core -/
  coreBurst : ℕ → ℕ
  /-- `BURST` of the `DyssectQueueOut` on each transmit queue -/
  outBurst : ℕ → ℕ
  /-- `rte_hash_crc` of a flow key -/
  rteHashCrc : FlowKey → ℕ
  /-- there is a working core -/
  W_pos : 0 < W
  /-- the transmit queues, one per core, have 16-bit numbers -/
  cores_le : W + E ≤ 65535
  /-- there is a shard -/
  totalShards_pos : 0 < totalShards
  /-- the entries of the assignment have 32-bit indices -/
  cells_le : totalShards * (W + E) ≤ 4294967295
  /-- the redirection table has a slot -/
  retaSize_pos : 0 < retaSize
  /-- `reta_conf` covers the redirection table -/
  retaSize_le : retaSize ≤ 512

namespace Cfg

/-- `total_cores` -/
def totalCores (cfg : Cfg) : ℕ := cfg.W + cfg.E

/-- No working core has the number that means "none". -/
theorem ne_uint32Max {cfg : Cfg} {w : ℕ} (hw : w < cfg.W) : w ≠ uint32Max := by
  have := cfg.cores_le
  rw [uint32Max]
  omega

/-- `hash_value` of a packet: the RSS hash, or a CRC of the key when there is a
single receive queue. -/
def hashValue (cfg : Cfg) (p : Packet) : ℕ :=
  if cfg.W = 1 then cfg.rteHashCrc p.flow else p.rss

/-- The shard of a packet. -/
def shardOf (cfg : Cfg) (p : Packet) : ℕ := cfg.hashValue p % cfg.totalShards

theorem shardOf_lt (cfg : Cfg) (p : Packet) : cfg.shardOf p < cfg.totalShards :=
  Nat.mod_lt _ cfg.totalShards_pos

/-- `qsize` -/
def qsize : ℕ := 256

/-- The slots of `off_pkts`. -/
def offPktsSize : ℕ := 128

end Cfg

/-! ## Shared records

What several cores read and write: the shards, and the arrays that are indexed by cores.
-/

/-- `ShardInfo`. The reference counts are 0 whenever no task runs and are left
to the fine-grained model of the flow tables. -/
structure ShardInfo (D : Type) where
  /-- share of the shard that is offloaded -/
  r : D
  /-- the share the controller asks for -/
  rNew : D
  /-- measured load -/
  V : D
  /-- whether the working cores record flows in `flows3_2` -/
  use2 : Bool
  /-- bytes of the running epoch -/
  bytes : UInt32
  /-- packets of the running epoch -/
  packets : UInt32
  /-- bytes of the last epoch -/
  oldBytes : UInt32
  /-- packets of the last epoch -/
  oldPackets : UInt32
  /-- set while the shard is being handed over -/
  pause : Bool
  /-- the working core that owns the shard -/
  owner : ℕ
  /-- the working core the shard is moving to, or `UINT32_MAX` -/
  ownerNew : ℕ
  /-- the flows of the shard -/
  table : FlowKey → Option (DyssectState D)
  /-- flows seen in epochs with `use2` off -/
  flows3 : List FlowKey
  /-- flows seen in epochs with `use2` on -/
  flows3₂ : List FlowKey
  /-- the flows of the last epoch, largest share first -/
  orderedFlows : List FlowKey
  /-- packets set aside during a hand-over -/
  localQueue : Fifo Packet

/-- The rings `init_queues` creates for the working cores, by name. -/
inductive RingId where
  /-- `ring%d` -/
  | ring (i : ℕ)
  /-- `queue%d` -/
  | queue (i : ℕ)
  deriving DecidableEq

/-- The working core a ring was created for. -/
def RingId.core : RingId → ℕ
  | ring i => i
  | queue i => i

/-- The members of a `DyssectWorkingCore` that change. `off_idx` is 0 between
tasks. -/
structure Worker where
  /-- the offloading core that polls `q`, or `UINT32_MAX` -/
  offloadingIdx : ℕ
  /-- set while the core works off `myring` instead of the NIC -/
  myown : Bool
  /-- the ring towards the offloading core -/
  q : RingId
  /-- the ring the core keeps for itself -/
  myring : RingId
  deriving DecidableEq

/-- The members of a `DyssectOffloadingCore` that change. -/
structure OffCore where
  /-- the rings it polls -/
  Q : List RingId
  /-- polls so far -/
  count : UInt32

/-- `rte_eth_rss_reta_entry64`: 64 slots and a mask of the slots to change. -/
structure RetaGroup where
  /-- bit `i` set: slot `i` is to be changed -/
  mask : ℕ
  /-- the receive queue of each slot -/
  reta : ℕ → ℕ

/-- `RTE_ETH_RETA_GROUP_SIZE` -/
def retaGroupSize : ℕ := 64

/-- The state of the router. -/
structure Sys (D : Type) where
  /-- `shards` -/
  shards : ℕ → ShardInfo D
  /-- `epoch` -/
  epoch : UInt32
  /-- `had_changes`: a shard has been released to the core -/
  hadChanges : ℕ → Bool
  /-- `transfer_r`: the core is to take over `r_new` -/
  transferR : ℕ → Bool
  /-- `transfer_shard`: the core is to give shards away -/
  transferShard : ℕ → Bool
  /-- `transfer_offloading`: the core is to change its offloading core -/
  transferOffloading : ℕ → Bool
  /-- `controller_signal`: the core is to look at its flags -/
  controllerSignal : ℕ → Bool
  /-- `offloading_from_working` -/
  offloadingFromWorking : ℕ → ℕ
  /-- `new_offloading_from_working` -/
  newOffloadingFromWorking : ℕ → ℕ
  /-- `rings`: the core's own ring -/
  rings : ℕ → RingId
  /-- `queues`: the core's ring towards its offloading core -/
  queues : ℕ → RingId
  /-- `toAddQueue` -/
  toAddQueue : ℕ → Fifo RingId
  /-- `toRemoveQueue` -/
  toRemoveQueue : ℕ → Fifo RingId
  /-- the contents of the rings -/
  ring : RingId → Fifo Packet
  /-- `A[s*total_cores + w]`: shard `s` is assigned to core `w` -/
  A : ℕ → ℕ → ℕ
  /-- the assignment the solver asks for -/
  newA : ℕ → ℕ → ℕ
  /-- `O[e*total_cores + w]`: core `w` offloads to core `e` -/
  O : ℕ → ℕ → ℕ
  /-- the relation the solver asks for -/
  newO : ℕ → ℕ → ℕ
  /-- `reta_conf` -/
  retaConf : ℕ → RetaGroup
  /-- flows of the last epoch -/
  totalFlows : UInt32
  /-- bytes of the last epoch -/
  totalBytes : UInt32
  /-- packets of the last epoch -/
  totalPackets : UInt32
  /-- packets of the epoch before -/
  lastTotalpackets : UInt32
  /-- mean processing time of a regular packet -/
  Tr : D
  /-- mean processing time of a priority packet -/
  Tp : D
  /-- the working cores -/
  worker : ℕ → Worker
  /-- the offloading cores -/
  core : ℕ → OffCore
  /-- the NIC's redirection table -/
  nicReta : ℕ → ℕ
  /-- the NIC's receive queues -/
  rx : ℕ → List Packet
  /-- history: buffers handed out by `rte_eth_rx_burst` -/
  received : List Packet
  /-- history: buffers accepted by `rte_eth_tx_burst` -/
  transmitted : List Packet
  /-- history: buffers that are in no queue, were not sent and not freed -/
  lost : List Packet
  /-- history: requests sent to an offloading core since it last drained -/
  posted : ℕ → List (Request RingId)

/-- `reta_conf[k / 64].reta[k % 64] = w` -/
def setReta (conf : ℕ → RetaGroup) (k w : ℕ) : ℕ → RetaGroup :=
  Function.update conf (k / retaGroupSize)
    { conf (k / retaGroupSize) with
      reta := Function.update (conf (k / retaGroupSize)).reta (k % retaGroupSize) w }

/-- `rte_eth_dev_rss_reta_update`: the slots below `size` whose mask bit is set
are changed. -/
def rteEthDevRssRetaUpdate (conf : ℕ → RetaGroup) (size : ℕ) (nic : ℕ → ℕ) : ℕ → ℕ := fun k =>
  if k < size ∧ (conf (k / retaGroupSize)).mask.testBit (k % retaGroupSize) then
    (conf (k / retaGroupSize)).reta (k % retaGroupSize)
  else nic k

/-! ## The initial state -/

namespace Init

/-- `memset(reta_conf, 0)`, the masks, and the round-robin slots of `init_dpdk`. -/
def retaConf (cfg : Cfg) : ℕ → RetaGroup :=
  let masked := forRange cfg.retaSize
    (fun i conf => Function.update conf (i / retaGroupSize)
      { conf (i / retaGroupSize) with mask := 2 ^ 64 - 1 })
    fun _ => ⟨0, fun _ => 0⟩
  forRange cfg.totalShards
    (fun s conf => forStride cfg.retaSize cfg.totalShards s
      (fun j conf => setReta conf j (s % cfg.W)) conf) masked

/-- `A` as `init_dpdk` fills it. -/
def A (cfg : Cfg) : ℕ → ℕ → ℕ := fun s w =>
  if s < cfg.totalShards ∧ w = s % cfg.W then 1 else 0

/-- `O` as `init_dpdk` fills it. -/
def O (cfg : Cfg) : ℕ → ℕ → ℕ := fun e w =>
  if cfg.E ≠ 0 ∧ w < cfg.W ∧ e = w % cfg.E then 1 else 0

/-- `offloading_from_working` as `init_dpdk` fills it. -/
def offloadingFromWorking (cfg : Cfg) : ℕ → ℕ := fun w =>
  if w < cfg.W then if cfg.E ≠ 0 then w % cfg.E else uint32Max else 0

/-- The control rings of `init_queues`: every `queue%d` is announced to the
offloading core `i % E`. -/
def toAddQueue (cfg : Cfg) : ℕ → Fifo RingId :=
  if cfg.E ≠ 0 then
    forRange cfg.W
      (fun i add => Function.update add (i % cfg.E) ((add (i % cfg.E)).enqueue (.queue i)))
      fun _ => Fifo.empty 4095
  else fun _ => Fifo.empty 4095

/-- The requests behind `toAddQueue`. -/
def posted (cfg : Cfg) : ℕ → List (Request RingId) :=
  if cfg.E ≠ 0 then
    forRange cfg.W
      (fun i posted => Function.update posted (i % cfg.E) (posted (i % cfg.E) ++ [.add (.queue i)]))
      fun _ => []
  else fun _ => []

/-- A shard as `init_shards` leaves it: `rte_zmalloc` zeroes every field, then
`owner` is set. In particular `owner_new` is 0. -/
def shard (D : Type) [Double D] (cfg : Cfg) (s : ℕ) : ShardInfo D where
  r := 0
  rNew := 0
  V := 0
  use2 := false
  bytes := 0
  packets := 0
  oldBytes := 0
  oldPackets := 0
  pause := false
  owner := s % cfg.W
  ownerNew := 0
  table := fun _ => none
  flows3 := []
  flows3₂ := []
  orderedFlows := []
  localQueue := Fifo.empty 2047

/-- A working core as its `configure` leaves it. -/
def worker (cfg : Cfg) (w : ℕ) : Worker where
  offloadingIdx := offloadingFromWorking cfg w
  myown := false
  q := .queue w
  myring := .ring w

end Init

/-- The state after `configure` of the controller and of the cores. -/
def init (D : Type) [Double D] (cfg : Cfg) : Sys D where
  shards := Init.shard D cfg
  epoch := 0
  hadChanges := fun _ => false
  transferR := fun _ => false
  transferShard := fun _ => false
  transferOffloading := fun _ => false
  controllerSignal := fun _ => false
  offloadingFromWorking := Init.offloadingFromWorking cfg
  newOffloadingFromWorking := fun w => if w < cfg.W then uint32Max else 0
  rings := .ring
  queues := .queue
  toAddQueue := Init.toAddQueue cfg
  toRemoveQueue := fun _ => Fifo.empty 4095
  ring := fun _ => Fifo.empty 4095
  A := Init.A cfg
  newA := Init.A cfg
  O := Init.O cfg
  newO := Init.O cfg
  retaConf := Init.retaConf cfg
  totalFlows := 0
  totalBytes := 0
  totalPackets := 0
  lastTotalpackets := 0
  Tr := 1e-6
  Tp := 1e-6
  worker := Init.worker cfg
  core := fun _ => ⟨[], 0⟩
  nicReta := rteEthDevRssRetaUpdate (Init.retaConf cfg) cfg.retaSize fun _ => 0
  rx := fun _ => []
  received := []
  transmitted := []
  lost := []
  posted := Init.posted cfg

end Fajita
