import Fajita.HashMap
import Fajita.Lookups

/-!
# The tables of a shard, by hash

`table`, `flows3` and `flows3_2` of a shard are `dense_hash_map`s. Their keys are whole
`DyssectFlow`s: `Hash` is the field `hash_value`, and `EqualTo` compares the 12 bytes before it. The
hash is the one that the NIC has computed, and the NIC computes it over the addresses alone for
fragments, and for anything that is neither UDP nor TCP. So a packet can have the 12 bytes of
another one and a different hash, in the same shard; then equal keys have different hashes, and it
depends on the size of a table whether it takes them for one.

In the rest of the development a table is keyed by the 12 bytes. Here it is keyed by the
`DyssectFlow`, and what each lookup comes to is part of the label, as far as `Finds` allows it. A
`DyssectState*` is the `DyssectFlow` that the state has been made for, which is its field `flow`. A
run is any sequence of lookups, by any working cores, and of epochs, whatever else the router does
in between.
-/

namespace Fajita

variable {D : Type}

/-! ## Data -/

/-- `DyssectFlow` -/
structure DyssectFlow where
  /-- the 12 bytes that `EqualTo` compares -/
  key : FlowKey
  /-- `hash_value`, which is the result of `Hash` -/
  hashValue : ℕ
  deriving DecidableEq

/-- `EqualTo` -/
def DyssectFlow.EqualTo (f g : DyssectFlow) : Prop := f.key = g.key

instance : DecidableRel DyssectFlow.EqualTo := fun f g =>
  inferInstanceAs (Decidable (f.key = g.key))

/-- The `DyssectFlow` that `extract_state` builds for a packet. -/
def Cfg.flowOf (cfg : Cfg) (p : Packet) : DyssectFlow := ⟨p.flow, cfg.hashValue p⟩

/-- The part of a `ShardInfo` that lookups and `order_shards` work on. -/
structure FlowTables (D : Type) where
  /-- whether the working cores record flows in `flows3_2` -/
  use2 : Bool
  /-- bytes of the running epoch -/
  bytes : UInt32
  /-- packets of the running epoch -/
  packets : UInt32
  /-- bytes of the last epoch -/
  oldBytes : UInt32
  /-- packets of the last epoch -/
  oldPackets : UInt32
  /-- the states, by the flow they have been made for -/
  table : DyssectFlow → Option (DyssectState D)
  /-- the entries for epochs with `use2` off: a key, and whose state it leads to -/
  flows3 : List (DyssectFlow × DyssectFlow)
  /-- the entries for epochs with `use2` on -/
  flows3₂ : List (DyssectFlow × DyssectFlow)
  /-- the flows of the last epoch, largest share first -/
  orderedFlows : List DyssectFlow

namespace FlowTables

/-- As `init_shards` leaves them. -/
def empty (D : Type) : FlowTables D where
  use2 := false
  bytes := 0
  packets := 0
  oldBytes := 0
  oldPackets := 0
  table := fun _ => none
  flows3 := []
  flows3₂ := []
  orderedFlows := []

/-- The entries that the working cores record flows in. -/
def recording (t : FlowTables D) : List (DyssectFlow × DyssectFlow) :=
  if t.use2 then t.flows3₂ else t.flows3

/-- The entries that the controller goes over. -/
def idle (t : FlowTables D) : List (DyssectFlow × DyssectFlow) :=
  if t.use2 then t.flows3 else t.flows3₂

/-! ## Lookups -/

section

variable [Double D] (solver : Bool) (epoch : UInt32)

/-- The branch of `extract_state` for a known state, that of `g`; `slot` is what
`operator[](state->flow)` comes to. -/
def touchFlow (p : Packet) (g : DyssectFlow) (slot : Option DyssectFlow) (st : DyssectState D)
    (t : FlowTables D) : FlowTables D :=
  if !isPriority p && solver then
    { t with
      table := Function.update t.table g (some (ShardInfo.rollover epoch t.oldBytes st))
      flows3₂ := if t.use2 then setEntry slot g g t.flows3₂ else t.flows3₂
      flows3 := if t.use2 then t.flows3 else setEntry slot g g t.flows3 }
  else t

/-- The branch of `extract_state` for an unknown flow. -/
def createFlow (s : ℕ) (p : Packet) (g : DyssectFlow) (t : FlowTables D) : FlowTables D :=
  { t with
    table := Function.update t.table g (some
      { cdf := 0
        prob := 0
        prob2 := 0
        priority := isPriority p
        epoch := if solver then epoch else 0
        bytes := 0
        shard := s
        flow := g.key }) }

/-- `state->bytes += iplen`, and the counters of the shard. -/
def countPacket (p : Packet) (g : DyssectFlow) (t : FlowTables D) : FlowTables D :=
  { t with
    table := Function.update t.table g
      ((t.table g).map fun st => { st with bytes := st.bytes + UInt64.ofNat p.ipLen })
    bytes := if solver then t.bytes + UInt32.ofNat p.ipLen else t.bytes
    packets := if solver then t.packets + 1 else t.packets }

/-- `extract_state` on the shard `s` of a packet of flow `f`, where `find` comes to `hit`. -/
def extractState (s : ℕ) (f : DyssectFlow) (p : Packet) (hit slot : Option DyssectFlow)
    (t : FlowTables D) : FlowTables D :=
  let g := hit.getD f
  countPacket solver p g <|
    match t.table g with
    | some st => touchFlow solver epoch p g slot st t
    | none => createFlow solver epoch s p g t

end

/-! ## Epochs -/

/-- `swap_shards` on a shard. -/
def swap (t : FlowTables D) : FlowTables D :=
  { t with
    use2 := !t.use2
    oldBytes := t.bytes
    oldPackets := t.packets
    bytes := 0
    packets := 0 }

/-- The states that the loop of `order_shards` goes over. -/
def collected (t : FlowTables D) : List DyssectFlow := t.idle.map Prod.snd

/-- `clear_flows` on a shard. -/
def clear (t : FlowTables D) : FlowTables D :=
  if t.use2 then { t with flows3 := [] } else { t with flows3₂ := [] }

variable [Double D]

/-- `order_shards` on a shard, when `std::sort` leaves the flows in the order `vec`. -/
def order (vec : List DyssectFlow) (t : FlowTables D) : FlowTables D :=
  { t with
    orderedFlows := vec
    table := Controller.assignCdf 0 vec (Controller.pushFlows t.collected t.table).table }

/-- What an epoch does to the tables of a shard. -/
def close (vec : List DyssectFlow) (t : FlowTables D) : FlowTables D := (t.swap.order vec).clear

/-- The orders `std::sort` can leave the flows in at the end of the running epoch. -/
def Sorted (t : FlowTables D) (vec : List DyssectFlow) : Prop :=
  Controller.SortedBy (Controller.pushFlows t.swap.collected t.swap.table) vec

instance (t : FlowTables D) (vec : List DyssectFlow) : Decidable (t.Sorted vec) :=
  inferInstanceAs (Decidable (_ ∧ _))

end FlowTables

/-! ## Runs -/

/-- The tables of all shards, and `epoch`. -/
structure FlowSys (D : Type) where
  /-- the tables -/
  shards : ℕ → FlowTables D
  /-- `epoch` -/
  epoch : UInt32

/-- At first. -/
def FlowSys.init (D : Type) : FlowSys D := ⟨fun _ => FlowTables.empty D, 0⟩

/-- What happens to the tables. -/
inductive FlowAct
  /-- working core `w` calls `extract_state` on a packet; `find` comes to `hit`, and
  `operator[](state->flow)` to `slot` -/
  | lookup (w : ℕ) (p : Packet) (hit slot : Option DyssectFlow)
  /-- the controller closes an epoch, and leaves the flows in the order `vec` -/
  | epoch (vec : ℕ → List DyssectFlow)

section

variable [Double D]

/-- A step. The loops of an epoch take one shard after the other. -/
def flowStep (cfg : Cfg) (τ : FlowSys D) : FlowAct → FlowSys D
  | .lookup w p hit slot =>
    { τ with
      shards := Function.update τ.shards (cfg.shardOf p)
        ((τ.shards (cfg.shardOf p)).extractState (cfg.workerSolver w) τ.epoch (cfg.shardOf p)
          (cfg.flowOf p) p hit slot) }
  | .epoch vec =>
    { shards := forRange cfg.totalShards
        (fun s shards => Function.update shards s ((shards s).close (vec s))) τ.shards
      epoch := τ.epoch + 1 }

/-- The labels that are possible: the lookups come to what `dense_hash_map` allows, and the flows
are left in an order a sort can leave them in. -/
def FlowPossible (cfg : Cfg) (τ : FlowSys D) : FlowAct → Prop
  | .lookup w p hit slot => w < cfg.W ∧
      Finds DyssectFlow.EqualTo (fun g => ((τ.shards (cfg.shardOf p)).table g).isSome = true)
        (cfg.flowOf p) hit ∧
      Finds DyssectFlow.EqualTo (· ∈ (τ.shards (cfg.shardOf p)).recording.map Prod.fst)
        (hit.getD (cfg.flowOf p)) slot
  | .epoch vec => ∀ s < cfg.totalShards, (τ.shards s).Sorted (vec s)

instance (cfg : Cfg) (τ : FlowSys D) : DecidablePred (FlowPossible cfg τ)
  | .lookup _ _ _ _ => inferInstanceAs (Decidable (_ ∧ Finds _ _ _ _ ∧ Finds _ _ _ _))
  | .epoch _ => inferInstanceAs (Decidable (∀ s < cfg.totalShards, FlowTables.Sorted _ _))

/-- **One hash**: no lookup meets a state that has been made for the same 12 bytes with another
hash. -/
def OneHash (cfg : Cfg) (τ : FlowSys D) : FlowAct → Prop
  | .lookup _ p _ _ =>
    Alone DyssectFlow.EqualTo (fun g => ((τ.shards (cfg.shardOf p)).table g).isSome = true)
      (cfg.flowOf p)
  | .epoch _ => True

end

end Fajita
