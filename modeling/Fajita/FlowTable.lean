import Fajita.State

/-!
# Flow lookup and classification

`extract_state` and `run` of `DyssectWorkingCore`. A packet touches a single
shard, so `extractState` is a function on `ShardInfo`, whose tables are keyed by
flow (`Fajita.HashTables` has the tables by hash); `classify` is the
`CLASSIFY_EACH_PACKET_IGNORE` loop of `run_task`, which splits a batch into the
packets sent on to output 0 and the packets collected in `off_pkts`.

The side of a flow is decided by its `priority` bit, its `cdf` and the shard's
`r`, and none of the three is written by `extract_state` once the flow exists:
`ShardInfo.extractState_side` is the lemma the ordering results rest on.
-/

namespace Fajita

variable {D : Type} [Double D]

/-- `(fabs(a) < fabs(b) ? fabs(b) : fabs(a)) * EPSILON` -/
def tolerance (a b : D) : D :=
  (if Double.abs a < Double.abs b then Double.abs b else Double.abs a) * Double.epsilon

/-- `is_less_than` -/
def isLessThan (a b : D) : Bool := tolerance a b < b - a

/-- `is_equal_than` -/
def isEqualThan (a b : D) : Bool := Double.abs (a - b) ≤ tolerance a b

/-- `(*table)[key] = state` for a table of keys. -/
def insertKey (keys : List FlowKey) (k : FlowKey) : List FlowKey :=
  if k ∈ keys then keys else keys ++ [k]

namespace ShardInfo

/-- The branch of `extract_state` for a known flow: a regular packet of a new
epoch closes the flow's byte count, and the flow is recorded in the table of the
running epoch. -/
def touchFlow (solver : Bool) (epoch : UInt32) (p : Packet) (st : DyssectState D)
    (sh : ShardInfo D) : ShardInfo D :=
  if !isPriority p && solver then
    let st' :=
      if st.epoch ≠ epoch then
        { st with
          prob := if sh.oldBytes ≠ 0 ∧ st.epoch = epoch - 1 then
              (st.bytes.toNat : D) / (sh.oldBytes.toNat : D) else 0
          bytes := 0
          epoch := epoch }
      else st
    { sh with
      table := Function.update sh.table p.flow (some st')
      flows3₂ := if sh.use2 then insertKey sh.flows3₂ st.flow else sh.flows3₂
      flows3 := if sh.use2 then sh.flows3 else insertKey sh.flows3 st.flow }
  else sh

/-- The branch of `extract_state` for an unknown flow. -/
def createFlow (solver : Bool) (epoch : UInt32) (s : ℕ) (p : Packet) (sh : ShardInfo D) :
    ShardInfo D :=
  { sh with
    table := Function.update sh.table p.flow (some
      { cdf := 0
        prob := 0
        prob2 := 0
        priority := isPriority p
        epoch := if solver then epoch else 0
        bytes := 0
        shard := s
        flow := p.flow }) }

/-- `state->bytes += iplen`, and the counters of the shard. -/
def countPacket (solver : Bool) (p : Packet) (sh : ShardInfo D) : ShardInfo D :=
  { sh with
    table := Function.update sh.table p.flow
      ((sh.table p.flow).map fun st => { st with bytes := st.bytes + UInt64.ofNat p.ipLen })
    bytes := if solver then sh.bytes + UInt32.ofNat p.ipLen else sh.bytes
    packets := if solver then sh.packets + 1 else sh.packets }

/-- `extract_state` on the shard `s` of the packet. -/
def extractState (solver : Bool) (epoch : UInt32) (s : ℕ) (p : Packet) (sh : ShardInfo D) :
    ShardInfo D :=
  countPacket solver p <|
    match sh.table p.flow with
    | some st => touchFlow solver epoch p st sh
    | none => createFlow solver epoch s p sh

/-- Whether `run` sends packets of this flow to the offloading core. -/
def isOffloaded (sh : ShardInfo D) (k : FlowKey) : Bool :=
  match sh.table k with
  | some st => !st.priority && isLessThan st.cdf sh.r
  | none => false

end ShardInfo

/-- `shards[s]` is rewritten by `f`. -/
def updateShard (s : ℕ) (f : ShardInfo D → ShardInfo D) (shards : ℕ → ShardInfo D) :
    ℕ → ShardInfo D :=
  Function.update shards s (f (shards s))

omit [Double D] in
theorem updateShard_updateShard (s : ℕ) (f g : ShardInfo D → ShardInfo D)
    (shards : ℕ → ShardInfo D) :
    updateShard s g (updateShard s f shards) = updateShard s (fun sh => g (f sh)) shards := by
  rw [updateShard, updateShard, updateShard, Function.update_idem, Function.update_self]

/-- `extract_state` -/
def extractState (cfg : Cfg) (w : ℕ) (epoch : UInt32) (p : Packet) (shards : ℕ → ShardInfo D) :
    ℕ → ShardInfo D :=
  updateShard (cfg.shardOf p)
    (ShardInfo.extractState (cfg.workerSolver w) epoch (cfg.shardOf p) p) shards

/-- `run` over a batch: the shards afterwards, the packets for output 0 and the
packets collected in `off_pkts`. -/
def classify (cfg : Cfg) (w : ℕ) (epoch : UInt32) :
    List Packet → (ℕ → ShardInfo D) → (ℕ → ShardInfo D) × List Packet × List Packet
  | [], shards => (shards, [], [])
  | p :: ps, shards =>
    let shards := extractState cfg w epoch p shards
    let (shards', out, off) := classify cfg w epoch ps shards
    if (shards (cfg.shardOf p)).isOffloaded p.flow then (shards', out, p :: off)
    else (shards', p :: out, off)

/-- `extract_state` over a batch, as the drain of `myring` calls it. -/
def extractAll (cfg : Cfg) (w : ℕ) (epoch : UInt32) :
    List Packet → (ℕ → ShardInfo D) → (ℕ → ShardInfo D)
  | [], shards => shards
  | p :: ps, shards => extractAll cfg w epoch ps (extractState cfg w epoch p shards)

/-! ## What a packet leaves alone -/

/-- The fields of a shard that only the hand-over and the controller write. -/
structure Settings (D : Type) where
  /-- `r` -/
  r : D
  /-- `r_new` -/
  rNew : D
  /-- `pause` -/
  pause : Bool
  /-- `owner` -/
  owner : ℕ
  /-- `owner_new` -/
  ownerNew : ℕ
  /-- `local_queue` -/
  localQueue : Fifo Packet

omit [Double D] in
/-- The settings of a shard. -/
def ShardInfo.settings (sh : ShardInfo D) : Settings D :=
  ⟨sh.r, sh.rNew, sh.pause, sh.owner, sh.ownerNew, sh.localQueue⟩

/-- A lookup writes no field of the settings. -/
theorem ShardInfo.extractState_settings (solver : Bool) (epoch : UInt32) (s : ℕ) (p : Packet)
    (sh : ShardInfo D) : (sh.extractState solver epoch s p).settings = sh.settings := by
  simp only [ShardInfo.extractState]
  split
  · simp only [touchFlow]
    split <;> rfl
  · rfl

theorem extractState_settings (cfg : Cfg) (w : ℕ) (epoch : UInt32) (p : Packet)
    (shards : ℕ → ShardInfo D) (s : ℕ) :
    (extractState cfg w epoch p shards s).settings = (shards s).settings := by
  simp only [extractState, updateShard]
  by_cases hs : s = cfg.shardOf p
  · subst hs
    rw [Function.update_self, ShardInfo.extractState_settings]
  · rw [Function.update_of_ne hs]

/-- Classifying a batch writes no field of the settings. -/
theorem classify_settings (cfg : Cfg) (w : ℕ) (epoch : UInt32) :
    ∀ (ps : List Packet) (shards : ℕ → ShardInfo D) (s : ℕ),
      ((classify cfg w epoch ps shards).1 s).settings = (shards s).settings := by
  intro ps
  induction ps with
  | nil => intro shards s; rfl
  | cons p ps ih =>
    intro shards s
    have h := ih (extractState cfg w epoch p shards) s
    rw [extractState_settings] at h
    simp only [classify]
    split <;> exact h

/-- Looking up a batch writes no field of the settings. -/
theorem extractAll_settings (cfg : Cfg) (w : ℕ) (epoch : UInt32) :
    ∀ (ps : List Packet) (shards : ℕ → ShardInfo D) (s : ℕ),
      (extractAll cfg w epoch ps shards s).settings = (shards s).settings := by
  intro ps
  induction ps with
  | nil => intro shards s; rfl
  | cons p ps ih =>
    intro shards s
    rw [extractAll, ih, extractState_settings]

/-! ## The side of a flow -/

/-- The fields of a flow that decide its side. -/
def DyssectState.side (st : DyssectState D) : Bool × D := (st.priority, st.cdf)

/-- Once a flow exists, no packet changes its `priority` or its `cdf`. -/
theorem ShardInfo.extractState_side (solver : Bool) (epoch : UInt32) (s : ℕ) (p : Packet)
    (sh : ShardInfo D) {k : FlowKey} {st : DyssectState D} (hk : sh.table k = some st) :
    ∃ st', (sh.extractState solver epoch s p).table k = some st' ∧ st'.side = st.side := by
  by_cases hkp : k = p.flow
  · subst hkp
    simp only [ShardInfo.extractState, hk, countPacket, Function.update_self]
    simp only [touchFlow]
    split
    · simp only [Function.update_self, Option.map_some]
      split <;> exact ⟨_, rfl, rfl⟩
    · simp only [hk, Option.map_some]
      exact ⟨_, rfl, rfl⟩
  · have htable : (sh.extractState solver epoch s p).table k = sh.table k := by
      simp only [ShardInfo.extractState, countPacket, Function.update_of_ne hkp]
      split
      · simp only [touchFlow]
        split
        · simp only [Function.update_of_ne hkp]
        · rfl
      · simp only [createFlow, Function.update_of_ne hkp]
    exact ⟨st, by rw [htable, hk], rfl⟩

end Fajita
