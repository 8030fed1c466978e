import Fajita.Recording
import Fajita.Shares

/-!
# The shares, by hash

The share of a state is its bytes of one epoch, divided by the bytes of its shard in that epoch. The
shares that `order_shards` leaves in a shard are those of parts of a whole (`FlowTables.SubProb`) in
every run whose lookups add their bytes in time (`Timely`) and meet no second hash (`OneHash`): that
is `subProb_of_timely`.

The invariant is that of `Fajita.Shares`, of a shard by key that mirrors the tables: `Balanced`. If
no working core has its solver option on, then no flow is recorded, and there is nothing to prove.
What `Timely` asks of the number of the epoch holds as long as it does not wrap around
(`timely_of_unwrapped`).

A priority packet that comes late breaks the first condition, and its shard has more than the whole
(`Small.late_not_subProb`). What breaks the second one is a table of recorded flows that grows: then
a state that has taken the entry of another hash may get one of its own, and is listed twice.
-/

namespace Fajita

open Controller ShardInfo

variable {cfg : Cfg} {s : ℕ} {t : FlowTables ℚ} {sh : ShardInfo ℚ} {τ : FlowSys ℚ} {a : FlowAct}

/-! ## Parts of a whole

The property is that of the shard by key, read off the tables by hash. `Mirrors` carries it over.
-/

/-- The shares of the sorted flows. -/
def FlowTables.shares (t : FlowTables ℚ) : List ℚ :=
  t.orderedFlows.filterMap fun g => (t.table g).map DyssectState.prob2

/-- The shares of the sorted flows are those of parts of a whole. -/
structure FlowTables.SubProb (t : FlowTables ℚ) : Prop where
  /-- no share is negative -/
  nonneg : ∀ x ∈ t.shares, 0 ≤ x
  /-- together they are at most 1 -/
  sum_le : t.shares.sum ≤ 1
  /-- and so is every sum up to a flow -/
  cdf : ∀ g ∈ t.orderedFlows, ∀ st ∈ t.table g, 0 ≤ st.cdf ∧ st.cdf ≤ 1

/-- The tables by hash show the same shares as those by key. -/
theorem Mirrors.subProb (h : Mirrors t sh) (hsub : Fajita.SubProb sh) : t.SubProb := by
  have hsame : ∀ g ∈ t.orderedFlows, sh.table g.key = t.table g := fun g hg =>
    h.table.same g (h.listed g hg)
  have hshares : prob2s sh = t.shares := by
    rw [prob2s, h.ordered, List.filterMap_map]
    exact List.filterMap_congr fun g hg => by rw [Function.comp_apply, hsame g hg]
  refine ⟨hshares ▸ hsub.nonneg, hshares ▸ hsub.sum_le, fun g hg st hst => ?_⟩
  refine hsub.cdf g.key ?_ st ?_
  · rw [h.ordered]
    exact List.mem_map_of_mem hg
  · rw [hsame g hg]
    exact hst

/-! ## Conditions on the steps

Three things may go wrong: the byte counts of a shard wrap around, a record gets its bytes after its
epoch is over, and the number of the epoch comes round to that of an old record.
-/

/-- Some working core records flows. -/
def Records (cfg : Cfg) : Prop := ∃ w < cfg.W, cfg.workerSolver w = true

/-- The byte counts of the shards stay below 2^32. -/
def CountsFit (cfg : Cfg) (τ : FlowSys ℚ) : FlowAct → Prop
  | .lookup w p _ _ => FitsCount (cfg.workerSolver w) (τ.shards (cfg.shardOf p)).bytes p
  | .epoch _ => True

/-- A lookup adds the bytes of its packet in time to the state that it comes to. -/
def LookupInTime (cfg : Cfg) (τ : FlowSys ℚ) : FlowAct → Prop
  | .lookup w p hit _ => InTime (cfg.workerSolver w) τ.epoch
      ((τ.shards (cfg.shardOf p)).table (hit.getD (cfg.flowOf p))) p
  | .epoch _ => True

/-- No record has the number of the epoch to come. -/
def NumberUnused (cfg : Cfg) (τ : FlowSys ℚ) : FlowAct → Prop
  | .lookup _ _ _ _ => True
  | .epoch _ =>
    ∀ s < cfg.totalShards, ∀ g, ∀ st ∈ (τ.shards s).table g, st.epoch ≠ τ.epoch + 1

/-- If flows are recorded at all, then every lookup adds the bytes of its packet in time, and no
epoch begins whose number an old record has. -/
def Timely (cfg : Cfg) (τ : FlowSys ℚ) (a : FlowAct) : Prop :=
  Records cfg → LookupInTime cfg τ a ∧ NumberUnused cfg τ a

/-- The number of the epoch does not wrap around. -/
def Unwrapped (τ : FlowSys ℚ) : FlowAct → Prop
  | .lookup _ _ _ _ => True
  | .epoch _ => τ.epoch + 1 ≠ 0

/-! ## Steps

Each invariant is one of a shard by key that mirrors the tables. `Mirrors.step` says that the tables
still mirror the shard when both have taken the step, and the lemmas of `Fajita.Shares` that the
shard has kept its invariant.
-/

/-- A record by key is a record by hash. -/
theorem Mirrors.record (h : Mirrors t sh) {k : FlowKey} {st : DyssectState ℚ}
    (hst : st ∈ sh.table k) : ∃ g, st ∈ t.table g := by
  obtain ⟨g, rfl, hg⟩ := h.table.onto k (by rw [Option.mem_def.mp hst]; rfl)
  rw [h.table.same g hg] at hst
  exact ⟨g, hst⟩

/-- The flows of the epoch, sorted by key. -/
theorem Mirrors.perm {vec : List DyssectFlow} (h : Mirrors t sh) (hvec : t.Sorted vec) :
    (vec.map DyssectFlow.key).Perm sh.recording := by
  rw [← collected_swapShard]
  exact (h.sorted hvec).perm

/-- **Every timely step keeps the balance.** -/
theorem Balanced.flowStep (hs : s < cfg.totalShards) (hmirrors : Mirrors (τ.shards s) sh)
    (h : Balanced τ.epoch sh) (ha : FlowPossible cfg τ a) (hone : OneHash cfg τ a)
    (hfit : CountsFit cfg τ a) (hin : LookupInTime cfg τ a) (hfresh : NumberUnused cfg τ a) :
    Balanced (Fajita.flowStep cfg τ a).epoch (keyStep cfg s τ.epoch a sh) := by
  cases a with
  | lookup w p hit slot =>
    rw [keyStep]
    split
    · next hp =>
      subst hp
      -- the state that the lookup comes to is the one under the key of the packet
      have hget : sh.table p.flow = (τ.shards (cfg.shardOf p)).table (cfg.flowOf p) :=
        hmirrors.table.get hone
      rw [LookupInTime, (Mirrors.found ha.2.1 hone).1, ← hget] at hin
      rw [CountsFit, ← hmirrors.bytes] at hfit
      exact h.extractState hin hfit
    · exact h
  | epoch vec =>
    refine h.close (hmirrors.sorted (ha s hs)) fun k st hst => ?_
    obtain ⟨g, hg⟩ := hmirrors.record hst
    exact hfresh s hs g st hg

/-- **Without a solver option** no flow is ever recorded. -/
theorem unrecorded_flowStep (hs : s < cfg.totalShards) (hno : ¬ Records cfg)
    (hmirrors : Mirrors (τ.shards s) sh) (h : Collects [] sh ∧ sh.orderedFlows = [])
    (ha : FlowPossible cfg τ a) :
    Collects [] (keyStep cfg s τ.epoch a sh) ∧
      (keyStep cfg s τ.epoch a sh).orderedFlows = [] := by
  obtain ⟨hcollects, hordered⟩ := h
  cases a with
  | lookup w p hit slot =>
    rw [keyStep]
    split
    · have hoff : cfg.workerSolver w = false :=
        Bool.eq_false_iff.mpr fun hon => hno ⟨w, ha.1, hon⟩
      have hstep := hcollects.extractState (s := s) (cfg.workerSolver w) τ.epoch p
      rw [hoff, Bool.and_false, if_neg Bool.false_ne_true] at hstep
      rw [hoff]
      exact ⟨hstep, extractState_kept.2.2.1.trans hordered⟩
    · exact ⟨hcollects, hordered⟩
  | epoch vec =>
    have hvec := hmirrors.perm (ha s hs)
    have hempty : sh.recording = [] := List.eq_nil_iff_forall_not_mem.mpr fun k hk =>
      List.not_mem_nil ((hcollects.exact k).mp hk)
    refine ⟨hcollects.close hvec, ?_⟩
    rw [hempty] at hvec
    exact closeEpoch_tables.2.2.trans hvec.eq_nil

/-- **Before the number of the epoch wraps around** no record has one that is still to come. -/
theorem Young.flowStep (hs : s < cfg.totalShards) (hmirrors : Mirrors (τ.shards s) sh)
    (h : Young τ.epoch sh) (ha : FlowPossible cfg τ a) (hun : Unwrapped τ a) :
    Young (Fajita.flowStep cfg τ a).epoch (keyStep cfg s τ.epoch a sh) := by
  cases a with
  | lookup w p hit slot =>
    rw [keyStep]
    split
    · exact h.extractState _ p
    · exact h
  | epoch vec => exact h.close (hmirrors.perm (ha s hs)) hun

/-! ## Runs -/

/-- **Shares.** In every run whose steps are timely, and in which no lookup meets a second hash, the
shares of the sorted flows of every shard are not negative and sum up to at most 1, in every state
reached, and so every `cdf` is between 0 and 1. -/
theorem subProb_of_timely {acts : List FlowAct} (hs : s < cfg.totalShards)
    (hC : Along (flowStep cfg)
      (fun τ a => FlowPossible cfg τ a ∧ OneHash cfg τ a ∧ CountsFit cfg τ a ∧ Timely cfg τ a)
      (FlowSys.init ℚ) acts) :
    ((runFrom (flowStep cfg) (FlowSys.init ℚ) acts).shards s).SubProb := by
  by_cases hrec : Records cfg
  · obtain ⟨sh, hmirrors, h⟩ := Along.inv
      (I := fun τ => ∃ sh, Mirrors (τ.shards s) sh ∧ Balanced τ.epoch sh)
      (fun τ a ⟨sh, hmirrors, h⟩ ⟨ha, hone, hfit, htimely⟩ =>
        ⟨_, hmirrors.step hs ha hone,
          h.flowStep hs hmirrors ha hone hfit (htimely hrec).1 (htimely hrec).2⟩)
      ⟨(init ℚ cfg).shards s, Mirrors.empty, balanced_init⟩ hC
    exact hmirrors.subProb h.sub
  · obtain ⟨sh, hmirrors, h⟩ := Along.inv
      (I := fun τ => ∃ sh, Mirrors (τ.shards s) sh ∧ Collects [] sh ∧ sh.orderedFlows = [])
      (fun τ a ⟨sh, hmirrors, h⟩ ⟨ha, hone, _⟩ =>
        ⟨_, hmirrors.step hs ha hone, unrecorded_flowStep hs hrec hmirrors h ha⟩)
      ⟨(init ℚ cfg).shards s, Mirrors.empty, collects_init, rfl⟩ hC
    exact hmirrors.subProb (subProb_of_unlisted h.2)

/-- For the first 2^32 - 1 epochs only the lookups matter. -/
theorem timely_of_unwrapped {acts : List FlowAct}
    (hC : Along (flowStep cfg)
      (fun τ a => FlowPossible cfg τ a ∧ OneHash cfg τ a ∧ CountsFit cfg τ a ∧
        LookupInTime cfg τ a ∧ Unwrapped τ a) (FlowSys.init ℚ) acts) :
    Along (flowStep cfg)
      (fun τ a => FlowPossible cfg τ a ∧ OneHash cfg τ a ∧ CountsFit cfg τ a ∧ Timely cfg τ a)
      (FlowSys.init ℚ) acts := by
  refine Along.imp_inv
    (I := fun τ => ∀ s < cfg.totalShards, ∃ sh, Mirrors (τ.shards s) sh ∧ Young τ.epoch sh)
    (fun τ a h ⟨ha, hone, _, _, hun⟩ s hs => ?_)
    (fun τ a h ⟨ha, hone, hfit, hin, hun⟩ => ⟨ha, hone, hfit, fun _ => ⟨hin, ?_⟩⟩)
    (fun s _ => ⟨(init ℚ cfg).shards s, Mirrors.empty, ⟨[], collects_init⟩, nofun⟩) hC
  · obtain ⟨sh, hmirrors, hyoung⟩ := h s hs
    exact ⟨_, hmirrors.step hs ha hone, hyoung.flowStep hs hmirrors ha hun⟩
  · cases a with
    | lookup w p hit slot => trivial
    | epoch vec =>
      intro s hs g st hst
      obtain ⟨sh, hmirrors, hyoung⟩ := h s hs
      refine hyoung.fresh hun g.key st ?_
      rw [hmirrors.table.same g (by rw [Option.mem_def.mp hst]; rfl)]
      exact hst

/-! ## A late priority packet -/

instance (cfg : Cfg) (τ : FlowSys ℚ) : DecidablePred (CountsFit cfg τ)
  | .lookup _ _ _ _ => inferInstanceAs (Decidable (FitsCount _ _ _))
  | .epoch _ => isTrue trivial

instance (cfg : Cfg) (τ : FlowSys ℚ) : DecidablePred (LookupInTime cfg τ)
  | .lookup _ _ _ _ => inferInstanceAs (Decidable (InTime _ _ _ _))
  | .epoch _ => isTrue trivial

instance (τ : FlowSys ℚ) : DecidablePred (Unwrapped τ)
  | .lookup _ _ _ _ => isTrue trivial
  | .epoch _ => inferInstanceAs (Decidable (_ ≠ _))

namespace Small

/-- A priority packet of the same flow. -/
def urgent (mbuf : ℕ) : Packet := { sameFlow mbuf 0 with ipId := 1 }

/-- The flow is seen in two epochs: the first one has one packet, which makes the state, and the
second one the packets that `mid` looks up. -/
def secondEpoch (mid : List FlowAct) : List FlowAct :=
  [.lookup 0 (sameFlow 1 0) none none, closing []] ++ mid ++ [closing [flowWith 0]]

/-- In the second epoch, a priority packet and then a regular one. -/
def urgentFirst : List FlowAct :=
  [.lookup 0 (urgent 2) (some (flowWith 0)) none,
    .lookup 0 (sameFlow 3 0) (some (flowWith 0)) none]

/-- The same with the regular packet first, which is recorded then. -/
def regularFirst : List FlowAct :=
  [.lookup 0 (sameFlow 2 0) (some (flowWith 0)) none,
    .lookup 0 (urgent 3) (some (flowWith 0)) (some (flowWith 0))]

/-- **A late priority packet.** Its bytes are added to those of the epoch before, which the next
regular packet divides by what the shard counted in that epoch: the share is 2. -/
theorem late_not_subProb :
    Along (flowStep (router 1))
      (fun τ a => FlowPossible (router 1) τ a ∧ OneHash (router 1) τ a ∧ CountsFit (router 1) τ a)
      (FlowSys.init ℚ) (secondEpoch urgentFirst) ∧
    ¬ ((runFrom (flowStep (router 1)) (FlowSys.init ℚ)
      (secondEpoch urgentFirst)).shards 0).SubProb := by
  have hrun : Along (flowStep (router 1))
      (fun τ a => FlowPossible (router 1) τ a ∧ CountsFit (router 1) τ a) (FlowSys.init ℚ)
      (secondEpoch urgentFirst) := by decide +kernel
  have hone := oneHash_of_packets (hrun.imp fun _ _ h => h.1) (by decide)
  refine ⟨(hrun.and hone).imp fun _ _ ⟨⟨ha, hfit⟩, hone⟩ => ⟨ha, hone, hfit⟩, fun h => ?_⟩
  have hsum := h.sum_le
  revert hsum
  decide +kernel

/-- With the regular packet first the share is 1. -/
theorem timely_subProb :
    ((runFrom (flowStep (router 1)) (FlowSys.init ℚ)
      (secondEpoch regularFirst)).shards 0).SubProb := by
  have hrun : Along (flowStep (router 1)) (fun τ a => FlowPossible (router 1) τ a ∧
      CountsFit (router 1) τ a ∧ LookupInTime (router 1) τ a ∧ Unwrapped τ a) (FlowSys.init ℚ)
      (secondEpoch regularFirst) := by decide +kernel
  have hone := oneHash_of_packets (hrun.imp fun _ _ h => h.1) (by decide)
  exact subProb_of_timely (by decide) (timely_of_unwrapped
    ((hrun.and hone).imp fun _ _ ⟨⟨ha, hfit, hin, hun⟩, hone⟩ => ⟨ha, hone, hfit, hin, hun⟩))

end Small

end Fajita
