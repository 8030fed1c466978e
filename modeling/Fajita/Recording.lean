import Fajita.Hashing

/-!
# The recorded flows, by hash

`order_shards` is to list the states of a shard that a regular packet has found since the last
epoch. `foundSince` says which these are: a history that every such lookup is added to, and that
starts anew with every epoch (`watch`).

The list is exact (`FlowTables.Exact`) in every run in which no lookup meets a second hash
(`collection_exact`). The invariant is `Watched`: the tables are those of a shard by key which
`Collects` the history, so that the lemmas on tables by key apply (`Mirrors.exact`).

With two hashes of a flow it is not (`Small.overwritten_not_exact`).
-/

namespace Fajita

open Controller ShardInfo

/-! ## Collecting the flows -/

section

variable {D : Type} [Double D] {cfg : Cfg} {s : ℕ}

/-- A step, watched for the states that regular packets find in shard `s`; the history starts anew
with every epoch. -/
def watch (cfg : Cfg) (s : ℕ) (x : FlowSys D × List DyssectFlow) (a : FlowAct) :
    FlowSys D × List DyssectFlow :=
  (flowStep cfg x.1 a,
    match a with
    | .lookup _ p hit _ =>
      if cfg.shardOf p = s ∧ hit.isSome = true ∧ isPriority p = false then
        x.2 ++ [hit.getD (cfg.flowOf p)]
      else x.2
    | .epoch _ => [])

/-- The states that regular packets have found in shard `s` since the last epoch. -/
def foundSince (D : Type) [Double D] (cfg : Cfg) (s : ℕ) (acts : List FlowAct) :
    List DyssectFlow :=
  (runFrom (watch cfg s) (FlowSys.init D, []) acts).2

/-- Watching changes nothing. -/
theorem runFrom_watch (x : FlowSys D × List DyssectFlow) (acts : List FlowAct) :
    (runFrom (watch cfg s) x acts).1 = runFrom (flowStep cfg) x.1 acts := by
  induction acts generalizing x with
  | nil => rfl
  | cons a acts ih =>
    rw [runFrom_cons, ih, runFrom_cons]
    rfl

/-- A condition on the steps holds of the watched steps. -/
theorem along_watch {C : FlowSys D → FlowAct → Prop} {x : FlowSys D × List DyssectFlow}
    {acts : List FlowAct} (hC : Along (flowStep cfg) C x.1 acts) :
    Along (watch cfg s) (fun x => C x.1) x acts := by
  induction acts generalizing x with
  | nil => trivial
  | cons a acts ih => exact ⟨hC.1, ih hC.2⟩

/-- The tables of a shard, when regular packets have found the states `known` since the
last epoch. -/
def Watched (s : ℕ) (x : FlowSys D × List DyssectFlow) : Prop :=
  ∃ sh, Mirrors (x.1.shards s) sh ∧ Collects (x.2.map DyssectFlow.key) sh ∧
    ∀ g ∈ x.2, ((x.1.shards s).table g).isSome = true

/-- Without a second hash the flows that are watched are those that the shard by key has
collected. -/
theorem collects_watch {x : FlowSys D × List DyssectFlow} {sh : ShardInfo D} {a : FlowAct}
    (hs : s < cfg.totalShards) (hsolver : ∀ w < cfg.W, cfg.workerSolver w = true)
    (hmirrors : Mirrors (x.1.shards s) sh) (ha : FlowPossible cfg x.1 a)
    (hone : OneHash cfg x.1 a) (h : Collects (x.2.map DyssectFlow.key) sh) :
    Collects ((watch cfg s x a).2.map DyssectFlow.key) (keyStep cfg s x.1.epoch a sh) := by
  cases a with
  | lookup w p hit slot =>
    obtain ⟨hw, hhit, -⟩ := ha
    dsimp only [watch, keyStep]
    by_cases hp : cfg.shardOf p = s
    · subst hp
      obtain ⟨hfound, hsome⟩ := Mirrors.found hhit hone
      have hget := hmirrors.table.get hone
      have hfinds : sh.finds p = (hit.isSome && !isPriority p) := by
        rw [finds, hsome, ← hget]
        rfl
      have hstep := h.extractState (s := cfg.shardOf p) (cfg.workerSolver w) x.1.epoch p
      rw [hsolver w hw, Bool.and_true, hfinds] at hstep
      rw [if_pos rfl, hsolver w hw, hfound]
      by_cases hregular : hit.isSome = true ∧ isPriority p = false
      · rw [if_pos (by simp [hregular])] at hstep
        rw [if_pos ⟨rfl, hregular⟩, List.map_append]
        exact hstep
      · rw [if_neg (by simpa using hregular)] at hstep
        rw [if_neg fun h => hregular h.2]
        exact hstep
    · rw [if_neg hp, if_neg fun h => hp h.1]
      exact h
  | epoch vec =>
    have hsorted := (hmirrors.sorted (ha s hs)).perm
    rw [collected_swapShard] at hsorted
    exact h.close hsorted

/-- The flows that are watched have states. -/
theorem stored_watch {x : FlowSys D × List DyssectFlow}
    (h : ∀ g ∈ x.2, ((x.1.shards s).table g).isSome = true) (a : FlowAct) :
    ∀ g ∈ (watch cfg s x a).2, (((watch cfg s x a).1.shards s).table g).isSome = true := by
  cases a with
  | lookup w p hit slot =>
    intro g hg
    have hkept : ∀ g', g' = hit.getD (cfg.flowOf p) ∧ cfg.shardOf p = s ∨
        ((x.1.shards s).table g').isSome = true →
        (((flowStep cfg x.1 (.lookup w p hit slot)).shards s).table g').isSome = true := by
      intro g' hg'
      rw [flowStep_lookup]
      split
      · next hp => exact FlowTables.extractState_stored rfl (hg'.imp_left And.left)
      · next hp => exact hg'.resolve_left fun h => hp h.2
    dsimp only [watch] at hg ⊢
    split at hg
    · next hp =>
      rcases List.mem_append.mp hg with hg | hg
      · exact hkept g (.inr (h g hg))
      · exact hkept g (.inl ⟨List.mem_singleton.mp hg, hp.1⟩)
    · exact hkept g (.inr (h g hg))
  | epoch vec =>
    intro g hg
    cases hg

/-- **Every step keeps the tables in order**, with the solver option on and one hash a key. -/
theorem Watched.step {x : FlowSys D × List DyssectFlow} {a : FlowAct} (hs : s < cfg.totalShards)
    (hsolver : ∀ w < cfg.W, cfg.workerSolver w = true) (h : Watched s x)
    (ha : FlowPossible cfg x.1 a) (hone : OneHash cfg x.1 a) : Watched s (watch cfg s x a) := by
  obtain ⟨sh, hmirrors, hcollects, hstored⟩ := h
  exact ⟨keyStep cfg s x.1.epoch a sh, hmirrors.step hs ha hone,
    collects_watch hs hsolver hmirrors ha hone hcollects, stored_watch hstored a⟩

/-- At first no state has been found. -/
theorem watched_init (cfg : Cfg) (s : ℕ) : Watched s (FlowSys.init D, []) :=
  ⟨(init D cfg).shards s, Mirrors.empty, collects_init, nofun⟩

end

section

variable {cfg : Cfg} {s : ℕ} {t : FlowTables ℚ} {sh : ShardInfo ℚ} {known : List DyssectFlow}

/-- What an epoch leaves behind in a shard in which regular packets have found the states `known`,
in exact arithmetic. -/
structure FlowTables.Exact (known : List DyssectFlow) (t : FlowTables ℚ) : Prop where
  /-- no state is listed twice -/
  nodup : t.orderedFlows.Nodup
  /-- the listed states are those found -/
  exact : ∀ g, g ∈ t.orderedFlows ↔ g ∈ known
  /-- they are states of the shard -/
  stored : ∀ g ∈ t.orderedFlows, (t.table g).isSome = true
  /-- larger shares come first -/
  sorted : t.orderedFlows.Pairwise fun g g' =>
    ∀ st ∈ t.table g, ∀ st' ∈ t.table g', st'.prob2 ≤ st.prob2
  /-- the `cdf` of a listed state is the sum of the shares up to it -/
  cdf : ∀ i, (hi : i < t.orderedFlows.length) → ∀ st ∈ t.table t.orderedFlows[i],
    st.cdf = ((t.orderedFlows.take (i + 1)).filterMap fun g =>
      (t.table g).map DyssectState.prob2).sum
  /-- both tables are empty -/
  cleared : t.flows3 = [] ∧ t.flows3₂ = []

/-- Where the tables by key are empty, so are the tables. -/
theorem Mirrors.cleared (h : Mirrors t sh) (hflows : sh.flows3 = []) (hflows₂ : sh.flows3₂ = []) :
    t.flows3 = [] ∧ t.flows3₂ = [] := by
  have hempty : t.recording ++ t.idle = [] := by
    have hrec : sh.recording = [] := by
      rw [ShardInfo.recording, hflows, hflows₂, ite_self]
    have hidle : collected sh = [] := by
      rw [Controller.collected, hflows, hflows₂, ite_self]
    rw [h.recording, List.map_eq_nil_iff] at hrec
    rw [h.idle, List.map_eq_nil_iff] at hidle
    rw [hrec, hidle]
    rfl
  rw [List.append_eq_nil_iff, FlowTables.recording, FlowTables.idle] at hempty
  cases huse : t.use2 with
  | true =>
    rw [huse] at hempty
    exact hempty.symm
  | false =>
    rw [huse] at hempty
    exact hempty

/-- What holds of the list by key holds of the list. -/
theorem Mirrors.exact (h : Mirrors t sh) (hknown : ∀ g ∈ known, (t.table g).isSome = true)
    (hexact : CollectionExact (known.map DyssectFlow.key) sh) : t.Exact known := by
  have hsame : ∀ g ∈ t.orderedFlows, sh.table g.key = t.table g := fun g hg =>
    h.table.same g (h.listed g hg)
  have hshares : ∀ gs : List DyssectFlow, (∀ g ∈ gs, g ∈ t.orderedFlows) →
      (gs.map DyssectFlow.key).filterMap (fun k => (sh.table k).map DyssectState.prob2) =
        gs.filterMap fun g => (t.table g).map DyssectState.prob2 := by
    intro gs hgs
    rw [List.filterMap_map]
    exact List.filterMap_congr fun g hg => by rw [Function.comp_apply, hsame g (hgs g hg)]
  obtain ⟨hnodup, hlisted, -, hsorted, hcdf, hflows, hflows₂⟩ := hexact
  rw [h.ordered] at hnodup hsorted
  constructor
  · exact hnodup.of_map _
  · intro g
    by_cases hg : (t.table g).isSome = true
    · rw [← h.table.mem_map_key h.listed hg, ← h.table.mem_map_key hknown hg, ← h.ordered]
      exact hlisted g.key
    · exact ⟨fun hmem => absurd (h.listed g hmem) hg, fun hmem => absurd (hknown g hmem) hg⟩
  · exact h.listed
  · refine (List.pairwise_map.mp hsorted).imp_of_mem fun {g g'} hg hg' hle => ?_
    rw [hsame g hg, hsame g' hg'] at hle
    exact hle
  · intro i hi st hst
    have hi' : i < sh.orderedFlows.length := by
      rw [h.ordered, List.length_map]
      exact hi
    have hkey : sh.orderedFlows[i] = t.orderedFlows[i].key := by
      simp only [h.ordered, List.getElem_map]
    have hsum := hcdf i hi' st (by rw [hkey, hsame _ (List.getElem_mem hi)]; exact hst)
    rw [h.ordered, ← List.map_take, hshares _ fun g hg => List.mem_of_mem_take hg] at hsum
    exact hsum
  · exact h.cleared hflows hflows₂

/-- **Double buffering.** After every epoch of every run in which no lookup meets a second hash,
`ordered_flows` lists, without repetition and by share, exactly the states of the shard that a
regular packet has found since the epoch before, each with the sum of the shares up to it; and the
tables are empty. -/
theorem collection_exact {acts : List FlowAct} {vec : ℕ → List DyssectFlow}
    (hs : s < cfg.totalShards) (hsolver : ∀ w < cfg.W, cfg.workerSolver w = true)
    (hrun : Along (flowStep cfg) (FlowPossible cfg) (FlowSys.init ℚ) (acts ++ [.epoch vec]))
    (hone : Along (flowStep cfg) (OneHash cfg) (FlowSys.init ℚ) acts) :
    ((runFrom (flowStep cfg) (FlowSys.init ℚ) (acts ++ [.epoch vec])).shards s).Exact
      (foundSince ℚ cfg s acts) := by
  obtain ⟨hacts, hepoch, -⟩ := along_append.mp hrun
  obtain ⟨sh, hmirrors, hcollects, hstored⟩ := Along.inv (I := Watched s)
    (fun x a hx ha => hx.step hs hsolver ha.1 ha.2) (watched_init cfg s)
    (along_watch (s := s) (x := (FlowSys.init ℚ, [])) (hacts.and hone))
  rw [runFrom_watch] at hmirrors hstored
  rw [runFrom_append, runFrom_cons, runFrom_nil, flowStep_epoch, if_pos hs]
  refine (hmirrors.close (hepoch s hs)).exact (fun g hg => ?_)
    (hcollects.orders (hmirrors.sorted (hepoch s hs)))
  rw [FlowTables.close_isSome]
  exact hstored g hg

end

/-! ## A flow with two hashes

The lookups of `f` in the two tables need not come to the same: in a large table two hashes lead to
different places, in a small one to the same.
-/

namespace Small

/-- The flow of the packets below, with the given hash. -/
def flowWith (rss : ℕ) : DyssectFlow := ⟨⟨1, 2, 3, 4⟩, rss⟩

/-- A regular packet of this flow. -/
def sameFlow (mbuf rss : ℕ) : Packet := { packet mbuf rss with flow := ⟨1, 2, 3, 4⟩ }

/-- Two packets with the hash 0 and two with the hash 32, in turn: the first packet of each hash
finds no state, and the second one that of the first. In the table of recorded flows, the lookup for
the hash 32 comes to the entry of the other. -/
def twoHashes : List FlowAct :=
  [.lookup 0 (sameFlow 1 0) none none, .lookup 0 (sameFlow 2 32) none none,
    .lookup 0 (sameFlow 3 0) (some (flowWith 0)) none,
    .lookup 0 (sameFlow 4 32) (some (flowWith 32)) (some (flowWith 0))]

/-- Three packets with the hash 0: the first one makes the state, and two cores find it. -/
def oneHash : List FlowAct :=
  [.lookup 0 (sameFlow 1 0) none none, .lookup 1 (sameFlow 2 0) (some (flowWith 0)) none,
    .lookup 0 (sameFlow 3 0) (some (flowWith 0)) (some (flowWith 0))]

/-- The epoch that leaves shard 0 with the list `gs`. -/
def closing (gs : List DyssectFlow) : FlowAct := .epoch fun s => if s = 0 then gs else []

/-- **Two hashes of a shard.** The states of the hashes 0 and 32 are apart in `table`, which starts
with 2^14 buckets, but share the entry of `flows3`, which starts with 32: the second one takes the
place of the first, which is missing from the sorted flows. -/
theorem overwritten_not_exact :
    (∀ w < (router 1).W, (router 1).workerSolver w = true) ∧
    Along (flowStep (router 1)) (FlowPossible (router 1)) (FlowSys.init ℚ)
      (twoHashes ++ [closing [flowWith 32]]) ∧
    ¬ ((runFrom (flowStep (router 1)) (FlowSys.init ℚ)
      (twoHashes ++ [closing [flowWith 32]])).shards 0).Exact
        (foundSince ℚ (router 1) 0 twoHashes) := by
  refine ⟨by decide, by decide +kernel, fun h => ?_⟩
  have hlisted := (h.exact (flowWith 0)).mpr (by decide +kernel)
  revert hlisted
  decide +kernel

/-- With the hash 0 alone, the state is listed. -/
theorem oneHash_exact :
    ((runFrom (flowStep (router 1)) (FlowSys.init ℚ)
      (oneHash ++ [closing [flowWith 0]])).shards 0).Exact
        (foundSince ℚ (router 1) 0 oneHash) :=
  collection_exact (by decide) (by decide) (by decide +kernel)
    (oneHash_of_packets (by decide +kernel) (by decide))

end Small

end Fajita
