import Fajita.Sides
import Mathlib.Algebra.BigOperators.Group.Finset.Piecewise
import Mathlib.Algebra.Order.BigOperators.Group.Finset

/-!
# The statistics of a shard

Lookups, the traffic counters, the tables of recorded flows and the sorted flows form
a part of a shard of its own, its `book`. This file says once what each step of the
router does to it, whatever else the step does:

* a task looks up the packets `extract_state` is called on, one after the other
  (`runTask_book`);
* an epoch closes the book (`closeEpoch`, `updateShortEpoch_book`);
* nothing else touches it (`step_book`).
-/

namespace Fajita

variable {D : Type} [Double D] {cfg : Cfg} {σ : Sys D} {w s : ℕ}

/-! ## The book of a shard

The table, the counters and the list of flows: everything a lookup writes. Who owns the shard and
who is to get it is in no book, so that hand-overs can be left out of what follows.
-/

namespace ShardInfo

/-- A shard without the fields that lookups neither read nor write. -/
def book (sh : ShardInfo D) : ShardInfo D :=
  { sh with
    r := 0, rNew := 0, V := 0
    pause := false, owner := 0, ownerNew := 0
    localQueue := Fifo.empty 0 }

@[simp] theorem book_book (sh : ShardInfo D) : sh.book.book = sh.book := rfl

/-- What the book of a shard shows. -/
theorem book_fields {sh sh' : ShardInfo D} (h : sh.book = sh'.book) :
    sh.table = sh'.table ∧ sh.use2 = sh'.use2 ∧ sh.bytes = sh'.bytes ∧
      sh.packets = sh'.packets ∧ sh.oldBytes = sh'.oldBytes ∧ sh.flows3 = sh'.flows3 ∧
      sh.flows3₂ = sh'.flows3₂ ∧ sh.orderedFlows = sh'.orderedFlows := by
  simp only [book, ShardInfo.mk.injEq, true_and, and_true] at h
  obtain ⟨huse, hbytes, hpackets, hold, -, htable, hflows, hflows₂, hordered⟩ := h
  exact ⟨htable, huse, hbytes, hpackets, hold, hflows, hflows₂, hordered⟩

/-- A lookup does to the book what it does to the shard. -/
theorem extractState_book (solver : Bool) (epoch : UInt32) (p : Packet) (sh : ShardInfo D) :
    (sh.extractState solver epoch s p).book = (sh.book.extractState solver epoch s p).book := by
  have htable : sh.book.table = sh.table := rfl
  simp only [extractState]
  rw [htable]
  cases sh.table p.flow with
  | some st =>
    dsimp only [touchFlow]
    split <;> rfl
  | none => rfl

/-- Look up packets of the shard, one after the other. -/
def lookups (solver : Bool) (epoch : UInt32) (s : ℕ) (ps : List Packet) (sh : ShardInfo D) :
    ShardInfo D :=
  ps.foldl (fun sh p => sh.extractState solver epoch s p) sh

@[simp] theorem lookups_nil (solver : Bool) (epoch : UInt32) (sh : ShardInfo D) :
    sh.lookups solver epoch s [] = sh := rfl

@[simp] theorem lookups_cons (solver : Bool) (epoch : UInt32) (p : Packet) (ps : List Packet)
    (sh : ShardInfo D) : sh.lookups solver epoch s (p :: ps) =
      (sh.extractState solver epoch s p).lookups solver epoch s ps := rfl

/-- Lookups see nothing of a shard but its book. -/
theorem lookups_book {solver : Bool} {epoch : UInt32} {ps : List Packet} {sh sh' : ShardInfo D}
    (h : sh.book = sh'.book) :
    (sh.lookups solver epoch s ps).book = (sh'.lookups solver epoch s ps).book := by
  induction ps generalizing sh sh' with
  | nil => exact h
  | cons p ps ih =>
    refine ih ?_
    rw [extractState_book, h, ← extractState_book]

/-! ## A lookup -/

/-- A regular packet of a new epoch closes the byte count of its flow. -/
def rollover (epoch oldBytes : UInt32) (st : DyssectState D) : DyssectState D :=
  if st.epoch ≠ epoch then
    { st with
      prob := if oldBytes ≠ 0 ∧ st.epoch = epoch - 1 then
          (st.bytes.toNat : D) / (oldBytes.toNat : D) else 0
      bytes := 0
      epoch := epoch }
  else st

/-- The record `extract_state` finds or makes, before it adds the bytes of the packet. -/
def entry (solver : Bool) (epoch : UInt32) (s : ℕ) (p : Packet) (sh : ShardInfo D) :
    DyssectState D :=
  match sh.table p.flow with
  | some st => if !isPriority p && solver then rollover epoch sh.oldBytes st else st
  | none =>
    { cdf := 0
      prob := 0
      prob2 := 0
      priority := isPriority p
      epoch := if solver then epoch else 0
      bytes := 0
      shard := s
      flow := p.flow }

/-- The table the working cores record flows in. -/
def recording (sh : ShardInfo D) : List FlowKey := if sh.use2 then sh.flows3₂ else sh.flows3

/-- The flow is known, and the packet is a regular one. -/
def finds (p : Packet) (sh : ShardInfo D) : Bool := (sh.table p.flow).isSome && !isPriority p

section

variable {solver : Bool} {epoch : UInt32} {p : Packet} {sh : ShardInfo D}

/-- **What a lookup does to the table**: the entry of the packet's flow is there and has
its bytes. -/
theorem extractState_table : (sh.extractState solver epoch s p).table =
    Function.update sh.table p.flow (some { sh.entry solver epoch s p with
      bytes := (sh.entry solver epoch s p).bytes + UInt64.ofNat p.ipLen }) := by
  simp only [extractState, entry, countPacket]
  cases hst : sh.table p.flow with
  | none => simp only [createFlow, Function.update_self, Option.map_some, Function.update_idem]
  | some st =>
    dsimp only [touchFlow]
    split
    · simp only [Function.update_self, Option.map_some, Function.update_idem]
      rfl
    · rw [hst, Option.map_some]

/-- The table after a lookup holds the record of the packet's flow and the old ones. -/
theorem extractState_entries {k : FlowKey} {st : DyssectState D}
    (hst : st ∈ (sh.extractState solver epoch s p).table k) :
    (k = p.flow ∧ st = { sh.entry solver epoch s p with
      bytes := (sh.entry solver epoch s p).bytes + UInt64.ofNat p.ipLen }) ∨
      (k ≠ p.flow ∧ st ∈ sh.table k) := by
  rw [extractState_table, Option.mem_def] at hst
  by_cases hkp : k = p.flow
  · subst hkp
    rw [Function.update_self] at hst
    exact Or.inl ⟨rfl, (Option.some.inj hst).symm⟩
  · rw [Function.update_of_ne hkp] at hst
    exact Or.inr ⟨hkp, hst⟩

/-- A lookup removes no flow, and afterwards its own flow is stored. -/
theorem extractState_stored {k : FlowKey} (h : k = p.flow ∨ (sh.table k).isSome = true) :
    ((sh.extractState solver epoch s p).table k).isSome = true := by
  rw [extractState_table]
  by_cases hkp : k = p.flow
  · rw [hkp, Function.update_self]
    rfl
  · rw [Function.update_of_ne hkp]
    exact h.resolve_left hkp

/-- Only the lookups of a solver count for the shard. -/
theorem extractState_counters :
    (sh.extractState solver epoch s p).bytes =
        (if solver then sh.bytes + UInt32.ofNat p.ipLen else sh.bytes) ∧
      (sh.extractState solver epoch s p).packets =
        (if solver then sh.packets + 1 else sh.packets) := by
  simp only [extractState, countPacket]
  cases sh.table p.flow with
  | none => exact ⟨rfl, rfl⟩
  | some st =>
    have htouch : (touchFlow solver epoch p st sh).bytes = sh.bytes ∧
        (touchFlow solver epoch p st sh).packets = sh.packets := by
      simp only [touchFlow]
      split <;> exact ⟨rfl, rfl⟩
    dsimp only
    rw [htouch.1, htouch.2]
    exact ⟨rfl, rfl⟩

/-- The fields that lookups only read, and the table they do not record in. -/
theorem extractState_kept :
    (sh.extractState solver epoch s p).use2 = sh.use2 ∧
      (sh.extractState solver epoch s p).oldBytes = sh.oldBytes ∧
      (sh.extractState solver epoch s p).orderedFlows = sh.orderedFlows ∧
      Controller.collected (sh.extractState solver epoch s p) = Controller.collected sh := by
  unfold extractState countPacket Controller.collected
  cases sh.table p.flow with
  | none => exact ⟨rfl, rfl, rfl, rfl⟩
  | some st =>
    dsimp only [touchFlow]
    split
    · refine ⟨rfl, rfl, rfl, ?_⟩
      dsimp only
      split <;> rfl
    · exact ⟨rfl, rfl, rfl, rfl⟩

/-- A flow is recorded when a regular packet finds it. -/
theorem extractState_recording (hflow : ∀ st ∈ sh.table p.flow, st.flow = p.flow) :
    (sh.extractState solver epoch s p).recording =
      if sh.finds p && solver then insertKey sh.recording p.flow else sh.recording := by
  unfold extractState countPacket recording finds
  cases hst : sh.table p.flow with
  | none => rfl
  | some st =>
    have hname := hflow st hst
    rw [Option.isSome_some, Bool.true_and]
    dsimp only [touchFlow]
    by_cases hreg : (!isPriority p && solver) = true
    · simp only [hreg, if_true, hname]
      split <;> rfl
    · simp only [hreg, if_false, Bool.false_eq_true]

/-- The entry of a flow is labelled with the flow. -/
theorem entry_flow (hflow : ∀ st ∈ sh.table p.flow, st.flow = p.flow) :
    (sh.entry solver epoch s p).flow = p.flow := by
  simp only [entry]
  cases hst : sh.table p.flow with
  | none => rfl
  | some st =>
    have hname := hflow st hst
    dsimp only
    split
    · simp only [rollover]
      split <;> exact hname
    · exact hname

end

omit [Double D] in
theorem mem_insertKey {ks : List FlowKey} {k k' : FlowKey} :
    k' ∈ insertKey ks k ↔ k' ∈ ks ∨ k' = k := by
  simp only [insertKey]
  split
  · next hk => exact ⟨Or.inl, fun h => h.elim id fun heq => heq ▸ hk⟩
  · rw [List.mem_append, List.mem_singleton]

omit [Double D] in
theorem nodup_insertKey {ks : List FlowKey} (k : FlowKey) (h : ks.Nodup) :
    (insertKey ks k).Nodup := by
  simp only [insertKey]
  split
  · exact h
  · next hk =>
    rw [List.nodup_append]
    refine ⟨h, List.pairwise_singleton .., fun a ha b hb hab => hk ?_⟩
    rw [List.mem_singleton] at hb
    rwa [← hb, ← hab]

end ShardInfo

open ShardInfo

/-! ## Batches -/

/-- The packets of a batch that are looked up in shard `s`. -/
def ofShard (cfg : Cfg) (s : ℕ) (ps : List Packet) : List Packet :=
  ps.filter fun p => cfg.shardOf p = s

/-- A burst is a sequence of lookups in each shard: those of the packets of that shard. -/
theorem extractAll_shard (epoch : UInt32) (ps : List Packet) (shards : ℕ → ShardInfo D) :
    extractAll cfg w epoch ps shards s =
      (shards s).lookups (cfg.workerSolver w) epoch s (ofShard cfg s ps) := by
  induction ps generalizing shards with
  | nil => rfl
  | cons p ps ih =>
    rw [extractAll, ih, extractState, updateShard, ofShard]
    by_cases hs : cfg.shardOf p = s
    · subst hs
      rw [Function.update_self, ofShard, List.filter_cons_of_pos (by simp), lookups_cons]
    · rw [Function.update_of_ne (Ne.symm hs), ofShard, List.filter_cons_of_neg (by simpa using hs)]

/-- Classifying a batch looks its packets up. -/
theorem classify_shards (epoch : UInt32) (ps : List Packet) (shards : ℕ → ShardInfo D) :
    (classify cfg w epoch ps shards).1 = extractAll cfg w epoch ps shards := by
  induction ps generalizing shards with
  | nil => rfl
  | cons p ps ih =>
    rw [extractAll, ← ih]
    simp only [classify]
    split <;> rfl

/-! ## Tasks

No piece of a task but the processing of packets writes a book. What a task does to it is therefore
a list of lookups, whatever else the task does.
-/

/-- The packets of a step that are looked up in shard `s`. -/
def lookedUp (cfg : Cfg) (s : ℕ) (σ : Sys D) (a : Act D) : List Packet :=
  ofShard cfg s (taskLog cfg σ a).extracted

namespace WorkingCore

/-- Looking at the news leaves every book alone. -/
theorem processChanges_book :
    ((processChanges cfg w σ).shards s).book = (σ.shards s).book := by
  simp only [processChanges]
  split
  · refine forRange_inv (P := fun l : ChangesLoop D => (l.shards s).book = (σ.shards s).book) rfl
      fun v _ l hl => ?_
    simp only [takeLocal]
    split
    · dsimp only [updateShard]
      by_cases hv : s = v
      · subst hv
        rw [Function.update_self]
        exact hl
      · rw [Function.update_of_ne hv]
        exact hl
    · exact hl
  · rfl

/-- Handing shards over leaves every book alone. -/
theorem transferShard_book (drains : List ℕ) :
    ((transferShard cfg w drains σ).shards s).book = (σ.shards s).book := by
  rcases @transferShard_released _ cfg σ w drains s with h | h
  · rw [h]
  · rw [h]
    rfl

/-- `transfer_r` leaves every book alone. -/
theorem transferR_book : ((transferR cfg w σ).shards s).book = (σ.shards s).book := by
  refine (congrArg book (takeRatios_shards s)).trans ?_
  rw [exchange_repointed.shards]
  split <;> rfl

/-- Serving the controller's signal leaves every book alone. -/
theorem serveSignal_book (drains : List ℕ) :
    ((serveSignal cfg w drains σ).shards s).book = (σ.shards s).book :=
  serveSignal_rule (P := fun σ' => (σ'.shards s).book = (σ.shards s).book) drains
    (fun _ h => transferR_book.trans h) (fun _ h _ => by rw [transferOffloading_shards, h])
    (fun _ h => (transferShard_book drains).trans h) (fun _ h => h) rfl

/-- The end of a drained ring leaves every book alone. -/
theorem drained_book : ((drained cfg w σ).shards s).book = (σ.shards s).book := by
  rw [drained_spec.1]
  simp only [drainedShard, drainedReleased]
  split_ifs <;> rfl

/-- **What a task does to the book of a shard.** -/
theorem runTask_book (h : Wired cfg σ) (hw : w < cfg.W) (inp : TaskInput) :
    ((runTask cfg w inp σ).1.shards s).book =
      ((σ.shards s).lookups (cfg.workerSolver w) σ.epoch s
        (ofShard cfg s (runTask cfg w inp σ).2.extracted)).book := by
  simp only [runTask]
  split
  · split
    · exact drained_book
    · exact congrArg book (extractAll_shard ..)
  · have hbefore : ((beforeReceive cfg w inp σ).shards s).book = (σ.shards s).book :=
      processChanges_book.trans (serveSignal_book inp.drains)
    have hclassify := congrFun (@classify_shards _ _ cfg w (beforeReceive cfg w inp σ).epoch
      (processBatch cfg w inp.rx (beforeReceive cfg w inp σ)) (beforeReceive cfg w inp σ).shards) s
    refine (congrArg book (hclassify.trans (extractAll_shard ..))).trans ?_
    rw [beforeReceive_epoch h hw inp]
    exact lookups_book hbefore

end WorkingCore

/-- If one entry grows by at most `n`, so does a sum. -/
theorem sum_le_of_update {ι M : Type} [DecidableEq ι] [AddCommMonoid M] [PartialOrder M]
    [IsOrderedAddMonoid M] {f g : ι → M} {j : ι} {n : M} (hn : 0 ≤ n)
    (h : ∀ k, g k ≤ f k + if k = j then n else 0) (K : Finset ι) :
    ∑ k ∈ K, g k ≤ ∑ k ∈ K, f k + n := by
  have hsum : ∑ k ∈ K, (if k = j then n else 0) ≤ n := by
    rw [Finset.sum_ite_eq']
    split
    · exact le_refl n
    · exact hn
  calc ∑ k ∈ K, g k ≤ ∑ k ∈ K, (f k + if k = j then n else 0) := Finset.sum_le_sum fun k _ => h k
    _ = ∑ k ∈ K, f k + ∑ k ∈ K, (if k = j then n else 0) := Finset.sum_add_distrib
    _ ≤ ∑ k ∈ K, f k + n := add_le_add_right hsum _

/-! ## Epochs -/

namespace Controller

/-- `swap_shards` on a shard. -/
def swapShard (sh : ShardInfo D) : ShardInfo D :=
  { sh with
    use2 := !sh.use2
    oldBytes := sh.bytes
    oldPackets := sh.packets
    bytes := 0
    packets := 0 }

/-- `clear_flows` on a shard. -/
def clearShard (sh : ShardInfo D) : ShardInfo D :=
  if sh.use2 then { sh with flows3 := [] } else { sh with flows3₂ := [] }

/-- What an epoch does to the book of a shard whose flows are sorted as in `vec`. -/
def closeEpoch (vec : List FlowKey) (sh : ShardInfo D) : ShardInfo D :=
  clearShard (orderShard vec (swapShard sh))

/-- Sorting and clearing see nothing of a shard but its book. -/
theorem clearShard_book {vec : List FlowKey} {sh sh' : ShardInfo D} (h : sh.book = sh'.book) :
    (clearShard (orderShard vec sh)).book = (clearShard (orderShard vec sh')).book := by
  have hown : ∀ sh : ShardInfo D, (clearShard (orderShard vec sh)).book =
      (clearShard (orderShard vec sh.book)).book := by
    intro sh
    have huse : (orderShard vec sh.book).use2 = (orderShard vec sh).use2 := rfl
    simp only [clearShard]
    rw [huse]
    split <;> rfl
  rw [hown, h, ← hown]

omit [Double D] in
/-- Swapping touches the shards there are, each on its own. -/
theorem swapShards_shard (s : ℕ) : (swapShards cfg σ).shards s =
    if s < cfg.totalShards then swapShard (σ.shards s) else σ.shards s :=
  congrFun (forRange_update cfg.totalShards (fun _ sh => swapShard sh) σ.shards) s

/-- The end of an epoch, given the state the solver branch leaves. -/
theorem ordered_book {vec : ℕ → List FlowKey} (n : UInt32) (s : ℕ) :
    (clearFlows cfg (orderShards cfg vec { σ with epoch := n })).shards s =
      if s < cfg.totalShards then clearShard (orderShard (vec s) (σ.shards s)) else σ.shards s := by
  refine (congrFun (forRange_update cfg.totalShards (fun _ sh => clearShard sh)
    (orderShards cfg vec { σ with epoch := n }).shards) s).trans ?_
  have hordered := congrFun (forRange_update cfg.totalShards (fun s sh => orderShard (vec s) sh)
    σ.shards) s
  split
  · next hs =>
    rw [if_pos hs] at hordered
    exact congrArg clearShard hordered
  · next hs =>
    rw [if_neg hs] at hordered
    exact hordered

/-- Swapping does to the book what it does to the shard. -/
theorem swapShards_book (hs : s < cfg.totalShards) :
    ((swapShards cfg σ).shards s).book = (swapShard (σ.shards s)).book := by
  rw [swapShards_shard, if_pos hs]

/-- The book of a shard does not depend on what the controller asks for. -/
theorem unasked_book : Unasked (book (D := D)) := fun _ _ _ _ _ => rfl

/-- An answer does not change the number of the epoch. -/
theorem applyAnswer_epoch (ans : Answer D) : (applyAnswer cfg ans σ).epoch = σ.epoch := by
  have hrelation : ∀ σ : Sys D, (updateRelationship cfg σ).1.epoch = σ.epoch := by
    intro σ
    simp only [updateRelationship]
    split <;> rfl
  have hshards : ∀ σ : Sys D, (updateShards cfg σ).1.epoch = σ.epoch := by
    intro σ
    simp only [updateShards]
    split <;> rfl
  simp only [applyAnswer]
  split
  · exact (hshards _).trans (hrelation _)
  · exact (hshards _).trans (hrelation _)

/-- Adding up the volumes does not change the number of the epoch. -/
theorem volumeShards_epoch : (volumeShards cfg σ).epoch = σ.epoch := by
  simp only [volumeShards]
  split
  · rfl
  · split <;> rfl

section

variable {ans : Option (Answer D)} {vec : ℕ → List FlowKey}

/-- An epoch after the solver branch, which shows in no book. -/
theorem updateShortEpoch_eq : ∃ σ₁ : Sys D, σ₁.epoch = σ.epoch ∧
    (∀ s, (σ₁.shards s).book = ((swapShards cfg σ).shards s).book) ∧
    updateShortEpoch cfg ans vec σ =
      clearFlows cfg (orderShards cfg vec { σ₁ with epoch := σ.epoch + 1 }) := by
  have hvolume : (volumeShards cfg (swapShards cfg σ)).epoch = σ.epoch := volumeShards_epoch
  have hbook := @volumeShards_view _ _ cfg (swapShards cfg σ) _ _ unasked_book
  unfold updateShortEpoch
  cases ans with
  | none =>
    refine ⟨volumeShards cfg (swapShards cfg σ), hvolume, hbook, ?_⟩
    rw [← hvolume]
  | some ans =>
    cases cfg.solver with
    | true =>
      refine ⟨applyAnswer cfg ans (volumeShards cfg (swapShards cfg σ)),
        (applyAnswer_epoch ans).trans hvolume, fun s => (applyAnswer_view unasked_book s ans).trans
          (hbook s), ?_⟩
      rw [← hvolume, ← applyAnswer_epoch ans]
      rfl
    | false =>
      refine ⟨volumeShards cfg (swapShards cfg σ), hvolume, hbook, ?_⟩
      rw [← hvolume]
      rfl

/-- The short update counts the epoch up by one. -/
theorem updateShortEpoch_epoch : (updateShortEpoch cfg ans vec σ).epoch = σ.epoch + 1 := by
  obtain ⟨σ₁, -, -, heq⟩ := @updateShortEpoch_eq _ _ cfg σ ans vec
  rw [heq]
  rfl

/-- **What an epoch does to the book of a shard.** -/
theorem updateShortEpoch_book (hs : s < cfg.totalShards) :
    ((updateShortEpoch cfg ans vec σ).shards s).book = (closeEpoch (vec s) (σ.shards s)).book := by
  obtain ⟨σ₁, -, hbook, heq⟩ := @updateShortEpoch_eq _ _ cfg σ ans vec
  rw [heq, ordered_book, if_pos hs]
  exact clearShard_book ((hbook s).trans (swapShards_book hs))

end

end Controller

open Controller WorkingCore

/-! ## Steps -/

/-- The book of shard `s` after a step. -/
def bookAfter (cfg : Cfg) (s : ℕ) (σ : Sys D) (a : Act D) : ShardInfo D :=
  match a with
  | .arrive _ => σ.shards s
  | .epoch _ vec => closeEpoch (vec s) (σ.shards s)
  | .work w _ => (σ.shards s).lookups (cfg.workerSolver w) σ.epoch s (lookedUp cfg s σ a)
  | .offload _ _ => σ.shards s

/-- The number of the epoch after a step. -/
def epochAfter (σ : Sys D) : Act D → UInt32
  | .epoch _ _ => σ.epoch + 1
  | _ => σ.epoch

/-- **What a step does to the book of a shard.** -/
theorem step_book (h : Wired cfg σ) {a : Act D} (ha : Possible cfg σ a) (hs : s < cfg.totalShards) :
    ((step cfg σ a).shards s).book = (bookAfter cfg s σ a).book := by
  cases a with
  | arrive p => rfl
  | epoch ans vec => exact updateShortEpoch_book hs
  | work w inp => exact runTask_book h ha inp
  | offload e accept =>
    obtain ⟨core, ring, transmitted, lost, heq, -⟩ := OffloadingCore.runTask_eq cfg e accept σ
    rw [step, heq]
    rfl

/-- A step of the system counts epochs as `epochAfter` says. -/
theorem step_epoch (h : Wired cfg σ) {a : Act D} (ha : Possible cfg σ a) :
    (step cfg σ a).epoch = epochAfter σ a := by
  cases a with
  | arrive p => rfl
  | epoch ans vec => exact updateShortEpoch_epoch
  | work w inp => exact (h.runTask_statics ha inp).1
  | offload e accept =>
    obtain ⟨core, ring, transmitted, lost, heq, -⟩ := OffloadingCore.runTask_eq cfg e accept σ
    rw [step, heq]
    rfl

end Fajita
