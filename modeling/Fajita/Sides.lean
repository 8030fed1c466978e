import Fajita.Traffic

/-!
# The side of a flow

`run` sends a packet to the offloading core or to output 0 according to the `cdf`
of its flow and the share `r` of its shard. What can change the side of a flow that
is already in the table?

* looking packets up cannot (`KeepsSides`);
* `order_shards` can: it gives every flow of the last epoch a new `cdf`, the sum of
  the shares sorted before it and its own (`sharesTo`, `updateShortEpoch_side`);
* `transfer_r` can, for the shards of its core (`sideAfter`, `serveSignal_side`).
-/

namespace Fajita

variable {D : Type} [Double D] {cfg : Cfg} {σ σ' : Sys D} {w : ℕ} {p : Packet} {k : FlowKey}

/-! ## Looking packets up

A lookup adds an entry for a new flow and counts bytes for an old one. The `cdf` and the priority of
an entry that was there are written by nobody but the controller.
-/

/-- The side of a flow in the table is a matter of its own record and the ratio. -/
theorem ShardInfo.isOffloaded_of_some {sh : ShardInfo D} {st : DyssectState D}
    (h : sh.table k = some st) : sh.isOffloaded k = (!st.priority && isLessThan st.cdf sh.r) := by
  rw [ShardInfo.isOffloaded, h]

/-- An offloaded flow is in the table. -/
theorem ShardInfo.known_of_isOffloaded {sh : ShardInfo D} (h : sh.isOffloaded k = true) :
    (sh.table k).isSome = true := by
  unfold ShardInfo.isOffloaded at h
  split at h
  · next hst => rw [hst]; rfl
  · cases h

/-- The flows in the table stay there and keep their sides. -/
def KeepsSides (shards shards' : ℕ → ShardInfo D) : Prop :=
  ∀ s k, ((shards s).table k).isSome = true →
    ((shards' s).table k).isSome = true ∧ (shards' s).isOffloaded k = (shards s).isOffloaded k

namespace KeepsSides

variable {shards shards₁ shards₂ : ℕ → ShardInfo D}

theorem refl (shards : ℕ → ShardInfo D) : KeepsSides shards shards := fun _ _ h => ⟨h, rfl⟩

theorem trans (h : KeepsSides shards shards₁) (h' : KeepsSides shards₁ shards₂) :
    KeepsSides shards shards₂ := by
  intro s k hk
  obtain ⟨hk₁, heq⟩ := h s k hk
  obtain ⟨hk₂, heq'⟩ := h' s k hk₁
  exact ⟨hk₂, heq'.trans heq⟩

/-- A flow that is offloaded stays so where the sides are kept. -/
theorem offloaded (h : KeepsSides shards shards₁) {s : ℕ} (ho : (shards s).isOffloaded k = true) :
    (shards₁ s).isOffloaded k = true := by
  rw [(h s k (ShardInfo.known_of_isOffloaded ho)).2, ho]

/-- The table and the share decide. -/
theorem of_eq (ht : ∀ s, (shards₁ s).table = (shards s).table)
    (hr : ∀ s, (shards₁ s).r = (shards s).r) : KeepsSides shards shards₁ := by
  intro s k hk
  rw [ShardInfo.isOffloaded, ShardInfo.isOffloaded, ht, hr]
  exact ⟨hk, rfl⟩

/-- **A lookup changes no side** of a flow that was there. -/
theorem extractState (cfg : Cfg) (w : ℕ) (epoch : UInt32) (p : Packet)
    (shards : ℕ → ShardInfo D) : KeepsSides shards (extractState cfg w epoch p shards) := by
  intro s k hk
  simp only [Fajita.extractState, updateShard]
  by_cases hs : s = cfg.shardOf p
  · subst hs
    obtain ⟨st, hst⟩ := Option.isSome_iff_exists.mp hk
    obtain ⟨st', hst', hside⟩ := ShardInfo.extractState_side (cfg.workerSolver w) epoch
      (cfg.shardOf p) p (shards (cfg.shardOf p)) hst
    have hr := congrArg Settings.r (ShardInfo.extractState_settings (cfg.workerSolver w) epoch
      (cfg.shardOf p) p (shards (cfg.shardOf p)))
    simp only [DyssectState.side, Prod.mk.injEq] at hside
    simp only [ShardInfo.settings] at hr
    rw [Function.update_self, ShardInfo.isOffloaded_of_some hst', ShardInfo.isOffloaded_of_some hst,
      hside.1, hside.2, hr, hst']
    exact ⟨rfl, rfl⟩
  · rw [Function.update_of_ne hs]
    exact ⟨hk, rfl⟩

/-- The lookups of a burst change no side of a flow that was there. -/
theorem extractAll (cfg : Cfg) (w : ℕ) (epoch : UInt32) (ps : List Packet) :
    ∀ shards : ℕ → ShardInfo D, KeepsSides shards (extractAll cfg w epoch ps shards) := by
  induction ps with
  | nil => exact refl
  | cons p ps ih => exact fun shards => (extractState cfg w epoch p shards).trans (ih _)

/-- Classifying a burst changes no side of a flow that was there. -/
theorem classify (cfg : Cfg) (w : ℕ) (epoch : UInt32) (ps : List Packet) :
    ∀ shards : ℕ → ShardInfo D, KeepsSides shards (classify cfg w epoch ps shards).1 := by
  induction ps with
  | nil => exact refl
  | cons p ps ih =>
    intro shards
    have h := (extractState cfg w epoch p shards).trans
      (ih (Fajita.extractState cfg w epoch p shards))
    simp only [Fajita.classify]
    split <;> exact h

end KeepsSides

/-- A packet that has been looked up has its flow in the table. -/
theorem extractState_known (cfg : Cfg) (w : ℕ) (epoch : UInt32) (p : Packet)
    (shards : ℕ → ShardInfo D) :
    ((extractState cfg w epoch p shards (cfg.shardOf p)).table p.flow).isSome = true := by
  rw [extractState, updateShard, Function.update_self]
  simp only [ShardInfo.extractState, ShardInfo.countPacket, Function.update_self, Option.isSome_map]
  split
  · next st hst =>
    simp only [ShardInfo.touchFlow]
    split
    · simp only [Function.update_self, Option.isSome_some]
    · rw [hst]
      rfl
  · simp only [ShardInfo.createFlow, Function.update_self, Option.isSome_some]

/-- **The two parts of a batch** are on the two sides, also after the whole batch. -/
theorem classify_side (cfg : Cfg) (w : ℕ) (epoch : UInt32) (ps : List Packet) :
    ∀ shards : ℕ → ShardInfo D,
      (∀ p ∈ (classify cfg w epoch ps shards).2.1,
        ((classify cfg w epoch ps shards).1 (cfg.shardOf p)).isOffloaded p.flow = false) ∧
      ∀ p ∈ (classify cfg w epoch ps shards).2.2,
        ((classify cfg w epoch ps shards).1 (cfg.shardOf p)).isOffloaded p.flow = true := by
  induction ps with
  | nil => exact fun shards => ⟨by simp [classify], by simp [classify]⟩
  | cons p ps ih =>
    intro shards
    obtain ⟨hout, hoff⟩ := ih (extractState cfg w epoch p shards)
    have hkeep := (KeepsSides.classify cfg w epoch ps (extractState cfg w epoch p shards)
      (cfg.shardOf p) p.flow (extractState_known cfg w epoch p shards)).2
    simp only [classify]
    split
    · next hside =>
      refine ⟨hout, fun p' hp' => ?_⟩
      rcases List.mem_cons.mp hp' with rfl | hp'
      · rw [hkeep, hside]
      · exact hoff p' hp'
    · next hside =>
      refine ⟨fun p' hp' => ?_, hoff⟩
      rcases List.mem_cons.mp hp' with rfl | hp'
      · rw [hkeep, Bool.eq_false_iff.mpr hside]
      · exact hout p' hp'

/-! ## Sorting the flows

After an epoch the `cdf` of a flow is the sum of the shares of the flows before it in
`ordered_flows`, and its own.
-/

namespace Controller

/-- The flows up to the last occurrence of `k`. -/
def upTo (k : FlowKey) : List FlowKey → List FlowKey
  | [] => []
  | k' :: ks => if k ∈ ks then k' :: upTo k ks else [k']

/-- The sum of the shares of the flows sorted before `k` and its own. -/
def sharesTo (sh : ShardInfo D) (vec : List FlowKey) (k : FlowKey) : D :=
  ((upTo k vec).filterMap fun k' => (sh.table k').map DyssectState.prob).foldl (· + ·) 0

/-- The loop of `order_shards` gives a flow the sum of the shares up to it. -/
theorem assignCdf_eq (vec : List FlowKey) :
    ∀ (accum : D) (table : FlowKey → Option (DyssectState D)) (k : FlowKey),
      assignCdf accum vec table k = if k ∈ vec then
        (table k).map fun st => { st with
          cdf := ((upTo k vec).filterMap fun k' => (table k').map DyssectState.prob2).foldl
            (· + ·) accum }
      else table k := by
  induction vec with
  | nil => intro accum table k; simp [assignCdf]
  | cons k' ks ih =>
    intro accum table k
    rw [assignCdf]
    cases hk' : table k' with
    | none =>
      dsimp only
      rw [ih]
      by_cases hk : k ∈ ks
      · simp [hk, upTo, hk']
      · by_cases heq : k = k'
        · subst heq
          simp [hk, hk']
        · simp [hk, heq]
    | some st =>
      dsimp only
      rw [ih]
      -- the entries written so far differ from the table in their `cdf` only
      have hprob : ∀ k'', (Function.update table k' (some { st with cdf := accum + st.prob2 })
          k'').map DyssectState.prob2 = (table k'').map DyssectState.prob2 := by
        intro k''
        by_cases heq : k'' = k'
        · subst heq
          rw [Function.update_self, hk']
          rfl
        · rw [Function.update_of_ne heq]
      simp only [hprob]
      by_cases hk : k ∈ ks
      · rw [if_pos hk, if_pos (List.mem_cons_of_mem _ hk), upTo, if_pos hk, List.filterMap_cons,
          hk']
        by_cases heq : k = k'
        · subst heq
          rw [Function.update_self, hk']
          rfl
        · rw [Function.update_of_ne heq]
          rfl
      · rw [if_neg hk]
        by_cases heq : k = k'
        · subst heq
          simp [upTo, hk, hk']
        · rw [Function.update_of_ne heq, if_neg (by simp [heq, hk])]

theorem mem_of_mem_upTo {k' : FlowKey} {ks : List FlowKey} (h : k' ∈ upTo k ks) : k' ∈ ks := by
  induction ks with
  | nil => cases h
  | cons k₁ ks ih =>
    rw [upTo] at h
    split at h
    · rcases List.mem_cons.mp h with rfl | h
      · exact List.mem_cons_self ..
      · exact List.mem_cons_of_mem _ (ih h)
    · rw [List.mem_singleton.mp h]
      exact List.mem_cons_self ..

/-- The shares `order_shards` sums up are the copies it has just made. -/
theorem shares_copyProb {sh : ShardInfo D} {vec : List FlowKey}
    (hvec : ∀ k ∈ vec, k ∈ collected sh) (k : FlowKey) :
    ((upTo k vec).filterMap fun k' =>
      (copyProb (collected sh) sh.table k').map DyssectState.prob2).foldl (· + ·) 0 =
        sharesTo sh vec k := by
  rw [sharesTo]
  congr 1
  refine List.filterMap_congr fun k' hk' => ?_
  rw [copyProb, if_pos (hvec k' (mem_of_mem_upTo hk')), Option.map_map]
  rfl

/-- An entry of the table after `order_shards`. -/
theorem orderShard_table {sh : ShardInfo D} {vec : List FlowKey}
    (hvec : ∀ k ∈ vec, k ∈ collected sh) {st : DyssectState D} (hst : sh.table k = some st) :
    ∃ st', (orderShard vec sh).table k = some st' ∧ st'.priority = st.priority ∧
      st'.cdf = if k ∈ vec then sharesTo sh vec k else st.cdf := by
  rw [orderShard_eq]
  dsimp only
  rw [assignCdf_eq, shares_copyProb hvec]
  by_cases hk : k ∈ vec
  · rw [if_pos hk, if_pos hk, copyProb, if_pos (hvec k hk), hst]
    exact ⟨_, rfl, rfl, rfl⟩
  · rw [if_neg hk, if_neg hk, copyProb, hst]
    split <;> exact ⟨_, rfl, rfl, rfl⟩

/-- **The side of a flow after `order_shards`**: the flows of the last epoch are on
the side of their cumulated share, the others stay where they are. -/
theorem orderShard_isOffloaded {sh : ShardInfo D} {vec : List FlowKey}
    (hvec : ∀ k ∈ vec, k ∈ collected sh) (ho : sh.isOffloaded k = true)
    (hk : k ∈ vec → isLessThan (sharesTo sh vec k) sh.r = true) :
    (orderShard vec sh).isOffloaded k = true := by
  obtain ⟨st, hst⟩ := Option.isSome_iff_exists.mp (ShardInfo.known_of_isOffloaded ho)
  obtain ⟨st', hst', hpriority, hcdf⟩ := orderShard_table hvec hst
  rw [ShardInfo.isOffloaded_of_some hst, Bool.and_eq_true] at ho
  have hless : isLessThan st'.cdf sh.r = true := by
    rw [hcdf]
    split
    · next hkv => exact hk hkv
    · exact ho.2
  rw [ShardInfo.isOffloaded_of_some hst', hpriority, Bool.and_eq_true]
  exact ⟨ho.1, hless⟩

/-! ## The epoch -/

/-- What decides the sides of the flows of a shard, and which flows are collected. -/
def flowView (sh : ShardInfo D) :
    (FlowKey → Option (DyssectState D)) × D × Bool × List FlowKey × List FlowKey :=
  (sh.table, sh.r, sh.use2, sh.flows3, sh.flows3₂)

/-- A part of an epoch that leaves the flows alone. -/
def SameFlows (σ σ' : Sys D) : Prop := ∀ s, flowView (σ'.shards s) = flowView (σ.shards s)

section

variable {γ : Type} {φ : ShardInfo D → γ}

/-- A view of a shard that shows nothing of what a measurement or an answer of the solver
changes. -/
def Unasked (φ : ShardInfo D → γ) : Prop :=
  ∀ sh V rNew pause ownerNew, φ { sh with V, rNew, pause, ownerNew } = φ sh

variable (hφ : Unasked φ) (s : ℕ)

include hφ

omit [Double D] in
theorem updateShards_view : φ ((updateShards cfg σ).1.shards s) = φ (σ.shards s) := by
  simp only [updateShards]
  split
  · rfl
  · refine (congrArg φ ((migrationPass_mark cfg σ.A σ.newA
      ⟨σ.shards, σ.transferShard⟩).2 s)).trans ?_
    split
    · refine forRange_inv (P := fun t => φ t = φ (σ.shards s)) rfl fun v _ t ht => ?_
      split
      · exact (hφ t t.V t.rNew true v).trans ht
      · exact ht
    · rfl

theorem volumeShards_view : φ ((volumeShards cfg σ).shards s) = φ (σ.shards s) := by
  simp only [volumeShards]
  split
  · rfl
  · split
    · exact forRange_update_field (φ := φ) (h := fun _ sh =>
        { sh with V := (sh.oldPackets.toNat : D) * 1e-6 * 1e6 / (100000 : ℕ) })
        (fun _ sh => hφ sh _ sh.rNew sh.pause sh.ownerNew) cfg.totalShards σ.shards s
    · exact forRange_update_field (φ := φ) (h := fun _ (sh : ShardInfo D) => { sh with V := 0 })
        (fun _ sh => hφ sh 0 sh.rNew sh.pause sh.ownerNew) cfg.totalShards σ.shards s

theorem updateRatio_view : φ ((updateRatio cfg σ).1.shards s) = φ (σ.shards s) := by
  refine (congrArg φ (ratioLoop_shards cfg σ s)).trans ?_
  split
  · exact hφ _ (σ.shards s).V _ (σ.shards s).pause (σ.shards s).ownerNew
  · rfl

theorem applyAnswer_view (ans : Answer D) :
    φ ((applyAnswer cfg ans σ).shards s) = φ (σ.shards s) := by
  have hstored : φ ((runShortSolver cfg ans σ).shards s) = φ (σ.shards s) :=
    forRange_update_field (φ := φ) (h := fun s sh => { sh with rNew := ans.r s })
      (fun _ sh => hφ sh sh.V _ sh.pause sh.ownerNew) cfg.totalShards σ.shards s
  have hrelation : ∀ σ : Sys D, (updateRelationship cfg σ).1.shards = σ.shards := by
    intro σ
    simp only [updateRelationship]
    split <;> rfl
  have hupdated : φ ((updateShards cfg (updateRelationship cfg (updateRatio cfg
      (runShortSolver cfg ans σ)).1).1).1.shards s) = φ (σ.shards s) := by
    rw [updateShards_view hφ, hrelation, updateRatio_view hφ, hstored]
  simp only [applyAnswer]
  split <;> exact hupdated

end

omit [Double D] in
/-- The tables do not depend on what the controller asks for. -/
theorem unasked_flowView : Unasked (flowView (D := D)) := fun _ _ _ _ _ => rfl

omit [Double D] in
/-- What `swap_shards` does to the flows of a shard: the tables change roles. -/
theorem swapShards_flows {s : ℕ} (hs : s < cfg.totalShards) :
    flowView ((swapShards cfg σ).shards s) =
      flowView { σ.shards s with use2 := !(σ.shards s).use2 } := by
  have hloop := congrFun (forRange_update cfg.totalShards (fun _ sh => { sh with
    use2 := !sh.use2, oldBytes := sh.bytes, oldPackets := sh.packets, bytes := 0, packets := 0 })
    σ.shards) s
  rw [if_pos hs] at hloop
  exact (congrArg flowView hloop).trans rfl

/-- `clear_flows` does not matter to the sides. -/
theorem clearFlows_isOffloaded {s : ℕ} (hs : s < cfg.totalShards) (vec : ℕ → List FlowKey)
    (n : UInt32) :
    ((clearFlows cfg (orderShards cfg vec { σ with epoch := n })).shards s).isOffloaded k =
      (orderShard (vec s) (σ.shards s)).isOffloaded k := by
  have hfinal := congrFun (forRange_update cfg.totalShards
    (fun _ sh => if sh.use2 then { sh with flows3 := [] } else { sh with flows3₂ := [] })
    (orderShards cfg vec { σ with epoch := n }).shards) s
  have hordered : (orderShards cfg vec { σ with epoch := n }).shards s =
      orderShard (vec s) (σ.shards s) :=
    (congrFun (forRange_update cfg.totalShards (fun s sh => orderShard (vec s) sh) σ.shards)
      s).trans (if_pos hs)
  rw [if_pos hs, hordered] at hfinal
  refine (congrArg (fun sh : ShardInfo D => sh.isOffloaded k) hfinal).trans ?_
  split <;> rfl

section

variable {ans : Option (Answer D)} {vec : ℕ → List FlowKey} {s : ℕ} (hs : s < cfg.totalShards)
  (hsorted : SortedFlows ((swapShards cfg σ).shards s) (vec s))
  (ho : (σ.shards s).isOffloaded k = true)
  (hk : k ∈ vec s → isLessThan (sharesTo (σ.shards s) (vec s) k) (σ.shards s).r = true)

include hs hsorted ho hk

theorem ordered_side (h : SameFlows (swapShards cfg σ) σ') (n : UInt32) :
    ((clearFlows cfg (orderShards cfg vec { σ' with epoch := n })).shards s).isOffloaded k =
      true := by
  have hview := (h s).trans (swapShards_flows hs)
  have hswap := @swapShards_flows _ cfg σ s hs
  simp only [flowView, Prod.mk.injEq] at hview hswap
  obtain ⟨htable, hr, huse, hflows, hflows₂⟩ := hview
  obtain ⟨-, -, huse', hflows', hflows₂'⟩ := hswap
  rw [clearFlows_isOffloaded hs]
  refine orderShard_isOffloaded (fun k' hk' => ?_) ?_ fun hkv => ?_
  · have hmem := hsorted.perm.subset hk'
    rw [collected, huse', hflows', hflows₂'] at hmem
    rw [collected, huse, hflows, hflows₂]
    exact hmem
  · rw [ShardInfo.isOffloaded, htable, hr]
    exact ho
  · rw [sharesTo, htable, hr]
    exact hk hkv

/-- **The side of a flow after an epoch**: an offloaded flow stays offloaded if its
cumulated share is below `r` still. -/
theorem updateShortEpoch_side :
    ((updateShortEpoch cfg ans vec σ).shards s).isOffloaded k = true := by
  simp only [updateShortEpoch]
  cases ans with
  | none => exact ordered_side hs hsorted ho hk (volumeShards_view unasked_flowView) _
  | some ans =>
    dsimp only
    split
    · exact ordered_side hs hsorted ho hk
        (fun s => (applyAnswer_view unasked_flowView s ans).trans
          (volumeShards_view unasked_flowView s)) _
    · exact ordered_side hs hsorted ho hk (volumeShards_view unasked_flowView) _

end

end Controller

/-! ## The signal -/

namespace WorkingCore

/-- The side of a flow after core `w` has served its signal: `transfer_r` puts
`r_new` in force for the shards of the core. -/
def sideAfter (cfg : Cfg) (w : ℕ) (σ : Sys D) (s : ℕ) (k : FlowKey) : Bool :=
  if (σ.controllerSignal w && σ.transferR w) = true ∧ s < cfg.totalShards ∧
      (σ.shards s).owner = w then
    ShardInfo.isOffloaded { σ.shards s with r := (σ.shards s).rNew } k
  else (σ.shards s).isOffloaded k

section

omit [Double D]

/-- Taking packets back touches no shard. -/
theorem takeBack_shards : (takeBack cfg w σ).shards = σ.shards := by
  simp only [takeBack]
  split <;> rfl

/-- `transfer_offloading` touches no shard. -/
theorem transferOffloading_shards : (transferOffloading cfg w σ).shards = σ.shards :=
  adopt_repointed.shards.trans (takeBack_shards.trans withdraw_repointed.shards)

/-- `transfer_shard` touches no shard up to its loop over them. -/
theorem collect_shards (drains : List ℕ) : (collect cfg w drains σ).shards = σ.shards :=
  announce_repointed.shards.trans (takeBack_shards.trans withdraw_repointed.shards)

/-- `transfer_shard` does no more to a shard than to release it. -/
theorem transferShard_released (drains : List ℕ) (s : ℕ) :
    (transferShard cfg w drains σ).shards s = σ.shards s ∨
      (transferShard cfg w drains σ).shards s = { σ.shards s with pause := false } := by
  have hcollect := @collect_shards _ cfg σ w drains
  rw [transferShard]
  generalize collect cfg w drains σ = σ₁ at hcollect ⊢
  dsimp only
  split
  · rw [hcollect]
    exact Or.inl rfl
  · rw [releaseAll_spec.1, hcollect]
    simp only [releasedShard]
    split_ifs
    · exact Or.inr rfl
    · exact Or.inl rfl
    · exact Or.inl rfl

end

/-- Releasing shards does not matter to the sides. -/
theorem transferShard_isOffloaded (drains : List ℕ) (s : ℕ) :
    ((transferShard cfg w drains σ).shards s).isOffloaded k = (σ.shards s).isOffloaded k := by
  rcases @transferShard_released _ cfg σ w drains s with h | h
  · rw [h]
  · rw [h]
    rfl

/-- **The sides after the signal.** -/
theorem serveSignal_side (drains : List ℕ) (s : ℕ) :
    ((serveSignal cfg w drains σ).shards s).isOffloaded k = sideAfter cfg w σ s k := by
  simp only [serveSignal]
  cases hsig : σ.controllerSignal w with
  | false => simp [sideAfter, hsig]
  | true =>
    have hR : ((serveR cfg w σ).shards s).isOffloaded k = sideAfter cfg w σ s k := by
      simp only [serveR, sideAfter]
      cases σ.transferR w with
      | false => simp
      | true =>
        have hshards : (transferR cfg w σ).shards s = (takeRatios cfg w (exchange w σ)).shards s :=
          rfl
        rw [if_pos rfl, hshards, takeRatios_shards, exchange_repointed.shards, hsig]
        simp only [Bool.and_self, true_and]
        split <;> rfl
    have hO : ((serveOffloading cfg w (serveR cfg w σ)).shards s).isOffloaded k =
        sideAfter cfg w σ s k := by
      simp only [serveOffloading]
      split
      · rw [transferOffloading_shards, hR]
      · exact hR
    rw [if_pos rfl]
    change ((serveShard cfg w drains (serveOffloading cfg w (serveR cfg w σ))).shards
      s).isOffloaded k = _
    simp only [serveShard]
    split
    · rw [transferShard_isOffloaded, hO]
    · exact hO

end WorkingCore

end Fajita
