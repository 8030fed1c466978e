import Fajita.Agreement

/-!
# Steering

The NIC puts a packet in the receive queue its redirection table names for the
slot `rss mod reta_size`; the working core looks the packet up in the shard
`rss mod total_shards`. `update_reta` writes, for every shard, each
`total_shards`-th slot, so slot `k` leads to the core that has shard
`k mod total_shards` (`Steered`); the two reductions agree on every hash exactly
when `total_shards` divides `reta_size`.

The table is pushed only if the halved number of changed entries is not zero;
with one-hot rows a change of the assignment changes at least two.
-/

namespace Fajita

variable {D : Type} {cfg : Cfg} {σ : Sys D}

/-! ## The slots of the grouped table

DPDK splits the redirection table into groups of 64 entries. `slots` puts the groups together again;
nothing below knows of them.
-/

/-- The slots of `reta_conf`. -/
def slots (conf : ℕ → RetaGroup) (k : ℕ) : ℕ := (conf (k / retaGroupSize)).reta (k % retaGroupSize)

/-- `set_reta` writes one slot. -/
theorem slots_setReta (conf : ℕ → RetaGroup) (k w : ℕ) :
    slots (setReta conf k w) = Function.update (slots conf) k w := by
  funext j
  unfold slots setReta
  by_cases hj : j = k
  · subst hj
    simp
  · rw [Function.update_of_ne hj]
    by_cases hd : j / retaGroupSize = k / retaGroupSize
    · have hm : j % retaGroupSize ≠ k % retaGroupSize := by
        intro hm
        apply hj
        rw [← Nat.div_add_mod j retaGroupSize, ← Nat.div_add_mod k retaGroupSize, hd, hm]
      rw [hd, Function.update_self]
      exact Function.update_of_ne hm ..
    · rw [Function.update_of_ne hd]

/-- `set_reta` writes no mask. -/
theorem setReta_mask (conf : ℕ → RetaGroup) (k w g : ℕ) :
    (setReta conf k w g).mask = (conf g).mask := by
  simp only [setReta]
  by_cases hg : g = k / retaGroupSize
  · subst hg
    rw [Function.update_self]
  · rw [Function.update_of_ne hg]

/-- The inner loop of `update_reta` and of `init_dpdk`: the slots of shard `s`. -/
def steerShard (cfg : Cfg) (s w : ℕ) (conf : ℕ → RetaGroup) : ℕ → RetaGroup :=
  forStride cfg.retaSize cfg.totalShards s (fun k conf => setReta conf k w) conf

/-- `update_reta` writes the slots of the shard, from its number on in strides of `total_shards`. -/
theorem slots_steerShard {s : ℕ} (hs : s < cfg.totalShards) (w : ℕ) (conf : ℕ → RetaGroup)
    (k : ℕ) : slots (steerShard cfg s w conf) k =
      if k < cfg.retaSize ∧ k % cfg.totalShards = s then w else slots conf k := by
  have hmap := @forStride_map _ _ slots cfg.retaSize cfg.totalShards s
    (fun k conf => setReta conf k w) (fun k t => Function.update t k w)
    (fun k conf => slots_setReta conf k w) conf
  rw [steerShard, hmap, forStride_update cfg.totalShards_pos w (slots conf) hs]

theorem steerShard_mask (s w : ℕ) (conf : ℕ → RetaGroup) (g : ℕ) :
    (steerShard cfg s w conf g).mask = (conf g).mask := by
  obtain ⟨-, -, h⟩ := forStride_rule (n := cfg.retaSize) (k := s)
    (f := fun k conf => setReta conf k w) (s := conf) cfg.totalShards_pos
    (fun _ t => (t g).mask = (conf g).mask) rfl
    fun k t _ ht => by rw [setReta_mask, ht]
  exact h

/-- Every slot of the NIC's table is to be changed. -/
def Masked (cfg : Cfg) (conf : ℕ → RetaGroup) : Prop :=
  ∀ k < cfg.retaSize, (conf (k / retaGroupSize)).mask.testBit (k % retaGroupSize) = true

/-- Pushing a fully masked table makes it the NIC's. -/
theorem push_masked {conf : ℕ → RetaGroup} (hm : Masked cfg conf) (nic : ℕ → ℕ) {k : ℕ}
    (hk : k < cfg.retaSize) : rteEthDevRssRetaUpdate conf cfg.retaSize nic k = slots conf k := by
  rw [rteEthDevRssRetaUpdate, if_pos ⟨hk, hm k hk⟩, slots]

/-! ## The table `update_reta` builds

Two things must hold of the loop over `A` and `newA`: every shard is steered to the core that `newA`
names, and if something has changed then the count of the changes, which is halved before it is
tested, is at least 2.
-/

/-- Row `s` of the assignment names core `a`. -/
def RowIs (cfg : Cfg) (A : ℕ → ℕ → ℕ) (s a : ℕ) : Prop :=
  a < cfg.W ∧ ∀ v < cfg.totalCores, A s v = if v = a then 1 else 0

/-- The table follows the assignment. -/
def Follows (cfg : Cfg) (A : ℕ → ℕ → ℕ) (table : ℕ → ℕ) : Prop :=
  ∀ k < cfg.retaSize, RowIs cfg A (k % cfg.totalShards) (table k)

/-- A row names one core. -/
theorem RowIs.unique {A : ℕ → ℕ → ℕ} {s a b : ℕ} (ha : RowIs cfg A s a) (hb : RowIs cfg A s b) :
    a = b := by
  have hac : a < cfg.totalCores := Nat.lt_of_lt_of_le ha.1 (Nat.le_add_right _ _)
  have h1 := ha.2 a hac
  have h2 := hb.2 a hac
  rw [if_pos rfl] at h1
  rw [h1] at h2
  by_contra hab
  rw [if_neg hab] at h2
  cases h2

/-- Every row names a core. -/
theorem OneHot.row {A : ℕ → ℕ → ℕ} (h : OneHot cfg A) {s : ℕ} (hs : s < cfg.totalShards) :
    ∃ a, RowIs cfg A s a := by
  obtain ⟨a, ha, hrow⟩ := h s hs
  exact ⟨a, ha, hrow⟩

namespace Controller

variable {A newA : ℕ → ℕ → ℕ}

/-- A row of the table: the slots of shard `s` lead to its core. -/
theorem retaRow (l : RetaLoop) {s a : ℕ} (hs : s < cfg.totalShards) (ha : RowIs cfg newA s a) :
    (∀ k, slots (forRange cfg.totalCores (retaStep cfg A newA s) l).conf k =
      if k < cfg.retaSize ∧ k % cfg.totalShards = s then a else slots l.conf k) ∧
    ∀ g, ((forRange cfg.totalCores (retaStep cfg A newA s) l).conf g).mask = (l.conf g).mask := by
  have hac : a < cfg.totalCores := Nat.lt_of_lt_of_le ha.1 (Nat.le_add_right _ _)
  have hrule := forRange_rule (n := cfg.totalCores) (f := retaStep cfg A newA s) (s := l)
    (fun i t => t.conf = if a < i then steerShard cfg s a l.conf else l.conf) (by simp) ?_
  · rw [if_pos hac] at hrule
    rw [hrule]
    exact ⟨slots_steerShard hs a l.conf, steerShard_mask s a l.conf⟩
  · intro i hi t ht
    simp only [retaStep]
    by_cases hia : i = a
    · subst hia
      have hone : newA s i = 1 := by rw [ha.2 i hi, if_pos rfl]
      rw [if_neg (Nat.not_le.mpr ha.1)]
      simp [hone, ht, steerShard]
    · have hzero : newA s i ≠ 1 := by rw [ha.2 i hi, if_neg hia]; exact Nat.zero_ne_one
      have hlt : a < i + 1 ↔ a < i := by omega
      by_cases hw : cfg.W ≤ i
      · rw [if_pos hw, ht]
        simp [hlt]
      · rw [if_neg hw]
        simp [hzero, ht, hlt]

/-- The table `update_reta` builds, row by row. -/
theorem retaLoop_conf (l : RetaLoop) (hnew : OneHot cfg newA) (hm : Masked cfg l.conf) :
    let l' := forRange cfg.totalShards
      (fun s => forRange cfg.totalCores (retaStep cfg A newA s)) l
    Follows cfg newA (slots l'.conf) ∧ Masked cfg l'.conf := by
  intro l'
  have hrule := forRange_rule (n := cfg.totalShards) (s := l)
    (f := fun s => forRange cfg.totalCores (retaStep cfg A newA s))
    (fun i t => (∀ k < cfg.retaSize, k % cfg.totalShards < i →
        RowIs cfg newA (k % cfg.totalShards) (slots t.conf k)) ∧
      ∀ g, (t.conf g).mask = (l.conf g).mask) ⟨by omega, fun _ => rfl⟩ ?_
  · refine ⟨fun k hk => hrule.1 k hk (Nat.mod_lt _ cfg.totalShards_pos), fun k hk => ?_⟩
    rw [hrule.2]
    exact hm k hk
  · rintro s hs t ⟨hrows, hmask⟩
    obtain ⟨a, ha⟩ := hnew.row hs
    obtain ⟨hslots, hmask'⟩ := retaRow (A := A) t hs ha
    refine ⟨fun k hk hks => ?_, fun g => (hmask' g).trans (hmask g)⟩
    rw [hslots]
    by_cases hks' : k % cfg.totalShards = s
    · rw [if_pos ⟨hk, hks'⟩, hks']
      exact ha
    · rw [if_neg fun h => hks' h.2]
      exact hrows k hk (by omega)

/-- The count of the changes never falls. -/
theorem retaStep_mono (s w : ℕ) (t : RetaLoop) :
    t.transfers ≤ (retaStep cfg A newA s w t).transfers := by
  simp only [retaStep]
  split
  · exact Nat.le_refl _
  · dsimp only
    split
    · exact Nat.le_succ _
    · exact Nat.le_refl _

/-- Every entry that differs counts. -/
theorem retaStep_counts {s w : ℕ} (hw : w < cfg.W) (hd : A s w ≠ newA s w) (t : RetaLoop) :
    (retaStep cfg A newA s w t).transfers = t.transfers + 1 := by
  simp only [retaStep]
  rw [if_neg (Nat.not_le.mpr hw)]
  exact if_pos hd

/-- Two changed entries of a row are counted. -/
theorem retaRow_counts {s a b : ℕ} (hab : a ≠ b) (ha : a < cfg.W) (hb : b < cfg.W)
    (hda : A s a ≠ newA s a) (hdb : A s b ≠ newA s b) (t : RetaLoop) :
    t.transfers + 2 ≤ (forRange cfg.totalCores (retaStep cfg A newA s) t).transfers := by
  have hrule := forRange_rule (n := cfg.totalCores) (s := t) (f := retaStep cfg A newA s)
    (fun n t' => t.transfers + ((if a < n then 1 else 0) + if b < n then 1 else 0) ≤ t'.transfers)
    (by simp) ?_
  · have hac : a < cfg.totalCores := Nat.lt_of_lt_of_le ha (Nat.le_add_right _ _)
    have hbc : b < cfg.totalCores := Nat.lt_of_lt_of_le hb (Nat.le_add_right _ _)
    rw [if_pos hac, if_pos hbc] at hrule
    exact hrule
  · intro n _ t' ht
    have hmono := @retaStep_mono cfg A newA s n t'
    by_cases hna : n = a
    · subst hna
      rw [retaStep_counts ha hda]
      split_ifs at ht ⊢ <;> omega
    · by_cases hnb : n = b
      · subst hnb
        rw [retaStep_counts hb hdb]
        split_ifs at ht ⊢ <;> omega
      · split_ifs at ht ⊢ <;> omega

/-- Two entries that differ count twice, so that half of the count is not 0. -/
theorem transfers_two (l : RetaLoop) {s a b : ℕ} (hs : s < cfg.totalShards) (hab : a ≠ b)
    (ha : a < cfg.W) (hb : b < cfg.W) (hda : A s a ≠ newA s a) (hdb : A s b ≠ newA s b) :
    2 ≤ (forRange cfg.totalShards
      (fun s => forRange cfg.totalCores (retaStep cfg A newA s)) l).transfers := by
  have hrule := forRange_rule (n := cfg.totalShards) (s := l)
    (f := fun s => forRange cfg.totalCores (retaStep cfg A newA s))
    (fun i t => s < i → 2 ≤ t.transfers) (fun h => absurd h (Nat.not_lt_zero _)) ?_
  · exact hrule hs
  · intro i _ t ht hsi
    by_cases his : i = s
    · subst his
      exact Nat.le_trans (Nat.le_add_left _ _) (retaRow_counts hab ha hb hda hdb t)
    · have hmono : t.transfers ≤ (forRange cfg.totalCores (retaStep cfg A newA i) t).transfers :=
        forRange_inv (P := fun t' => t.transfers ≤ t'.transfers) (Nat.le_refl _)
          fun w _ t' ht' => Nat.le_trans ht' (retaStep_mono i w t')
      exact Nat.le_trans (ht (by omega)) hmono

end Controller

/-! ## The steering invariant

Between two calls the NIC's table follows the assignment in force. A call either changes nothing, or
pushes a table that follows the new one.
-/

/-- The controller's table and the NIC's both follow the assignment. -/
structure Steered (cfg : Cfg) (σ : Sys D) : Prop where
  /-- every shard is assigned to one working core -/
  oneHot : OneHot cfg σ.A
  /-- every slot is to be changed by a push -/
  masked : Masked cfg σ.retaConf
  /-- slot `k` of the NIC leads to the core that has shard `k mod total_shards` -/
  follows : Follows cfg σ.A σ.nicReta

namespace Steered

theorem congr {σ' : Sys D} (h : Steered cfg σ) (hA : σ'.A = σ.A) (hc : σ'.retaConf = σ.retaConf)
    (hn : σ'.nicReta = σ.nicReta) : Steered cfg σ' :=
  ⟨by rw [hA]; exact h.oneHot, by rw [hc]; exact h.masked, by rw [hA, hn]; exact h.follows⟩

/-- Two different one-hot assignments differ in two entries of a row. -/
theorem two_entries {A newA : ℕ → ℕ → ℕ} (hA : OneHot cfg A) (hnew : OneHot cfg newA) {s v : ℕ}
    (hs : s < cfg.totalShards) (hv : v < cfg.totalCores) (hd : A s v ≠ newA s v) :
    ∃ a < cfg.W, ∃ b < cfg.W, a ≠ b ∧ A s a ≠ newA s a ∧ A s b ≠ newA s b := by
  obtain ⟨a, ha, hrow⟩ := hA s hs
  obtain ⟨b, hb, hrow'⟩ := hnew s hs
  have hac : a < cfg.totalCores := Nat.lt_of_lt_of_le ha (Nat.le_add_right _ _)
  have hbc : b < cfg.totalCores := Nat.lt_of_lt_of_le hb (Nat.le_add_right _ _)
  have hab : a ≠ b := by
    rintro rfl
    exact hd (by rw [hrow v hv, hrow' v hv])
  refine ⟨a, ha, b, hb, hab, ?_, ?_⟩
  · rw [hrow a hac, hrow' a hac, if_pos rfl, if_neg hab]
    exact Nat.one_ne_zero
  · rw [hrow b hbc, hrow' b hbc, if_pos rfl, if_neg hab.symm]
    exact Nat.zero_ne_one

/-- **`update_shards` keeps the steering**, for any one-hot assignment asked for. -/
theorem updateShards (h : Steered cfg σ) (hnew : OneHot cfg σ.newA) :
    Steered cfg (Controller.updateShards cfg σ).1 := by
  simp only [Controller.updateShards]
  split
  · exact h
  · next hdiff =>
    obtain ⟨s, hs, v, hv, hd⟩ : ∃ s < cfg.totalShards, ∃ v < cfg.totalCores,
        σ.A s v ≠ σ.newA s v := by
      simpa [Controller.sameAssignment] using hdiff
    obtain ⟨a, ha, b, hb, hab, hda, hdb⟩ := two_entries h.oneHot hnew hs hv hd
    have htwo := Controller.transfers_two ⟨0, σ.retaConf⟩ hs hab ha hb hda hdb
    obtain ⟨hfollows, hmasked⟩ := Controller.retaLoop_conf (A := σ.A) ⟨0, σ.retaConf⟩ hnew h.masked
    refine ⟨hnew, hmasked, fun k hk => ?_⟩
    have hpush : (forRange cfg.totalShards (fun s => forRange cfg.totalCores
        (Controller.retaStep cfg σ.A σ.newA s)) ⟨0, σ.retaConf⟩).transfers / 2 ≠ 0 := by omega
    simp only [Controller.updateReta, if_pos hpush]
    rw [push_masked hmasked _ hk]
    exact hfollows k hk

/-! ## The initial table -/

/-- The rows are one-hot at the start. -/
theorem init_A : OneHot cfg (Init.A cfg) := by
  intro s hs
  refine ⟨s % cfg.W, Nat.mod_lt _ cfg.W_pos, fun v _ => ?_⟩
  simp [Init.A, hs]

/-- `init_reta` deals the shards to the cores in turn. -/
theorem init_conf : Masked cfg (Init.retaConf cfg) ∧
    ∀ k < cfg.retaSize, slots (Init.retaConf cfg) k = k % cfg.totalShards % cfg.W := by
  -- the masks of all groups that have a slot are set first
  have hmask := forRange_rule (n := cfg.retaSize) (s := fun _ => (⟨0, fun _ => 0⟩ : RetaGroup))
    (f := fun i conf => Function.update conf (i / retaGroupSize)
      { conf (i / retaGroupSize) with mask := 2 ^ 64 - 1 })
    (fun i conf => ∀ k < i, (conf (k / retaGroupSize)).mask = 2 ^ 64 - 1) (by omega) ?_
  · have hrule := forRange_rule (n := cfg.totalShards)
      (f := fun s conf => steerShard cfg s (s % cfg.W) conf)
      (s := forRange cfg.retaSize
        (fun i conf => Function.update conf (i / retaGroupSize)
          { conf (i / retaGroupSize) with mask := 2 ^ 64 - 1 })
        fun _ => (⟨0, fun _ => 0⟩ : RetaGroup))
      (fun i conf => (∀ k < cfg.retaSize, (conf (k / retaGroupSize)).mask = 2 ^ 64 - 1) ∧
        ∀ k < cfg.retaSize, k % cfg.totalShards < i →
          slots conf k = k % cfg.totalShards % cfg.W) ⟨hmask, by omega⟩ ?_
    · refine ⟨fun k hk => ?_, fun k hk => hrule.2 k hk (Nat.mod_lt _ cfg.totalShards_pos)⟩
      have hgroup : k % retaGroupSize < 64 := Nat.mod_lt _ (by decide)
      have hm : (Init.retaConf cfg (k / retaGroupSize)).mask = 2 ^ 64 - 1 := hrule.1 k hk
      rw [hm, Nat.testBit_two_pow_sub_one, decide_eq_true hgroup]
    · rintro s hs conf ⟨hm, hslots⟩
      refine ⟨fun k hk => by rw [steerShard_mask]; exact hm k hk, fun k hk hks => ?_⟩
      rw [slots_steerShard hs]
      by_cases hks' : k % cfg.totalShards = s
      · rw [if_pos ⟨hk, hks'⟩, hks']
      · rw [if_neg fun h => hks' h.2]
        exact hslots k hk (by omega)
  · intro i _ conf hconf k hk
    by_cases hg : k / retaGroupSize = i / retaGroupSize
    · rw [hg, Function.update_self]
    · rw [Function.update_of_ne hg]
      refine hconf k ?_
      have : k ≠ i := by rintro rfl; exact hg rfl
      omega

/-- **The initial table** follows the initial assignment. -/
theorem init_steered [Double D] : Steered cfg (init D cfg) := by
  refine ⟨init_A, init_conf.1, fun k hk => ?_⟩
  have hs : k % cfg.totalShards < cfg.totalShards := Nat.mod_lt _ cfg.totalShards_pos
  have hnic : (init D cfg).nicReta k = k % cfg.totalShards % cfg.W := by
    rw [← init_conf.2 k hk, ← push_masked init_conf.1 (fun _ => 0) hk]
    rfl
  rw [hnic]
  refine ⟨Nat.mod_lt _ cfg.W_pos, fun v _ => ?_⟩
  simp [init, Init.A, hs]

/-! ## Runs -/

variable [Double D]

/-- An epoch that asks for an assignment of the shards. -/
theorem epoch (h : Steered cfg σ) (ans : Option (Answer D)) (vec : ℕ → List FlowKey)
    (hone : AssignsShards cfg (.epoch ans vec : Act D)) :
    Steered cfg (Controller.updateShortEpoch cfg ans vec σ) := by
  have haside : ∀ {σ₁ σ₂ : Sys D}, Controller.Aside σ₁ σ₂ → Steered cfg σ₁ → Steered cfg σ₂ :=
    fun ha hs => hs.congr ha.unmoved.A ha.unmoved.retaConf ha.unmoved.nicReta
  have hbefore := haside (Controller.beforeSolver_aside cfg σ) h
  simp only [Controller.updateShortEpoch]
  refine haside (Controller.afterSolver_aside cfg _ vec _) ?_
  cases ans with
  | none => exact hbefore
  | some ans =>
    dsimp only
    split
    · have hshards := haside (Controller.beforeShards_aside cfg _ ans) hbefore
      have hupdate := hshards.updateShards (by rw [Controller.updateRelationship_newA]; exact hone)
      simp only [Controller.applyAnswer]
      split
      · exact haside Controller.sendSignals_aside hupdate
      · exact hupdate
    · exact hbefore

/-- **Every step keeps the steering.** -/
theorem step (h : Steered cfg σ) (hwired : Wired cfg σ) {a : Act D} (ha : Possible cfg σ a)
    (hone : AssignsShards cfg a) : Steered cfg (step cfg σ a) := by
  cases a with
  | arrive p => exact h.congr rfl rfl rfl
  | epoch ans vec => exact h.epoch ans vec hone
  | work w inp =>
    have hl := hwired.runTask_localTo ha inp
    exact h.congr hl.A hl.retaConf hl.nicReta
  | offload e accept =>
    obtain ⟨core, ring, transmitted, lost, heq, -⟩ := OffloadingCore.runTask_eq cfg e accept σ
    rw [Fajita.step, heq]
    exact h.congr rfl rfl rfl

end Steered

/-- A steered packet reaches the core that has its shard, if the two reductions agree. -/
theorem Steered.reaches (h : Steered cfg σ) (hW : 2 ≤ cfg.W) (hdvd : cfg.totalShards ∣ cfg.retaSize)
    (p : Packet) : RowIs cfg σ.A (cfg.shardOf p) (σ.rxQueue cfg p) := by
  have hrow := h.follows (p.rss % cfg.retaSize) (Nat.mod_lt _ cfg.retaSize_pos)
  rw [Nat.mod_mod_of_dvd _ hdvd] at hrow
  have hW1 : cfg.W ≠ 1 := by omega
  rw [Cfg.shardOf, Cfg.hashValue, if_neg hW1]
  exact hrow

/-! ## Sequences of `update_shards` calls -/

section

variable [Double D]

/-- The state after `init_dpdk` and `update_shards` calls for the assignments `As`. -/
def afterCalls (D : Type) [Double D] (cfg : Cfg) (As : List (ℕ → ℕ → ℕ)) : Sys D :=
  runFrom (fun σ A => (Controller.updateShards cfg { σ with newA := A }).1) (init D cfg) As

/-- **Any sequence of calls of `update_shards`** leaves the table steered. -/
theorem afterCalls_steered {As : List (ℕ → ℕ → ℕ)} (hAs : ∀ A ∈ As, OneHot cfg A) :
    Steered cfg (afterCalls D cfg As) := by
  have hC : Along (fun σ A => (Controller.updateShards cfg { σ with newA := A }).1)
      (fun _ A => OneHot cfg A) (init D cfg) As := by
    rw [along_iff_split]
    rintro pre A post rfl
    exact hAs A (List.mem_append_right _ (List.mem_cons_self ..))
  exact hC.inv (fun σ A h hA =>
    Steered.updateShards (σ := { σ with newA := A }) (h.congr rfl rfl rfl) hA) Steered.init_steered

/-- Shard 0 on core 0, all other shards on core 1. -/
def splitOff (s v : ℕ) : ℕ := if v = (if s = 0 then 0 else 1) then 1 else 0

theorem splitOff_row (hW : 2 ≤ cfg.W) (s : ℕ) :
    RowIs cfg splitOff s (if s = 0 then 0 else 1) := by
  refine ⟨?_, fun v _ => rfl⟩
  split <;> omega

/-- After `init_dpdk` and any `update_shards` calls, every slot of the NIC leads to
the core that has its shard. -/
def SlotsAgree (D : Type) [Double D] (cfg : Cfg) : Prop :=
  ∀ As : List (ℕ → ℕ → ℕ), (∀ A ∈ As, OneHot cfg A) → ∀ k < cfg.retaSize,
    RowIs cfg (afterCalls D cfg As).A (k % cfg.totalShards) ((afterCalls D cfg As).nicReta k)

/-- For every assignment, every 32-bit hash reaches the core that has its shard. -/
def HashesAgree (D : Type) [Double D] (cfg : Cfg) : Prop :=
  ∀ As : List (ℕ → ℕ → ℕ), (∀ A ∈ As, OneHot cfg A) → ∀ p : Packet, p.rss < 2 ^ 32 →
    RowIs cfg (afterCalls D cfg As).A (cfg.shardOf p) ((afterCalls D cfg As).rxQueue cfg p)

/-- **RSS steering agrees with sharding** slot by slot; and hash by hash exactly
when the number of shards divides the size of the table. -/
theorem steering (hW : 2 ≤ cfg.W) :
    SlotsAgree D cfg ∧ (HashesAgree D cfg ↔ cfg.totalShards ∣ cfg.retaSize) := by
  refine ⟨fun As hAs => (afterCalls_steered hAs).follows, fun hall => ?_, fun hdvd As hAs p _ =>
    (afterCalls_steered hAs).reaches hW hdvd p⟩
  -- a packet whose hash is the size of the table lands in slot 0
  let p : Packet := ⟨0, ⟨0, 0, 0, 0⟩, cfg.retaSize, 0, 0⟩
  have hone : ∀ A ∈ [splitOff], OneHot cfg A := by
    intro A hA s _
    rw [List.mem_singleton.mp hA]
    exact ⟨_, (splitOff_row hW s).1, (splitOff_row hW s).2⟩
  have hrows : ∀ s < cfg.totalShards, RowIs cfg (afterCalls D cfg [splitOff]).A s
      (if s = 0 then 0 else 1) := by
    intro s hs
    refine ⟨(splitOff_row hW s).1, fun v hv => ?_⟩
    exact (Controller.updateShards_moved cfg { init D cfg with newA := splitOff }).A s hs v hv
  have hpacket := hall [splitOff] hone p (by
    have := cfg.retaSize_le
    change cfg.retaSize < 2 ^ 32
    omega)
  have hslot := (afterCalls_steered (D := D) hone).follows 0 cfg.retaSize_pos
  have hqueue : (afterCalls D cfg [splitOff]).rxQueue cfg p =
      (afterCalls D cfg [splitOff]).nicReta 0 := by
    rw [Sys.rxQueue, Nat.mod_self]
  have hshard : cfg.shardOf p = cfg.retaSize % cfg.totalShards := by
    have hW1 : cfg.W ≠ 1 := by omega
    rw [Cfg.shardOf, Cfg.hashValue, if_neg hW1]
  rw [hqueue, hshard] at hpacket
  rw [Nat.zero_mod] at hslot
  have h0 := hslot.unique (hrows 0 cfg.totalShards_pos)
  have hr := hpacket.unique (hrows _ (Nat.mod_lt _ cfg.totalShards_pos))
  rw [h0, if_pos rfl] at hr
  by_contra hndvd
  rw [if_neg fun hz => hndvd (Nat.dvd_of_mod_eq_zero hz)] at hr
  exact Nat.zero_ne_one hr

end

/-- Two cores, two shards and two slots. -/
theorem steering_small : SlotsAgree ℚ (Small.router 0) ∧
    (HashesAgree ℚ (Small.router 0) ↔ (Small.router 0).totalShards ∣ (Small.router 0).retaSize) :=
  steering (by decide)

end Fajita
