import Fajita.Steps

/-!
# Hand-over agreement

When nothing is under way any more, the worker a shard is assigned to should be
its owner. A shard is *settled* with its owner or *in flight* to the worker it is
assigned to (`Handed`), and two places of the code take it out of this order:

* the `had_changes` branch of `process` on a core that is not working off its
  ring: it clears the news of a release without starting the acquisition
  (`Slips`);
* an assignment back to the core that is still the owner of a shard in flight:
  `migration_shard` returns at once, and the shard stays on its way to the core
  it was assigned to before (`Recalls`).

Runs without the two reach agreement: `agreed_of_quiescent`.
-/

namespace Fajita

variable {D : Type} {cfg : Cfg} {σ : Sys D} {w : ℕ}

/-- Every shard is owned by the one core it is assigned to, and on its way to no
other. -/
def Agreed (cfg : Cfg) (σ : Sys D) : Prop :=
  ∀ s < cfg.totalShards, (σ.shards s).ownerNew = uint32Max ∧
    ∀ v < cfg.totalCores, σ.A s v = 1 ↔ v = (σ.shards s).owner

/-- Nothing is under way. -/
structure Quiescent (cfg : Cfg) (σ : Sys D) : Prop where
  /-- no core is to give shards away -/
  transferShard : ∀ w < cfg.W, σ.transferShard w = false
  /-- no core is signalled -/
  controllerSignal : ∀ w < cfg.W, σ.controllerSignal w = false
  /-- no core is to learn of a release -/
  hadChanges : ∀ w < cfg.W, σ.hadChanges w = false
  /-- no shard is paused -/
  pause : ∀ s < cfg.totalShards, (σ.shards s).pause = false
  /-- no core works off its ring -/
  myown : ∀ w < cfg.W, (σ.worker w).myown = false

/-- A task of core `w` drops the news that a shard has been released to it. -/
def Slips (cfg : Cfg) (w : ℕ) (σ : Sys D) : Prop :=
  (σ.worker w).myown = false ∧ σ.hadChanges w = true ∧ WorkingCore.releasedTo cfg w σ = true

/-- The answer assigns a shard anew to the core that is still its owner. -/
def Recalls (cfg : Cfg) (ans : Option (Answer D)) (σ : Sys D) : Prop :=
  ∃ s < cfg.totalShards, Controller.asked cfg ans σ s (σ.shards s).owner = 1 ∧
    σ.A s (σ.shards s).owner ≠ 1

/-- The step neither drops the news of a release nor recalls a shard in flight. -/
def NoSlipNoRecall (cfg : Cfg) (σ : Sys D) : Act D → Prop
  | .work w _ => ¬ Slips cfg w σ
  | .epoch ans _ => ¬ Recalls cfg ans σ
  | _ => True

/-- A shard is settled with the core it is assigned to, or in flight to it. -/
def Handed (cfg : Cfg) (σ : Sys D) : Prop :=
  ∀ s < cfg.totalShards, ∃ a < cfg.W, (∀ v < cfg.totalCores, σ.A s v = if v = a then 1 else 0) ∧
    (((σ.shards s).ownerNew = uint32Max ∧ (σ.shards s).owner = a ∧ (σ.shards s).pause = false) ∨
      ((σ.shards s).ownerNew = a ∧ (σ.shards s).owner ≠ a ∧
        ((σ.shards s).pause = true ∨ σ.hadChanges a = true)))

theorem Handed.oneHot (h : Handed cfg σ) : OneHot cfg σ.A := fun s hs => by
  obtain ⟨a, ha, hrow, -⟩ := h s hs
  exact ⟨a, ha, hrow⟩

/-- The assignment an epoch puts in force. -/
theorem asked_oneHot (h : OneHot cfg σ.A) {ans : Option (Answer D)} {vec : ℕ → List FlowKey}
    (hone : AssignsShards cfg (.epoch ans vec : Act D)) :
    OneHot cfg (Controller.asked cfg ans σ) := by
  simp only [Controller.asked]
  cases ans with
  | none => exact h
  | some ans =>
    dsimp only
    split
    · exact hone
    · exact h

/-- At rest, a state in order is a state of agreement. -/
theorem Handed.agreed (h : Handed cfg σ) (hq : Quiescent cfg σ) : Agreed cfg σ := by
  intro s hs
  obtain ⟨a, ha, hrow, ⟨hnew, how, -⟩ | ⟨-, -, hp | hc⟩⟩ := h s hs
  · refine ⟨hnew, fun v hv => ?_⟩
    rw [hrow v hv, how]
    by_cases hva : v = a <;> simp [hva]
  · rw [hq.pause s hs] at hp
    cases hp
  · rw [hq.hadChanges a ha] at hc
    cases hc

/-- The start: an agreed state at rest with a one-hot assignment. -/
theorem Agreed.handed (h : Agreed cfg σ) (hA : OneHot cfg σ.A) (hq : Quiescent cfg σ) :
    Handed cfg σ := by
  intro s hs
  obtain ⟨a, ha, hrow⟩ := hA s hs
  have hac : a < cfg.totalCores := Nat.lt_of_lt_of_le ha (Nat.le_add_right _ _)
  have how : (σ.shards s).owner = a :=
    (((h s hs).2 a hac).mp (by rw [hrow a hac, if_pos rfl])).symm
  exact ⟨a, ha, hrow, Or.inl ⟨(h s hs).1, how, hq.pause s hs⟩⟩

namespace WorkingCore

/-! ## The hand-over state along a task

A task either leaves the hand-over state of the shards as it was, or releases shards, or acquires
some. Everything that is known of the shard that changes hands is collected for these three cases,
and the invariant is checked against them.
-/

/-- Serving the signal keeps the hand-over state or releases the shards of the core. -/
theorem serveSignal_kept_or_released (cfg : Cfg) (w : ℕ) (drains : List ℕ) (σ : Sys D) :
    Kept σ (serveSignal cfg w drains σ) ∨ Released cfg w σ (serveSignal cfg w drains σ) := by
  obtain ⟨hkept, -⟩ := @beforeShard_kept _ cfg σ w
  simp only [serveSignal]
  split
  · rcases @serveShard_cases _ cfg (beforeShard cfg w σ) w drains with ⟨hk, -⟩ | ⟨-, -, hr⟩
    · exact Or.inl ((hkept.trans hk).congr rfl rfl)
    · exact Or.inr ((Released.of_kept hkept hr).congr rfl rfl)
  · exact Or.inl (.refl σ)

/-- `process` touches local queues, but not the ownership of a shard. -/
theorem processChanges_ownership (cfg : Cfg) (w : ℕ) (σ : Sys D) (s : ℕ) :
    ((processChanges cfg w σ).shards s).owner = (σ.shards s).owner ∧
      ((processChanges cfg w σ).shards s).ownerNew = (σ.shards s).ownerNew ∧
        ((processChanges cfg w σ).shards s).pause = (σ.shards s).pause := by
  simp only [processChanges]
  split
  · refine forRange_inv (P := fun l : ChangesLoop D => (l.shards s).owner = (σ.shards s).owner ∧
      (l.shards s).ownerNew = (σ.shards s).ownerNew ∧ (l.shards s).pause = (σ.shards s).pause)
      ⟨rfl, rfl, rfl⟩ ?_
    intro i _ l hl
    simp only [takeLocal]
    split
    · by_cases hi : s = i
      · subst hi
        simpa [updateShard] using hl
      · simpa [updateShard, Function.update_of_ne hi] using hl
    · exact hl
  · exact ⟨rfl, rfl, rfl⟩

theorem processChanges_news (cfg : Cfg) (w : ℕ) (σ : Sys D) (v : ℕ) :
    (processChanges cfg w σ).hadChanges v = if v = w then false else σ.hadChanges v := by
  simp only [processChanges]
  split
  · by_cases hv : v = w
    · subst hv
      simp [serveChanges]
    · simp [serveChanges, hv]
  · next hno =>
    by_cases hv : v = w
    · subst hv
      simpa using hno
    · rw [if_neg hv]

end WorkingCore

namespace WorkingCore

/-- No task changes the assignment. -/
theorem Stage.A [Double D] {σ' : Sys D} (hs : Stage cfg w σ σ') : σ'.A = σ.A := by
  cases hs with
  | exchange => exact exchange_repointed.A
  | withdraw => exact withdraw_repointed.A
  | announce => exact announce_repointed.A
  | adopt => exact adopt_repointed.A
  | takeBack => unfold WorkingCore.takeBack; split <;> rfl
  | processChanges => unfold WorkingCore.processChanges; split <;> rfl
  | takeRatios | receiveAll | releaseAll | doneR | doneOffloading | doneShard | doneSignal
  | forward | drained | workOff => rfl

end WorkingCore

namespace Handed

open WorkingCore

/-- Only the ownership of the shards, the news and the assignment matter. -/
theorem congr {σ' : Sys D} (h : Handed cfg σ) (hA : σ'.A = σ.A)
    (hs : ∀ s, (σ'.shards s).owner = (σ.shards s).owner ∧
      (σ'.shards s).ownerNew = (σ.shards s).ownerNew ∧
        (σ'.shards s).pause = (σ.shards s).pause)
    (hc : σ'.hadChanges = σ.hadChanges) : Handed cfg σ' := by
  intro s hlt
  rw [hA, (hs s).1, (hs s).2.1, (hs s).2.2, hc]
  exact h s hlt

/-- The drained branch. -/
theorem drained (h : Handed cfg σ) (hw : w < cfg.W) : Handed cfg (drained cfg w σ) := by
  obtain ⟨hshards, hnews⟩ := @drained_spec _ cfg σ w
  intro s hs
  obtain ⟨a, ha, hrow, hcase⟩ := h s hs
  have hmax := Cfg.ne_uint32Max ha
  refine ⟨a, ha, hrow, ?_⟩
  rw [hshards s, if_pos hs]
  rcases hcase with ⟨hnew, how, hp⟩ | ⟨hnew, how, hpc⟩
  · have hkeep : drainedShard w (σ.shards s) = σ.shards s :=
      drainedShard_of_keep (fun hr => hr.2.2 hnew)
        fun hq => Cfg.ne_uint32Max hw (hq.2.symm.trans hnew)
    rw [hkeep]
    exact Or.inl ⟨hnew, how, hp⟩
  · by_cases hrel : (σ.shards s).pause = true ∧ (σ.shards s).owner = w
    · -- released by its owner, and its new owner told
      have hne : (σ.shards s).ownerNew ≠ w := by
        rw [hnew, ← hrel.2]
        exact fun haw => how haw.symm
      rw [drainedShard_of_release hrel.1 hrel.2 (by rw [hnew]; exact hmax) hne]
      refine Or.inr ⟨hnew, how, Or.inr ((hnews a).mpr (Or.inr ⟨s, hs, ⟨hrel.1, hrel.2, ?_⟩, hnew⟩))⟩
      rw [hnew]
      exact hmax
    · by_cases hacq : (σ.shards s).pause = false ∧ (σ.shards s).ownerNew = w
      · rw [drainedShard_of_acquire hacq.1 hacq.2]
        exact Or.inl ⟨rfl, hacq.2.symm.trans hnew, hacq.1⟩
      · rw [drainedShard_of_keep (fun hr => hrel ⟨hr.1, hr.2.1⟩) hacq]
        exact Or.inr ⟨hnew, how, hpc.imp_right fun hc => (hnews a).mpr (Or.inl hc)⟩

/-- A release by the owner. -/
theorem released {σ' : Sys D} (h : Handed cfg σ) (hr : Released cfg w σ σ') (hA : σ'.A = σ.A) :
    Handed cfg σ' := by
  intro s hs
  obtain ⟨a, ha, hrow, hcase⟩ := h s hs
  have hmax := Cfg.ne_uint32Max ha
  refine ⟨a, ha, by rw [hA]; exact hrow, ?_⟩
  rw [hr.owner, hr.ownerNew]
  rcases hcase with ⟨hnew, how, hp⟩ | ⟨hnew, how, hpc⟩
  · refine Or.inl ⟨hnew, how, Bool.eq_false_iff.mpr fun hp' => ?_⟩
    rw [((hr.pause s).mp hp').1] at hp
    cases hp
  · refine Or.inr ⟨hnew, how, ?_⟩
    by_cases hout : (σ.shards s).owner = w
    · refine Or.inr ((hr.hadChanges a).mpr (Or.inr ⟨s, hs, ⟨hout, ?_⟩, hnew⟩))
      rw [hnew]
      exact hmax
    · rcases hpc with hp | hc
      · exact Or.inl ((hr.pause s).mpr ⟨hp, fun hall => hout hall.2.1⟩)
      · exact Or.inr ((hr.hadChanges a).mpr (Or.inl hc))

/-- `process`, when it drops no news. -/
theorem processChanges (h : Handed cfg σ)
    (hnews : σ.hadChanges w = true → releasedTo cfg w σ = false) :
    Handed cfg (processChanges cfg w σ) := by
  intro s hs
  obtain ⟨a, ha, hrow, hcase⟩ := h s hs
  obtain ⟨howner, hownerNew, hpause⟩ := processChanges_ownership cfg w σ s
  have hA : (WorkingCore.processChanges cfg w σ).A = σ.A := by
    unfold WorkingCore.processChanges
    split <;> rfl
  rw [hA, howner, hownerNew, hpause]
  refine ⟨a, ha, hrow, hcase.imp_right fun ⟨hnew, how, hpc⟩ => ⟨hnew, how, ?_⟩⟩
  rw [processChanges_news]
  by_cases haw : a = w
  · subst haw
    left
    rcases hpc with hp | hc
    · exact hp
    · by_contra hp
      have hrel : releasedTo cfg a σ = true := by
        rw [releasedTo, decide_eq_true_eq]
        exact ⟨s, hs, hnew, by simpa using hp⟩
      rw [hnews hc] at hrel
      cases hrel
  · rw [if_neg haw]
    exact hpc

variable [Double D]

/-- The signal block of a task that does not slip: no shard is released to the core itself
while `had_changes` is set. -/
theorem serveSignal (h : Handed cfg σ) (hw : w < cfg.W) (drains : List ℕ)
    (hm : (σ.worker w).myown = false) (hslip : ¬ Slips cfg w σ) :
    Handed cfg (WorkingCore.serveSignal cfg w drains σ) ∧
      ((WorkingCore.serveSignal cfg w drains σ).hadChanges w = true →
        releasedTo cfg w (WorkingCore.serveSignal cfg w drains σ) = false) := by
  have hA : (WorkingCore.serveSignal cfg w drains σ).A = σ.A :=
    Stage.inv (P := fun σ' => σ'.A = σ.A) (fun _ _ hσ hs => hs.A.trans hσ) rfl
      (serveSignal_stages drains)
  rcases serveSignal_kept_or_released cfg w drains σ with hk | hr
  · refine ⟨h.congr hA (fun s => ⟨hk.handover.owner s, hk.handover.ownerNew s,
      hk.handover.pause s⟩) hk.hadChanges, fun hc => ?_⟩
    rw [hk.hadChanges] at hc
    by_contra hrel
    simp only [releasedTo, hk.handover.ownerNew, hk.handover.pause] at hrel
    exact hslip ⟨hm, hc, by simpa [releasedTo] using hrel⟩
  · -- the core releases no shard to itself
    refine ⟨h.released hr hA, fun _ => ?_⟩
    rw [releasedTo, decide_eq_false_iff_not]
    rintro ⟨s, hs, hnew', hp'⟩
    rw [hr.ownerNew] at hnew'
    obtain ⟨a, -, -, ⟨hnew, -, -⟩ | ⟨hnew, how, hpc⟩⟩ := h s hs
    · exact Cfg.ne_uint32Max hw (hnew'.symm.trans hnew)
    · obtain rfl : a = w := hnew.symm.trans hnew'
      have hp : (σ.shards s).pause = false := by
        by_contra hp
        have hstill := (hr.pause s).mpr ⟨by simpa using hp, fun hall => how hall.2.1⟩
        rw [hp'] at hstill
        cases hstill
      have hc : σ.hadChanges a = true := hpc.resolve_left (by rw [hp]; exact Bool.false_ne_true)
      refine hslip ⟨hm, hc, ?_⟩
      rw [releasedTo, decide_eq_true_eq]
      exact ⟨s, hs, hnew, hp⟩

/-- A task that does not slip. -/
theorem runTask (h : Handed cfg σ) (hw : w < cfg.W) (inp : TaskInput) (hslip : ¬ Slips cfg w σ) :
    Handed cfg (runTask cfg w inp σ).1 := by
  simp only [WorkingCore.runTask]
  cases hm : (σ.worker w).myown with
  | true =>
    rw [if_pos rfl]
    split
    · exact h.drained hw
    · have hh := @workOff_sameHandover _ cfg σ w _ inp.accept
      exact h.congr rfl (fun s => ⟨hh.owner s, hh.ownerNew s, hh.pause s⟩) rfl
  | false =>
    rw [if_neg Bool.false_ne_true]
    have hsig := h.serveSignal hw inp.drains hm hslip
    have hp := hsig.1.processChanges hsig.2
    have hh := @forward_sameHandover _ cfg
      (WorkingCore.processChanges cfg w (WorkingCore.serveSignal cfg w inp.drains σ)) w _ inp.accept
      (processBatch cfg w inp.rx (WorkingCore.processChanges cfg w
        (WorkingCore.serveSignal cfg w inp.drains σ)))
    exact hp.congr rfl (fun s => ⟨hh.owner s, hh.ownerNew s, hh.pause s⟩) rfl

/-- An epoch that recalls no shard in flight. -/
theorem epoch (h : Handed cfg σ) (ans : Option (Answer D)) (vec : ℕ → List FlowKey)
    (hone : AssignsShards cfg (.epoch ans vec : Act D)) (hrecall : ¬ Recalls cfg ans σ) :
    Handed cfg (Controller.updateShortEpoch cfg ans vec σ) := by
  have hf := Controller.updateShortEpoch_frame cfg σ ans vec
  have hmv := Controller.updateShortEpoch_moved cfg σ ans vec
  intro s hs
  obtain ⟨a, ha, hrow, hcase⟩ := h s hs
  -- the row the epoch puts in force
  obtain ⟨b, hb, hask⟩ := asked_oneHot h.oneHot hone s hs
  have hbc : b < cfg.totalCores := Nat.lt_of_lt_of_le hb (Nat.le_add_right _ _)
  refine ⟨b, hb, fun v hv => by rw [hmv.A s hs v hv, hask v hv], ?_⟩
  rw [hf.owner, hf.hadChanges]
  by_cases hba : b = a
  · -- the assignment stays
    subst hba
    obtain ⟨hpause, hnew⟩ := hmv.kept hrow hask
    rw [hpause, hnew]
    exact hcase
  · -- the shard is moved to `b`, which is not its owner
    have how : (σ.shards s).owner ≠ b := by
      intro how
      have hrec : ¬ (Controller.asked cfg ans σ s b = 1 ∧ σ.A s b ≠ 1) := fun hr =>
        hrecall ⟨s, hs, by rw [how]; exact hr⟩
      rw [hask b hbc, hrow b hbc, if_pos rfl, if_neg hba] at hrec
      exact hrec ⟨rfl, Nat.zero_ne_one⟩
    obtain ⟨hpause, hnew⟩ := hmv.sent hs hbc hrow hask hba how
    exact Or.inr ⟨hnew, how, Or.inl hpause⟩

/-- **Every step that neither slips nor recalls keeps the order.** -/
theorem step (h : Handed cfg σ) {a : Act D} (ha : Possible cfg σ a ∧ AssignsShards cfg a)
    (hno : NoSlipNoRecall cfg σ a) : Handed cfg (step cfg σ a) := by
  cases a with
  | arrive p => exact h.congr rfl (fun _ => ⟨rfl, rfl, rfl⟩) rfl
  | epoch ans vec => exact h.epoch ans vec ha.2 hno
  | work w inp => exact h.runTask ha.1 inp hno
  | offload e accept =>
    obtain ⟨core, ring, transmitted, lost, heq, -⟩ := OffloadingCore.runTask_eq cfg e accept σ
    rw [Fajita.step, heq]
    exact h.congr rfl (fun _ => ⟨rfl, rfl, rfl⟩) rfl

end Handed

/-! ## Runs

Rest, agreement and the conditions on the steps can be computed, so that the runs at the end of this
file are checked by evaluation.
-/

instance (ans : Option (Answer D)) (σ : Sys D) : Decidable (Recalls cfg ans σ) :=
  inferInstanceAs (Decidable (∃ s < cfg.totalShards, _ ∧ _))

instance (σ : Sys D) : Decidable (Slips cfg w σ) := inferInstanceAs (Decidable (_ ∧ _ ∧ _))

instance (σ : Sys D) : DecidablePred (NoSlipNoRecall cfg σ)
  | .work w _ => inferInstanceAs (Decidable (¬ Slips cfg w σ))
  | .epoch ans _ => inferInstanceAs (Decidable (¬ Recalls cfg ans σ))
  | .arrive _ => inferInstanceAs (Decidable True)
  | .offload _ _ => inferInstanceAs (Decidable True)

instance (σ : Sys D) : Decidable (Agreed cfg σ) :=
  inferInstanceAs (Decidable (∀ s < cfg.totalShards, _ ∧ ∀ v < cfg.totalCores, _))

instance (σ : Sys D) : Decidable (Quiescent cfg σ) :=
  decidable_of_iff ((∀ w < cfg.W, σ.transferShard w = false) ∧
      (∀ w < cfg.W, σ.controllerSignal w = false) ∧ (∀ w < cfg.W, σ.hadChanges w = false) ∧
        (∀ s < cfg.totalShards, (σ.shards s).pause = false) ∧
          ∀ w < cfg.W, (σ.worker w).myown = false)
    ⟨fun ⟨h₁, h₂, h₃, h₄, h₅⟩ => ⟨h₁, h₂, h₃, h₄, h₅⟩,
      fun ⟨h₁, h₂, h₃, h₄, h₅⟩ => ⟨h₁, h₂, h₃, h₄, h₅⟩⟩

variable [Double D]

/-- **Hand-over agreement.** From any agreed state at rest, in every run whose
epochs assign each shard to one working core, and in which no task drops the news
of a release and no epoch recalls a shard in flight: whenever the system is at
rest again, it agrees. -/
theorem agreed_of_quiescent {σ : Sys D} {acts : List (Act D)} (hone : OneHot cfg σ.A)
    (hagreed : Agreed cfg σ) (hrest : Quiescent cfg σ)
    (hC : Along (step cfg)
      (fun σ a => (Possible cfg σ a ∧ AssignsShards cfg a) ∧ NoSlipNoRecall cfg σ a) σ acts)
    (hquiet : Quiescent cfg (runFrom (step cfg) σ acts)) :
    Agreed cfg (runFrom (step cfg) σ acts) :=
  (hC.inv (I := Handed cfg) (fun _ _ h ha => h.step ha.1 ha.2)
    (hagreed.handed hone hrest)).agreed hquiet

/-! ## What goes wrong -/

namespace Small

/-- The router at rest: as configured, but with no shard on its way to core 0. -/
def atRest (E : Fin 3) : Sys ℚ :=
  { init ℚ (router E) with
    shards := fun s => { Init.shard ℚ (router E) s with ownerNew := uint32Max } }

/-- Shard 0 is moved to core 1, core 0 releases it, core 1 learns of it. -/
def handOverRun : List (Act ℚ) :=
  [.epoch (some (answer (fun _ => 1) (fun _ => 2) fun _ => 0)) fun _ => [], .work 0 (task 1),
    .work 1 (task 1)]

/-- All is quiet again, but core 0 is still the owner and core 1 still on its way
to be. -/
theorem handOverRun_disagrees :
    OneHot (router 0) (atRest 0).A ∧ Agreed (router 0) (atRest 0) ∧
      Quiescent (router 0) (atRest 0) ∧
      Along (step (router 0)) (fun σ a => Possible (router 0) σ a ∧ AssignsShards (router 0) a)
        (atRest 0) handOverRun ∧
      Quiescent (router 0) (runFrom (step (router 0)) (atRest 0) handOverRun) ∧
      ¬ Agreed (router 0) (runFrom (step (router 0)) (atRest 0) handOverRun) := by
  decide +kernel

/-- The router at rest with a packet on its way from core 1 to an offloading core. -/
def atRestOffloading : Sys ℚ :=
  { atRest 1 with
    ring := Function.update (atRest 1).ring (.queue 1) ⟨4095, [packet 7 1], by decide⟩ }

/-- Shard 0 is moved to core 1 and the share of shard 1 changes, so core 1 is
working off its ring when core 0 releases shard 0. -/
def timelyRun : List (Act ℚ) :=
  [.epoch (some (answer (fun _ => 1) (fun _ => 0) fun s => if s = 1 then 1 / 2 else 0)) fun _ => [],
    .work 1 (task 1), .work 0 (task 1), .work 1 (task 1), .work 1 (task 1), .work 1 (task 1)]

theorem timelyRun_agrees :
    Agreed (router 1) (runFrom (step (router 1)) atRestOffloading timelyRun) :=
  agreed_of_quiescent (by decide +kernel) (by decide +kernel) (by decide +kernel)
    (by decide +kernel) (by decide +kernel)

end Small

end Fajita
