import Fajita.Steps

/-!
# No stranded packets, no stuck pause

A working core that is not working off its own ring should have nothing in it,
and every shard that waits for it to be drained should still be announced to it
by `transfer_shard` (`Unstuck`). Both hold in every run in which no task of a
core strands the packets it has just taken back (`NoStrand`): the `had_changes`
branch of `process` clears `myown` unconditionally, also when a transfer routine
of the same task has just set it.
-/

namespace Fajita

variable {D : Type} {cfg : Cfg} {σ : Sys D} {w : ℕ}

/-- Core `w` owns shard `s`, which is paused on its way to another core. -/
def Outgoing (σ : Sys D) (w s : ℕ) : Prop :=
  (σ.shards s).owner = w ∧ (σ.shards s).pause = true ∧ (σ.shards s).ownerNew ≠ uint32Max

instance (σ : Sys D) (w s : ℕ) : Decidable (Outgoing σ w s) :=
  inferInstanceAs (Decidable (_ ∧ _ ∧ _))

/-- Nothing is stranded at core `w` and no pause that it should end is stuck. -/
def Unstuck (cfg : Cfg) (w : ℕ) (σ : Sys D) : Prop :=
  (σ.worker w).myown = false →
    σ.myItems w = [] ∧ ∀ s < cfg.totalShards, Outgoing σ w s → σ.transferShard w = true

instance (cfg : Cfg) (w : ℕ) (σ : Sys D) : Decidable (Unstuck cfg w σ) :=
  inferInstanceAs (Decidable (_ → _ ∧ ∀ s < cfg.totalShards, _ → _))

/-- The second half of `Unstuck`. -/
def Announced (cfg : Cfg) (w : ℕ) (σ : Sys D) : Prop :=
  (σ.worker w).myown = false →
    ∀ s < cfg.totalShards, Outgoing σ w s → σ.transferShard w = true

namespace Announced

open WorkingCore

/-- A step that makes no shard of the core outgoing and takes back no announcement. -/
theorem of_le {σ' : Sys D} (ha : Announced cfg w σ)
    (hown : (σ'.worker w).myown = (σ.worker w).myown)
    (hout : ∀ s < cfg.totalShards, Outgoing σ' w s → Outgoing σ w s)
    (hflag : σ.transferShard w = true → σ'.transferShard w = true) : Announced cfg w σ' :=
  fun hm s hs ho => hflag (ha (by rw [← hown, hm]) s hs (hout s hs ho))

/-- What was announced stays announced where no shard changes hands. -/
theorem of_handover {σ' : Sys D} (ha : Announced cfg w σ) (hh : SameHandover σ σ')
    (hown : (σ'.worker w).myown = (σ.worker w).myown)
    (hflag : σ'.transferShard w = σ.transferShard w) : Announced cfg w σ' := by
  refine ha.of_le hown (fun s _ ho => ?_) (fun h => by rw [hflag, h])
  rw [Outgoing, hh.owner, hh.pause, hh.ownerNew] at ho
  exact ho

/-- A core that has drained its ring has nothing to announce. -/
theorem drained : Announced cfg w (drained cfg w σ) := by
  rintro - s hs ⟨ho, hp, hn⟩
  exfalso
  rw [drained_spec.1, if_pos hs] at ho hp hn
  unfold drainedShard drainedReleased at ho hp hn
  split_ifs at ho hp hn <;> simp_all

variable [Double D]

/-- A task of the core itself. -/
theorem runTask (ha : Announced cfg w σ) (h : Wired cfg σ) (hw : w < cfg.W) (inp : TaskInput)
    (hstrand : ¬ Strands cfg w σ) : Announced cfg w (runTask cfg w inp σ).1 := by
  cases hm : (σ.worker w).myown with
  | true =>
    rw [WorkingCore.runTask, if_pos hm]
    split
    · exact drained
    · intro hm'
      have : (σ.worker w).myown = false := hm'
      rw [hm] at this
      cases this
  | false =>
    intro hm' s hs ho
    have hserves := serveSignal_serves h hw inp.drains
    have hh := runTask_sameHandover h hw inp hm
    have hrun : WorkingCore.runTask cfg w inp σ = forward cfg w inp.accept
        (processBatch cfg w inp.rx (processChanges cfg w (serveSignal cfg w inp.drains σ)))
        (processChanges cfg w (serveSignal cfg w inp.drains σ)) := by
      rw [WorkingCore.runTask, hm, if_neg Bool.false_ne_true]
    have hflag : (WorkingCore.runTask cfg w inp σ).1.transferShard =
        (serveSignal cfg w inp.drains σ).transferShard := by
      have hchanges : (processChanges cfg w (serveSignal cfg w inp.drains σ)).transferShard =
          (serveSignal cfg w inp.drains σ).transferShard := by
        rw [processChanges_eq hserves.wired.noLocal]
        rfl
      rw [hrun]
      exact hchanges
    have hm₂ : ((processChanges cfg w (serveSignal cfg w inp.drains σ)).worker w).myown =
        false := by
      rw [hrun] at hm'
      exact hm'
    rw [hflag]
    rw [Outgoing, hh.owner, hh.pause, hh.ownerNew] at ho
    rcases serveSignal_cases h hw inp.drains hm with ⟨hk, hkept | hraise⟩ | ⟨hr, -⟩
    · rw [hk.handover.owner, hk.handover.pause, hk.handover.ownerNew] at ho
      rw [hkept]
      exact ha hm s hs ho
    · -- `myown` was raised, and `process` has not cleared it
      rw [Calm.afterProcess_myown h hw inp.drains hm hstrand, hraise] at hm₂
      cases hm₂
    · exfalso
      rw [hr.owner, hr.pause, hr.ownerNew] at ho
      exact ho.2.1.2 ⟨hs, ho.1, ho.2.2⟩

/-- An epoch announces the shards it pauses. -/
theorem epoch (ha : Announced cfg w σ) (ans : Option (Answer D)) (vec : ℕ → List FlowKey) :
    Announced cfg w (Controller.updateShortEpoch cfg ans vec σ) := by
  have hf := Controller.updateShortEpoch_frame cfg σ ans vec
  have hmv := Controller.updateShortEpoch_moved cfg σ ans vec
  intro hm s hs ⟨ho, hp, hn⟩
  rw [hf.worker] at hm
  rw [hf.owner] at ho
  rw [hmv.transferShard]
  by_cases hex : ∃ v < cfg.totalCores,
      Controller.Moves σ.A (Controller.asked cfg ans σ) (σ.shards s).owner s v
  · rw [ho] at hex
    exact Or.inr ⟨s, hs, ho, hex⟩
  · have hno : ∀ v < cfg.totalCores,
        ¬ Controller.Moves σ.A (Controller.asked cfg ans σ) (σ.shards s).owner s v :=
      fun v hv hmoves => hex ⟨v, hv, hmoves⟩
    rw [hmv.ownerNew_same s fun _ => hno] at hn
    rcases (hmv.pause s).mp hp with hp | ⟨-, hex'⟩
    · exact Or.inl (ha hm s hs ⟨ho, hp, hn⟩)
    · exact absurd hex' hex

/-- **Every step that does not strand packets keeps the announcements.** -/
theorem step (ha : ∀ v, Announced cfg v σ) (h : Wired cfg σ) {a : Act D} (hp : Possible cfg σ a)
    (hstrand : NoStrand cfg σ a) (v : ℕ) : Announced cfg v (step cfg σ a) := by
  cases a with
  | arrive p => exact (ha v).of_handover (.of_shards rfl) rfl rfl
  | epoch ans vec => exact (ha v).epoch ans vec
  | work w inp =>
    by_cases hv : v = w
    · subst hv
      exact (ha v).runTask h hp inp hstrand
    · have hl := h.runTask_localTo hp inp
      have hb := h.runTask_handoverBy hp inp
      refine (ha v).of_le (congrArg Worker.myown (hl.worker v hv)) (fun s _ ⟨ho, hpause, hn⟩ => ?_)
        fun ht => (hl.transferShard v hv).trans ht
      -- another core neither takes over nor pauses a shard of `v`
      refine ⟨((hb.owner s).resolve_right fun hw => ?_).symm.trans ho, hb.pause s hpause, ?_⟩
      · exact hv (ho.symm.trans hw)
      · exact ((hb.ownerNew s).resolve_right hn).symm ▸ hn
  | offload e accept =>
    obtain ⟨core, ring, transmitted, lost, heq, -⟩ := OffloadingCore.runTask_eq cfg e accept σ
    rw [Fajita.step, heq]
    exact (ha v).of_handover (.of_shards rfl) rfl rfl

end Announced

/-! ## Runs

Three invariants in one: the rings are wired, the cores are calm and what is released is announced.
-/

variable [Double D]

/-- What the steps of a run keep. -/
structure Settled (cfg : Cfg) (σ : Sys D) : Prop where
  /-- the rings -/
  wired : Wired cfg σ
  /-- the cores -/
  calm : ∀ w, Calm w σ
  /-- the announcements -/
  announced : ∀ w, Announced cfg w σ

/-- At the start everything is settled. -/
theorem settled_init : Settled cfg (init D cfg) where
  wired := wired_init
  calm _ := ⟨fun _ => rfl, fun _ => rfl⟩
  announced _ _ _ _ ho := by cases ho.2.1

/-- **What is settled stays so** in the steps that strand nothing. -/
theorem Settled.step (hs : Settled cfg σ) {a : Act D}
    (ha : Possible cfg σ a ∧ NoStrand cfg σ a) : Settled cfg (step cfg σ a) :=
  ⟨hs.wired.step ha.1, Calm.step hs.calm hs.wired ha.1 ha.2,
    Announced.step hs.announced hs.wired ha.1 ha.2⟩

instance (σ : Sys D) : DecidablePred (NoStrand cfg σ)
  | .work w _ => inferInstanceAs (Decidable (¬ Strands cfg w σ))
  | .arrive _ => inferInstanceAs (Decidable True)
  | .epoch _ _ => inferInstanceAs (Decidable True)
  | .offload _ _ => inferInstanceAs (Decidable True)

/-- **No stranded packets and no stuck pause.** In every run from the initial
state in which no task strands the packets it takes back, every core is unstuck
in the state reached. -/
theorem unstuck_of_noStrand {acts : List (Act D)}
    (hC : Along (step cfg) (fun σ a => Possible cfg σ a ∧ NoStrand cfg σ a) (init D cfg) acts)
    (w : ℕ) : Unstuck cfg w (runFrom (step cfg) (init D cfg) acts) := by
  have hs : Settled cfg (runFrom (step cfg) (init D cfg) acts) :=
    hC.inv (fun σ a hσ ha => hσ.step ha) settled_init
  exact fun hm => ⟨(hs.calm w).mine hm, hs.announced w hm⟩

/-! ## What goes wrong -/

namespace Small

/-- The two cores swap their shards while a packet of shard 0 waits: core 1
releases shard 1 first, then core 0 takes the packet back and learns of shard 1
in the same task. -/
def swapRun : List (Act ℚ) :=
  [.arrive (packet 1 0), .epoch (some (answer (1 - ·) (fun _ => 2) fun _ => 0)) fun _ => [],
    .work 1 (task 1), .work 0 (task 1)]

/-- Core 0 is left with the packet in its own ring, `myown` clear, and the pause
of shard 0 set that nothing will end. -/
theorem swapRun_stuck :
    Along (step (router 0)) (Possible (router 0)) (init ℚ (router 0)) swapRun ∧
      ¬ Unstuck (router 0) 0 (runFrom (step (router 0)) (init ℚ (router 0)) swapRun) := by
  decide +kernel

/-- The same swap when core 0 is served first: it works off the packet, then
releases shard 0 and acquires shard 1. -/
def orderlyRun : List (Act ℚ) :=
  [.arrive (packet 1 0), .epoch (some (answer (1 - ·) (fun _ => 2) fun _ => 0)) fun _ => [],
    .work 0 (task 1), .work 1 (task 1), .work 0 (task 1), .work 0 (task 1)]

/-- If the task comes before the news, nothing is stuck. -/
theorem orderlyRun_unstuck :
    Unstuck (router 0) 0 (runFrom (step (router 0)) (init ℚ (router 0)) orderlyRun) :=
  unstuck_of_noStrand (by decide +kernel) 0

end Small

end Fajita
