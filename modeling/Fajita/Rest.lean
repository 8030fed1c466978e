import Fajita.Agreement
import Fajita.Buffers
import Fajita.Progress
import Fajita.Stranding
import Fajita.TakingBack
import Fajita.Tasks

/-!
# Coming to rest

The safety of a hand-over says nothing about its end. Here the tasks of a working core are counted:
what the controller asked for is served by the first task off the own ring, and the packets taken
back are pushed after so many more (`backlog`). Hence, however the steps of the other cores come in
between,

* a pause ends, even while the controller goes on asking (`pause_ends`);
* if the controller is silent, the router comes to rest (`comes_to_rest`), and every shard is then
  with the core it was assigned to (`answer_takes_effect`).
-/

namespace Fajita

variable {D : Type} {cfg : Cfg} {σ σ' : Sys D} {v w : ℕ}

open Function (update_self update_of_ne)

/-! ## Requests

The flags of a core go up in an epoch only and down in its own tasks only. What follows counts
tasks, so it is needed that a core that has been served is not asked again.
-/

/-- No request waits for core `w`. -/
structure Unflagged (w : ℕ) (σ : Sys D) : Prop where
  /-- `transfer_r` -/
  transferR : σ.transferR w = false
  /-- `transfer_offloading` -/
  transferOffloading : σ.transferOffloading w = false
  /-- `transfer_shard` -/
  transferShard : σ.transferShard w = false

/-- No request is raised, and no core is signalled. -/
structure Lowers (σ σ' : Sys D) : Prop where
  /-- `transfer_r` -/
  transferR : ∀ v, σ.transferR v = false → σ'.transferR v = false
  /-- `transfer_offloading` -/
  transferOffloading : ∀ v, σ.transferOffloading v = false → σ'.transferOffloading v = false
  /-- `transfer_shard` -/
  transferShard : ∀ v, σ.transferShard v = false → σ'.transferShard v = false
  /-- `controller_signal` -/
  controllerSignal : ∀ v, σ.controllerSignal v = false → σ'.controllerSignal v = false

namespace Lowers

variable {σ₁ σ₂ σ₃ : Sys D}

theorem refl (σ : Sys D) : Lowers σ σ := by constructor <;> exact fun _ h => h

theorem trans (h : Lowers σ₁ σ₂) (h' : Lowers σ₂ σ₃) : Lowers σ₁ σ₃ where
  transferR v hv := h'.transferR v (h.transferR v hv)
  transferOffloading v hv := h'.transferOffloading v (h.transferOffloading v hv)
  transferShard v hv := h'.transferShard v (h.transferShard v hv)
  controllerSignal v hv := h'.controllerSignal v (h.controllerSignal v hv)

/-- A core without requests gets none from what only lowers flags. -/
theorem unflagged (h : Lowers σ σ') (hw : Unflagged w σ) : Unflagged w σ' :=
  ⟨h.transferR w hw.transferR, h.transferOffloading w hw.transferOffloading,
    h.transferShard w hw.transferShard⟩

/-- What the fine-grained model sees of the requests is all there is to them. -/
theorem of_view (h : Requests.view (fun _ => []) σ' false = Requests.view (fun _ => []) σ false) :
    Lowers σ σ' := by
  have hflag := congrArg Requests.State.flag h
  exact ⟨fun v hv => (congrFun (congrFun hflag .r) v).trans hv,
    fun v hv => (congrFun (congrFun hflag .offloading) v).trans hv,
    fun v hv => (congrFun (congrFun hflag .shard) v).trans hv,
    fun v hv => (congrFun (congrArg Requests.State.signal h) v).trans hv⟩

/-- Clearing a flag. -/
theorem cleared (f : ℕ → Bool) (w v : ℕ) (h : f v = false) :
    Function.update f w false v = false := by
  by_cases hv : v = w
  · rw [hv, update_self]
  · rw [update_of_ne hv, h]

end Lowers

namespace WorkingCore

variable [Double D]

/-- The pieces of a task only lower flags. -/
theorem Stage.lowers (hs : Stage cfg w σ σ') : Lowers σ σ' := by
  have hrefl := Lowers.refl σ
  cases hs with
  | exchange => exact .of_view Requests.exchange_view
  | withdraw => exact .of_view Requests.withdraw_view
  | announce => exact .of_view Requests.announce_view
  | adopt => exact .of_view Requests.adopt_view
  | takeBack => exact .of_view Requests.takeBack_view
  | processChanges => exact .of_view Requests.processChanges_view
  | doneR => exact { hrefl with transferR := Lowers.cleared σ.transferR w }
  | doneOffloading =>
    exact { hrefl with transferOffloading := Lowers.cleared σ.transferOffloading w }
  | doneShard => exact { hrefl with transferShard := Lowers.cleared σ.transferShard w }
  | doneSignal => exact { hrefl with controllerSignal := Lowers.cleared σ.controllerSignal w }
  | takeRatios | receiveAll | releaseAll | forward | drained | workOff => exact { hrefl with }

/-- Stretches of a task only lower flags. -/
theorem lowers_of_stages (h : Relation.ReflTransGen (Stage cfg w) σ σ') : Lowers σ σ' :=
  Stage.inv (P := Lowers σ) (fun _ _ hl hs => hl.trans hs.lowers) (.refl σ) h

/-- A task raises no request. -/
theorem runTask_lowers (inp : TaskInput) : Lowers σ (runTask cfg w inp σ).1 :=
  lowers_of_stages (runTask_stages inp)

/-- `transfer_shard` only lowers flags. -/
theorem serveShard_lowers (drains : List ℕ) : Lowers σ (serveShard cfg w drains σ) := by
  simp only [serveShard]
  split
  · exact lowers_of_stages (transferShard_stages drains)
  · exact .refl σ

/-- **Serving the signal** serves every request. -/
theorem serveSignal_serves_all (drains : List ℕ) :
    (serveSignal cfg w drains σ).controllerSignal w = false ∧
      (σ.controllerSignal w = true → Unflagged w (serveSignal cfg w drains σ)) := by
  have hR : (serveR cfg w σ).transferR w = false := by
    simp only [serveR]
    split
    · exact update_self ..
    · next h => exact Bool.eq_false_iff.mpr h
  have hO : (serveOffloading cfg w (serveR cfg w σ)).transferOffloading w = false := by
    simp only [serveOffloading]
    split
    · exact update_self ..
    · next h => exact Bool.eq_false_iff.mpr h
  have hlO : Lowers (serveR cfg w σ) (serveOffloading cfg w (serveR cfg w σ)) :=
    lowers_of_stages serveOffloading_stages
  obtain ⟨σ₂, hσ₂⟩ : ∃ σ₂, σ₂ = serveOffloading cfg w (serveR cfg w σ) := ⟨_, rfl⟩
  rw [← hσ₂] at hO hlO
  have hS : (serveShard cfg w drains σ₂).transferShard w = false := by
    simp only [serveShard]
    split
    · exact update_self ..
    · next h => exact Bool.eq_false_iff.mpr h
  have hlS : Lowers σ₂ (serveShard cfg w drains σ₂) := serveShard_lowers drains
  simp only [serveSignal]
  split
  · rw [signalBlock, ← hσ₂]
    exact ⟨update_self .., fun _ =>
      ⟨hlS.transferR w (hlO.transferR w hR), hlS.transferOffloading w hO, hS⟩⟩
  · next h => exact ⟨Bool.eq_false_iff.mpr h, fun hsig => absurd hsig h⟩

/-- A task on the own ring does not look at its signal. -/
theorem runTask_signal (inp : TaskInput) (hm : (σ.worker w).myown = true) :
    (runTask cfg w inp σ).1.controllerSignal = σ.controllerSignal := by
  rw [runTask, if_pos hm]
  split <;> rfl

/-- What a task off the own ring leaves to be served. -/
theorem runTask_serves_all (inp : TaskInput) (hm : (σ.worker w).myown = false) :
    (runTask cfg w inp σ).1.controllerSignal w = false ∧
      (σ.controllerSignal w = true → Unflagged w (runTask cfg w inp σ).1) := by
  obtain ⟨hsignal, hflags⟩ := @serveSignal_serves_all _ cfg σ w _ inp.drains
  have hl : Lowers (serveSignal cfg w inp.drains σ) (runTask cfg w inp σ).1 := by
    rw [runTask, if_neg (by rw [hm]; exact Bool.false_ne_true)]
    exact (Stage.lowers (.processChanges _)).trans (Stage.lowers (.forward _ inp.rx inp.accept))
  exact ⟨hl.controllerSignal w hsignal, fun hsig => hl.unflagged (hflags hsig)⟩

end WorkingCore

namespace Controller

/-- All cores are signalled, or there is nothing new for any of them. -/
def Signals (cfg : Cfg) (σ σ' : Sys D) : Prop :=
  (∀ w < cfg.W, σ'.controllerSignal w = true) ∨
    Lowers σ σ' ∧ σ'.controllerSignal = σ.controllerSignal

/-- If the controller finds no change of the relationship, it leaves everything as it is. -/
theorem updateRelationship_quiet (h : (updateRelationship cfg σ).2 = false) :
    (updateRelationship cfg σ).1 = σ := by
  simp only [updateRelationship] at h ⊢
  split at h
  · next hsame => rw [if_pos hsame]
  · cases h

/-- If the controller finds no change of the assignment, it leaves everything as it is. -/
theorem updateShards_quiet (h : (updateShards cfg σ).2 = false) :
    (updateShards cfg σ).1 = σ := by
  simp only [updateShards] at h ⊢
  split at h
  · next hsame => rw [if_pos hsame]
  · cases h

variable [Double D]

/-- If the controller finds no change of the ratios, it asks nobody to take them over. -/
theorem updateRatio_quiet (h : (updateRatio cfg σ).2 = false) :
    (updateRatio cfg σ).1.transferR = σ.transferR := by
  refine forRange_inv (P := fun l : RatioLoop D => l.changed = false → l.transferR = σ.transferR)
    (fun _ => rfl) (fun s _ l hl => ?_) h
  simp only [ratioStep]
  split
  · exact fun hc => by cases hc
  · exact hl

/-- The controller signals every core that it asks for something. -/
theorem applyAnswer_signals (ans : Answer D) : Signals cfg σ (applyAnswer cfg ans σ) := by
  simp only [applyAnswer]
  split
  · left
    intro w hw
    exact (congrFun (forRange_update cfg.W (fun _ _ => true) _) w).trans (if_pos hw)
  · next hquiet =>
    right
    obtain ⟨⟨hR, hO⟩, hA⟩ := (by simpa using hquiet :
      ((updateRatio cfg (runShortSolver cfg ans σ)).2 = false ∧ _ = false) ∧ _ = false)
    rw [updateShards_quiet hA, updateRelationship_quiet hO]
    have hr := updateRatio_quiet hR
    exact ⟨{ Lowers.refl σ with transferR := fun v hv => (congrFun hr v).trans hv }, rfl⟩

/-- **An epoch** that raises a request signals all cores. -/
theorem updateShortEpoch_signals (ans : Option (Answer D)) (vec : ℕ → List FlowKey) :
    Signals cfg σ (updateShortEpoch cfg ans vec σ) := by
  have hbefore := @Requests.beforeSolver_view _ cfg σ (fun _ => []) false _
  have hafter := fun (σ : Sys D) (n : UInt32) =>
    @Requests.afterSolver_view _ cfg σ (fun _ => []) false _ vec n
  have hquiet : Signals cfg σ (clearFlows cfg (orderShards cfg vec
      { volumeShards cfg (swapShards cfg σ) with
        epoch := (volumeShards cfg (swapShards cfg σ)).epoch + 1 })) :=
    Or.inr ⟨(Lowers.of_view hbefore).trans (.of_view (hafter _ _)),
      (congrArg Requests.State.signal (hafter _ _)).trans
        (congrArg Requests.State.signal hbefore)⟩
  cases ans with
  | none => exact hquiet
  | some ans =>
    cases hsolver : cfg.solver with
    | false =>
      simp only [updateShortEpoch, hsolver, Bool.false_eq_true, if_false]
      exact hquiet
    | true =>
      simp only [updateShortEpoch, hsolver, if_true]
      rcases @applyAnswer_signals _ cfg (volumeShards cfg (swapShards cfg σ)) _ ans with
        h | ⟨hl, hsame⟩
      · exact Or.inl h
      · exact Or.inr ⟨(Lowers.of_view hbefore).trans (hl.trans (.of_view (hafter _ _))),
          hsame.trans (congrArg Requests.State.signal hbefore)⟩

end Controller

/-! ## Pauses

A shard is paused by an answer and released by its owner, once the packets of the shard are gone.
-/

/-- A shard that is paused in `σ'` was paused before, on its way from the same core to the same
core. -/
def KeepsPaused (σ σ' : Sys D) : Prop :=
  ∀ s, (σ'.shards s).pause = true → (σ.shards s).pause = true ∧
    (σ'.shards s).owner = (σ.shards s).owner ∧ (σ'.shards s).ownerNew = (σ.shards s).ownerNew

/-- Where no shard is handed over, a paused shard stays on its way. -/
theorem KeepsPaused.of_handover (h : SameHandover σ σ') : KeepsPaused σ σ' := fun s hp =>
  ⟨(h.pause s).symm.trans hp, h.owner s, h.ownerNew s⟩

theorem KeepsPaused.then_handover {σ₁ σ₂ σ₃ : Sys D} (h : KeepsPaused σ₁ σ₂)
    (h' : SameHandover σ₂ σ₃) : KeepsPaused σ₁ σ₃ := by
  intro s hp
  rw [h'.pause] at hp
  rw [h'.owner, h'.ownerNew]
  exact h s hp

namespace WorkingCore

/-- The end of a drained ring pauses nothing, and leaves a shard that stays paused on its way. -/
theorem drained_keepsPaused : KeepsPaused σ (drained cfg w σ) := by
  intro s
  rw [drained_spec.1]
  simp only [drainedShard, drainedReleased]
  split_ifs <;> simp_all

variable [Double D]

/-- No task begins a pause, or changes the way of a paused shard. -/
theorem runTask_keepsPaused (h : Wired cfg σ) (hw : w < cfg.W) (inp : TaskInput) :
    KeepsPaused σ (runTask cfg w inp σ).1 := by
  cases hm : (σ.worker w).myown with
  | true =>
    rw [runTask, if_pos hm]
    split
    · exact drained_keepsPaused
    · exact .of_handover (workOff_sameHandover inp.accept)
  | false =>
    refine KeepsPaused.then_handover ?_ (runTask_sameHandover h hw inp hm)
    rcases serveSignal_cases h hw inp.drains hm with ⟨hk, -⟩ | ⟨hr, -⟩
    · exact .of_handover hk.handover
    · exact fun s hp => ⟨((hr.pause s).mp hp).1, hr.owner s, hr.ownerNew s⟩

end WorkingCore

namespace Controller

/-- A pause that begins has a core to lead to. -/
def Sends (cfg : Cfg) (σ σ' : Sys D) : Prop :=
  ∀ s, (σ'.shards s).pause = true →
    (σ.shards s).pause = true ∧ (σ'.shards s).ownerNew = (σ.shards s).ownerNew ∨
      (σ'.shards s).ownerNew < cfg.totalCores

/-- A shard that is paused by an answer has a receiver in range. -/
theorem marked_sends {A newA : ℕ → ℕ → ℕ} {s n : ℕ} {sh : ShardInfo D}
    (hp : (marked A newA s n sh).pause = true) :
    sh.pause = true ∧ (marked A newA s n sh).ownerNew = sh.ownerNew ∨
      (marked A newA s n sh).ownerNew < n := by
  induction n with
  | zero => exact Or.inl ⟨hp, rfl⟩
  | succ n ih =>
    rw [marked_succ] at hp ⊢
    split_ifs at hp ⊢ with hmoves
    · exact Or.inr (Nat.lt_succ_self n)
    · exact (ih hp).imp_right Nat.lt_succ_of_lt

/-- The update of the shards sends them to cores that there are. -/
theorem updateShards_sends : Sends cfg σ (updateShards cfg σ).1 := by
  intro s hp
  simp only [updateShards] at hp ⊢
  split at hp
  · next hsame =>
    rw [if_pos hsame]
    exact Or.inl ⟨hp, rfl⟩
  · next hsame =>
    rw [if_neg hsame]
    dsimp only [updateReta] at hp ⊢
    rw [(migrationPass_mark cfg σ.A σ.newA ⟨σ.shards, σ.transferShard⟩).2 s] at hp ⊢
    split_ifs at hp ⊢
    · exact marked_sends hp
    · exact Or.inl ⟨hp, rfl⟩

theorem Sends.congr {σ₁ σ₂ σ₃ : Sys D} (h₁ : SameHandover σ σ₁) (h : Sends cfg σ₁ σ₂)
    (h₃ : SameHandover σ₂ σ₃) : Sends cfg σ σ₃ := by
  intro s
  rw [h₃.pause, h₃.ownerNew, ← h₁.pause, ← h₁.ownerNew]
  exact h s

variable [Double D]

/-- An answer sends shards to cores that there are. -/
theorem applyAnswer_sends (ans : Answer D) : Sends cfg σ (applyAnswer cfg ans σ) := by
  have h₁ := (beforeShards_aside cfg σ ans).unmoved.handover
  have h₂ := @updateShards_sends _ cfg
    (updateRelationship cfg (updateRatio cfg (runShortSolver cfg ans σ)).1).1
  simp only [applyAnswer]
  split
  · exact .congr h₁ h₂ (@sendSignals_aside _ cfg _).unmoved.handover
  · exact .congr h₁ h₂ (.refl _)

/-- The short update sends shards to cores that there are. -/
theorem updateShortEpoch_sends (ans : Option (Answer D)) (vec : ℕ → List FlowKey) :
    Sends cfg σ (updateShortEpoch cfg ans vec σ) := by
  have hstay : Sends cfg (volumeShards cfg (swapShards cfg σ))
      (volumeShards cfg (swapShards cfg σ)) := fun s hp => Or.inl ⟨hp, rfl⟩
  simp only [updateShortEpoch]
  refine .congr (beforeSolver_aside cfg σ).unmoved.handover ?_
    (afterSolver_aside cfg _ vec _).unmoved.handover
  cases ans with
  | none => exact hstay
  | some ans =>
    dsimp only
    split
    · exact applyAnswer_sends ans
    · exact hstay

end Controller

/-! ## Steady states

What holds from the start on and is needed of every state: signals, owners and receivers are what
they should be.
-/

/-- What the steps of a run keep: requests wait only for signalled cores, and a paused shard is on
its way from one core to another. -/
structure Steady (cfg : Cfg) (σ : Sys D) : Prop extends Settled cfg σ where
  /-- the sizes of the rings -/
  sized : Sized σ
  /-- a core that is not signalled has nothing to look for -/
  flagged : ∀ w < cfg.W, σ.controllerSignal w = false → Unflagged w σ
  /-- the owners are working cores -/
  owner : ∀ s, (σ.shards s).owner < cfg.W
  /-- a paused shard is on its way -/
  sent : ∀ s, (σ.shards s).pause = true → (σ.shards s).ownerNew ≠ uint32Max

/-- Core `w` has served everything, and is off its own ring. -/
structure AtRest (w : ℕ) (σ : Sys D) : Prop where
  /-- it is not signalled -/
  signal : σ.controllerSignal w = false
  /-- nothing is asked of it -/
  unflagged : Unflagged w σ
  /-- it has nothing to work off -/
  myown : (σ.worker w).myown = false

/-- With all cores at rest no shard is paused. -/
theorem Steady.unpaused (hs : Steady cfg σ) (hrest : ∀ w < cfg.W, AtRest w σ) {s : ℕ}
    (hlt : s < cfg.totalShards) : (σ.shards s).pause = false := by
  by_contra hp
  rw [Bool.not_eq_false] at hp
  have hw := hrest _ (hs.owner s)
  have hflag := hs.announced _ hw.myown s hlt ⟨rfl, hp, hs.sent s hp⟩
  rw [hw.unflagged.transferShard] at hflag
  cases hflag

section

variable [Double D]

/-- The system starts steady. -/
theorem steady_init : Steady cfg (init D cfg) where
  toSettled := settled_init
  sized _ := rfl
  flagged _ _ _ := ⟨rfl, rfl, rfl⟩
  owner s := Nat.mod_lt s cfg.W_pos
  sent s hp := by cases hp

namespace Steady

/-- A flag is never up without the signal. -/
theorem flagged_step (hs : Steady cfg σ) {a : Act D} (ha : Possible cfg σ a) :
    ∀ w < cfg.W, (step cfg σ a).controllerSignal w = false → Unflagged w (step cfg σ a) := by
  intro w hw hsignal
  cases a with
  | arrive p =>
    obtain ⟨hR, hO, hS⟩ := hs.flagged w hw hsignal
    exact ⟨hR, hO, hS⟩
  | epoch ans vec =>
    have hepoch : Controller.Signals cfg σ (step cfg σ (.epoch ans vec)) :=
      Controller.updateShortEpoch_signals ans vec
    rcases hepoch with hall | ⟨hl, hsame⟩
    · rw [hall w hw] at hsignal
      cases hsignal
    · rw [hsame] at hsignal
      exact hl.unflagged (hs.flagged w hw hsignal)
  | work v inp =>
    by_cases hv : w = v
    · subst hv
      have hl : Lowers σ (step cfg σ (.work w inp)) := WorkingCore.runTask_lowers inp
      cases hm : (σ.worker w).myown with
      | true =>
        rw [step, WorkingCore.runTask_signal inp hm] at hsignal
        exact hl.unflagged (hs.flagged w hw hsignal)
      | false =>
        cases hsig : σ.controllerSignal w with
        | true => exact (WorkingCore.runTask_serves_all inp hm).2 hsig
        | false => exact hl.unflagged (hs.flagged w hw hsig)
    · have hl := hs.wired.runTask_localTo ha inp
      obtain ⟨hR, hO, hS⟩ := hs.flagged w hw ((hl.controllerSignal w hv).symm.trans hsignal)
      exact ⟨(hl.transferR w hv).trans hR, (hl.transferOffloading w hv).trans hO,
        (hl.transferShard w hv).trans hS⟩
  | offload e accept =>
    obtain ⟨core, ring, transmitted, lost, heq, -⟩ := OffloadingCore.runTask_eq cfg e accept σ
    rw [Fajita.step, heq] at hsignal ⊢
    obtain ⟨hR, hO, hS⟩ := hs.flagged w hw hsignal
    exact ⟨hR, hO, hS⟩

/-- The owner of a shard stays in range. -/
theorem owner_step (hs : Steady cfg σ) {a : Act D} (ha : Possible cfg σ a) (s : ℕ) :
    ((step cfg σ a).shards s).owner < cfg.W := by
  cases a with
  | arrive p => exact hs.owner s
  | epoch ans vec =>
    rw [Fajita.step, (Controller.updateShortEpoch_frame cfg σ ans vec).owner]
    exact hs.owner s
  | work v inp =>
    rcases (hs.wired.runTask_handoverBy ha inp).owner s with h | h
    · rw [Fajita.step, h]
      exact hs.owner s
    · rw [Fajita.step, h]
      exact ha
  | offload e accept =>
    obtain ⟨core, ring, transmitted, lost, heq, -⟩ := OffloadingCore.runTask_eq cfg e accept σ
    rw [Fajita.step, heq]
    exact hs.owner s

/-- A paused shard knows its receiver. -/
theorem sent_step (hs : Steady cfg σ) {a : Act D} (ha : Possible cfg σ a) (s : ℕ)
    (hp : ((step cfg σ a).shards s).pause = true) :
    ((step cfg σ a).shards s).ownerNew ≠ uint32Max := by
  cases a with
  | arrive p => exact hs.sent s hp
  | epoch ans vec =>
    have hsends : Controller.Sends cfg σ (step cfg σ (.epoch ans vec)) :=
      Controller.updateShortEpoch_sends ans vec
    rcases hsends s hp with ⟨hp', hsame⟩ | hlt
    · rw [hsame]
      exact hs.sent s hp'
    · have := cfg.cores_le
      rw [Cfg.totalCores] at hlt
      rw [uint32Max]
      omega
  | work v inp =>
    obtain ⟨hp', -, hsame⟩ := WorkingCore.runTask_keepsPaused hs.wired ha inp s hp
    rw [Fajita.step, hsame]
    exact hs.sent s hp'
  | offload e accept =>
    obtain ⟨core, ring, transmitted, lost, heq, -⟩ := OffloadingCore.runTask_eq cfg e accept σ
    rw [Fajita.step, heq] at hp ⊢
    exact hs.sent s hp

/-- **Every step that strands no packets keeps the state steady.** -/
theorem step (hs : Steady cfg σ) {a : Act D} (ha : Possible cfg σ a ∧ NoStrand cfg σ a) :
    Steady cfg (step cfg σ a) where
  toSettled := hs.toSettled.step ha
  sized := Sized.step hs.wired hs.sized ha.1
  flagged := hs.flagged_step ha.1
  owner := hs.owner_step ha.1
  sent := hs.sent_step ha.1

end Steady

/-! ## The tasks of a core

Each task of a core that works off its ring takes a burst off it, and nobody else puts packets
there. The measure is the number of tasks that are left.
-/

omit [Double D] in
/-- The label is an epoch. -/
def Act.isEpoch : Act D → Bool
  | .epoch _ _ => true
  | _ => false

omit [Double D] in
/-- The label is a task of core `w`. -/
def Act.isTaskOf (w : ℕ) : Act D → Bool
  | .work v _ => v = w
  | _ => false

/-- The tasks it takes to push a full ring. -/
def fullRounds (cfg : Cfg) (w : ℕ) : ℕ := WorkingCore.rounds (cfg.burst w) ringSlots

/-- More packets take no fewer bursts. -/
theorem rounds_mono (burst : ℕ) {len len' : ℕ} (h : len ≤ len') :
    WorkingCore.rounds burst len ≤ WorkingCore.rounds burst len' :=
  Nat.div_le_div_right (by omega)

omit [Double D] in
/-- No more packets wait than the ring has slots. -/
theorem Sized.myItems_le (h : Sized σ) (w : ℕ) : (σ.myItems w).length ≤ ringSlots :=
  h (σ.worker w).myring ▸ (σ.ring (σ.worker w).myring).fits

omit [Double D] in
/-- The tasks core `w` needs to work off `myring`. -/
def toWorkOff (cfg : Cfg) (w : ℕ) (σ : Sys D) : ℕ :=
  WorkingCore.rounds (cfg.burst w) (σ.myItems w).length + 1

omit [Double D] in
/-- The tasks that a core needs to work off its ring are bounded in advance. -/
theorem toWorkOff_le (h : Sized σ) (w : ℕ) : toWorkOff cfg w σ ≤ fullRounds cfg w + 1 :=
  Nat.succ_le_succ (rounds_mono _ (h.myItems_le w))

/-- A task that has something to work off brings the end closer. -/
theorem runTask_worksOff (h : Wired cfg σ) (hm : (σ.worker w).myown = true)
    (hmine : σ.myItems w ≠ []) (inp : TaskInput) :
    (WorkingCore.runTask cfg w inp σ).1.worker = σ.worker ∧
      toWorkOff cfg w (WorkingCore.runTask cfg w inp σ).1 < toWorkOff cfg w σ := by
  obtain ⟨-, hleft, hworker, -⟩ := @WorkingCore.runTask_workOff _ cfg σ w _ hm hmine inp
  have hburst : 0 < cfg.burst w := by
    by_contra hidle
    exact hmine (h.idle w (by omega) _ (h.pair w).myring_core)
  refine ⟨hworker, ?_⟩
  rw [toWorkOff, toWorkOff, hleft, List.length_drop,
    WorkingCore.rounds_of_pos hburst (List.length_pos_iff.mpr hmine)]
  exact Nat.lt_succ_self _

/-- A task on the own ring pushes a burst of it, or ends the work on it. -/
theorem runTask_toWorkOff (h : Wired cfg σ) (hm : (σ.worker w).myown = true) (inp : TaskInput) :
    ((WorkingCore.runTask cfg w inp σ).1.worker = σ.worker ∧
        toWorkOff cfg w (WorkingCore.runTask cfg w inp σ).1 < toWorkOff cfg w σ) ∨
      (WorkingCore.runTask cfg w inp σ).1 = WorkingCore.drained cfg w σ := by
  by_cases hmine : σ.myItems w = []
  · right
    rw [WorkingCore.runTask, if_pos hm, if_pos (Fifo.count_eq_zero.mpr hmine)]
  · exact Or.inl (runTask_worksOff h hm hmine inp)

/-- What a step that is no task of core `w` does to it: packets leave `myring` at most. -/
structure Apart (w : ℕ) (σ σ' : Sys D) : Prop where
  /-- the fields of the core -/
  worker : σ'.worker w = σ.worker w
  /-- its own ring does not grow -/
  mine : (σ'.myItems w).length ≤ (σ.myItems w).length

/-- The steps of the others do not touch the ring of a core, its flags or `myown`, except to ask. -/
theorem apart_step (hs : Steady cfg σ) {a : Act D} (ha : Possible cfg σ a)
    (hmine : a.isTaskOf w = false) : Apart w σ (step cfg σ a) := by
  cases a with
  | arrive p => exact ⟨rfl, Nat.le_refl _⟩
  | epoch ans vec =>
    have hf := Controller.updateShortEpoch_frame cfg σ ans vec
    refine ⟨congrFun hf.worker w, Nat.le_of_eq ?_⟩
    rw [Fajita.step, Sys.myItems, hf.worker, hf.traffic.ring, Sys.myItems]
  | work v inp =>
    have hv : w ≠ v := fun h => of_decide_eq_false hmine h.symm
    have hl := hs.wired.runTask_localTo ha inp
    have hd := SameDesk.of_localTo hs.wired hl hv
    exact ⟨hl.worker w hv, Nat.le_of_eq (congrArg List.length hd.mine)⟩
  | offload e accept =>
    obtain ⟨core, ring, transmitted, lost, heq, hring⟩ := OffloadingCore.runTask_eq cfg e accept σ
    rw [Fajita.step, heq]
    obtain ⟨n, hn⟩ := hring (σ.worker w).myring
    refine ⟨rfl, ?_⟩
    change (ring (σ.worker w).myring).items.length ≤ _
    rw [hn, List.length_drop]
    exact Nat.sub_le _ _

/-- After a task off the own ring the core is on it exactly if there was something to take back. -/
theorem runTask_myown (h : Wired cfg σ) (hw : w < cfg.W) (inp : TaskInput)
    (hm : (σ.worker w).myown = false) (hstrand : ¬ Strands cfg w σ) :
    ((WorkingCore.runTask cfg w inp σ).1.worker w).myown = raises w σ := by
  rw [WorkingCore.runTask, if_neg (by rw [hm]; exact Bool.false_ne_true)]
  exact Calm.afterProcess_myown h hw inp.drains hm hstrand

/-! ## The end of a pause -/

/-- Shard `s` is paused, and core `w` is to release it. -/
def Holds (w s : ℕ) (σ : Sys D) : Prop := (σ.shards s).pause = true ∧ (σ.shards s).owner = w

/-- The tasks after which the core has released it: the first takes packets back, and the others
work them off. -/
def toRelease (cfg : Cfg) (w : ℕ) (σ : Sys D) : ℕ :=
  if (σ.worker w).myown then toWorkOff cfg w σ else fullRounds cfg w + 2

omit [Double D] in
/-- When its owner gives a shard away, the pause ends. -/
theorem drainedShard_pause {sh : ShardInfo D} (how : sh.owner = w)
    (hnew : sh.ownerNew ≠ uint32Max) : (WorkingCore.drainedShard w sh).pause = false := by
  simp only [WorkingCore.drainedShard, WorkingCore.drainedReleased]
  split_ifs <;> simp_all

/-- A task off the own ring releases the shard, or takes back packets to work off. -/
theorem release_or_raise (hs : Steady cfg σ) (hw : w < cfg.W) {s : ℕ} (hlt : s < cfg.totalShards)
    (inp : TaskInput) (hp : Holds w s σ) (hm : (σ.worker w).myown = false) :
    ((WorkingCore.runTask cfg w inp σ).1.shards s).pause = false ∨ raises w σ = true := by
  obtain ⟨hpause, howner⟩ := hp
  have hnew := hs.sent s hpause
  have hflag := hs.announced w hm s hlt ⟨howner, hpause, hnew⟩
  have hsignal : σ.controllerSignal w = true := by
    by_contra hsig
    rw [(hs.flagged w hw (Bool.eq_false_iff.mpr hsig)).transferShard] at hflag
    cases hflag
  rcases WorkingCore.serveSignal_cases hs.wired hw inp.drains hm with
    ⟨-, hkept | hraise⟩ | ⟨hr, -⟩
  · have hserved := (@WorkingCore.serveSignal_serves_all _ cfg σ w _ inp.drains).2 hsignal
    rw [← hkept, hserved.transferShard] at hflag
    cases hflag
  · exact Or.inr hraise
  · left
    rw [(WorkingCore.runTask_sameHandover hs.wired hw inp hm).pause]
    exact Bool.eq_false_iff.mpr fun hp => ((hr.pause s).mp hp).2 ⟨hlt, howner, hnew⟩

/-- **A task of the owner** ends the pause, or gets closer to its end. -/
theorem release_closer (hs : Steady cfg σ) (hw : w < cfg.W) {s : ℕ} (hlt : s < cfg.totalShards)
    (inp : TaskInput) (hstrand : ¬ Strands cfg w σ) (hp : Holds w s σ) :
    ((WorkingCore.runTask cfg w inp σ).1.shards s).pause = false ∨
      Holds w s (WorkingCore.runTask cfg w inp σ).1 ∧
        toRelease cfg w (WorkingCore.runTask cfg w inp σ).1 < toRelease cfg w σ := by
  by_cases hp' : ((WorkingCore.runTask cfg w inp σ).1.shards s).pause = true
  · have hkept := WorkingCore.runTask_keepsPaused hs.wired hw inp s hp'
    refine Or.inr ⟨⟨hp', hkept.2.1.trans hp.2⟩, ?_⟩
    cases hm : (σ.worker w).myown with
    | true =>
      rcases runTask_toWorkOff hs.wired hm inp with ⟨hworker, hless⟩ | hdrained
      · rw [toRelease, toRelease, hworker, hm]
        exact hless
      · rw [hdrained, WorkingCore.drained_spec.1, if_pos hlt,
          drainedShard_pause hp.2 (hs.sent s hp.1)] at hp'
        cases hp'
    | false =>
      have hraise := (release_or_raise hs hw hlt inp hp hm).resolve_left (by rw [hp']; decide)
      have hsize : Sized (step cfg σ (.work w inp)) := Sized.step hs.wired hs.sized hw
      rw [toRelease, toRelease, hm, runTask_myown hs.wired hw inp hm hstrand, hraise, if_pos rfl,
        if_neg Bool.false_ne_true]
      exact Nat.lt_succ_of_le (toWorkOff_le hsize w)
  · exact Or.inl (Bool.eq_false_iff.mpr hp')

/-- No other step gets the pause further from its end. -/
theorem release_no_further (hs : Steady cfg σ) {a : Act D} (ha : Possible cfg σ a)
    (hmine : a.isTaskOf w = false) {s : ℕ} (hp : Holds w s σ) :
    ((step cfg σ a).shards s).pause = false ∨
      Holds w s (step cfg σ a) ∧ toRelease cfg w (step cfg σ a) ≤ toRelease cfg w σ := by
  have hap := apart_step hs ha hmine
  have hle : toRelease cfg w (step cfg σ a) ≤ toRelease cfg w σ := by
    rw [toRelease, toRelease, hap.worker]
    split
    · exact Nat.succ_le_succ (rounds_mono _ hap.mine)
    · exact Nat.le_refl _
  by_cases hp' : ((step cfg σ a).shards s).pause = true
  · refine Or.inr ⟨⟨hp', ?_⟩, hle⟩
    cases a with
    | arrive p => exact hp.2
    | epoch ans vec =>
      exact ((Controller.updateShortEpoch_frame cfg σ ans vec).owner s).trans hp.2
    | work v inp => exact (WorkingCore.runTask_keepsPaused hs.wired ha inp s hp').2.1.trans hp.2
    | offload e accept =>
      obtain ⟨core, ring, transmitted, lost, heq, -⟩ := OffloadingCore.runTask_eq cfg e accept σ
      rw [Fajita.step, heq]
      exact hp.2
  · exact Or.inl (Bool.eq_false_iff.mpr hp')

/-- **Every pause ends.** In every run in which no task strands packets: if shard `s` is paused
after `acts`, it is released before its owner `w` has done a full ring's worth of tasks and three
more, whatever the other cores, the NIC and the controller do meanwhile. -/
theorem pause_ends {acts acts' : List (Act D)} {s : ℕ}
    (hC : Along (step cfg) (fun σ a => Possible cfg σ a ∧ NoStrand cfg σ a) (init D cfg)
      (acts ++ acts'))
    (hlt : s < cfg.totalShards)
    (howner : ((runFrom (step cfg) (init D cfg) acts).shards s).owner = w)
    (hmany : fullRounds cfg w + 3 ≤ acts'.countP (Act.isTaskOf w)) :
    Meets (step cfg) (fun σ => (σ.shards s).pause = false)
      (runFrom (step cfg) (init D cfg) acts) acts' := by
  obtain ⟨hbefore, hafter⟩ := along_append.mp hC
  obtain ⟨σ, hσ⟩ : ∃ σ, σ = runFrom (step cfg) (init D cfg) acts := ⟨_, rfl⟩
  have hs : Steady cfg σ := hσ ▸ hbefore.inv (fun _ _ hs ha => hs.step ha) steady_init
  rw [← hσ] at hafter howner ⊢
  have hw : w < cfg.W := howner ▸ hs.owner s
  cases hp : (σ.shards s).pause with
  | false => exact .now hp
  | true =>
    refine .of_rank (I := Steady cfg) (P := Holds w s) (Act.isTaskOf w) (toRelease cfg w)
      (fun _ _ hs ha => hs.step ha) ?_ ?_ hs ⟨hp, howner⟩ hafter ?_
    · rintro σ a hs ⟨ha, hstrand⟩ hp hmine
      cases a with
      | work v inp =>
        obtain rfl : v = w := of_decide_eq_true hmine
        exact release_closer hs hw hlt inp hstrand hp
      | arrive | epoch | offload => cases hmine
    · rintro σ a hs ⟨ha, -⟩ hp hmine
      exact release_no_further hs ha hmine hp
    · refine Nat.lt_of_lt_of_le (Nat.lt_succ_of_le ?_) hmany
      rw [toRelease]
      split
      · exact (toWorkOff_le hs.sized w).trans (Nat.le_succ _)
      · exact Nat.le_refl _

/-! ## The end of all work -/

/-- The tasks after which core `w` is at rest. -/
def backlog (cfg : Cfg) (w : ℕ) (σ : Sys D) : ℕ :=
  (if (σ.worker w).myown then toWorkOff cfg w σ else 0) +
    if σ.controllerSignal w then fullRounds cfg w + 2 else 0

omit [Double D] in
/-- All that a core may have to do is bounded in advance. -/
theorem backlog_le (h : Sized σ) (w : ℕ) : backlog cfg w σ ≤ 2 * fullRounds cfg w + 3 := by
  have hle := @toWorkOff_le _ cfg σ h w
  rw [backlog]
  split_ifs <;> omega

/-- A task at rest. -/
theorem AtRest.runTask (hrest : AtRest w σ) (hs : Steady cfg σ) (hw : w < cfg.W)
    (inp : TaskInput) (hstrand : ¬ Strands cfg w σ) :
    AtRest w (WorkingCore.runTask cfg w inp σ).1 := by
  have hl := @WorkingCore.runTask_lowers _ cfg σ w _ inp
  refine ⟨hl.controllerSignal w hrest.signal, hl.unflagged hrest.unflagged, ?_⟩
  rw [runTask_myown hs.wired hw inp hrest.myown hstrand, raises, hrest.signal, Bool.false_and]

/-- **A task of the core** brings it to rest or closer to it. -/
theorem rest_closer (hs : Steady cfg σ) (hw : w < cfg.W) (inp : TaskInput)
    (hstrand : ¬ Strands cfg w σ) : AtRest w (WorkingCore.runTask cfg w inp σ).1 ∨
      backlog cfg w (WorkingCore.runTask cfg w inp σ).1 < backlog cfg w σ := by
  cases hm : (σ.worker w).myown with
  | true =>
    have hsignal := @WorkingCore.runTask_signal _ cfg σ w _ inp hm
    right
    rw [backlog, backlog, hsignal, Nat.add_lt_add_iff_right, hm, if_pos rfl]
    rcases runTask_toWorkOff hs.wired hm inp with ⟨hworker, hless⟩ | hdrained
    · rw [hworker, hm]
      exact hless
    · have hoff : ((WorkingCore.drained cfg w σ).worker w).myown = false := by
        simp [WorkingCore.drained, Sys.setWorker]
      rw [hdrained, hoff]
      exact Nat.succ_pos _
  | false =>
    have hserved := @WorkingCore.runTask_serves_all _ cfg σ w _ inp hm
    cases hsig : σ.controllerSignal w with
    | false => exact Or.inl (AtRest.runTask ⟨hsig, hs.flagged w hw hsig, hm⟩ hs hw inp hstrand)
    | true =>
      have hsize : Sized (step cfg σ (.work w inp)) := Sized.step hs.wired hs.sized hw
      have hle : toWorkOff cfg w (WorkingCore.runTask cfg w inp σ).1 ≤ fullRounds cfg w + 1 :=
        toWorkOff_le hsize w
      right
      simp only [backlog, hserved.1, hm, hsig, Bool.false_eq_true, if_false, if_true]
      split <;> omega

/-- While the controller is silent, no other step keeps the core from its rest. -/
theorem rest_no_further (hs : Steady cfg σ) {a : Act D} (ha : Possible cfg σ a)
    (hquiet : a.isEpoch = false) (hmine : a.isTaskOf w = false) :
    ((step cfg σ a).controllerSignal w = σ.controllerSignal w ∧
        (Unflagged w σ → Unflagged w (step cfg σ a))) ∧
      backlog cfg w (step cfg σ a) ≤ backlog cfg w σ := by
  have hap := apart_step hs ha hmine
  have hsame : (step cfg σ a).controllerSignal w = σ.controllerSignal w ∧
      (Unflagged w σ → Unflagged w (step cfg σ a)) := by
    cases a with
    | arrive p => exact ⟨rfl, fun h => ⟨h.transferR, h.transferOffloading, h.transferShard⟩⟩
    | epoch ans vec => cases hquiet
    | work v inp =>
      have hv : w ≠ v := fun h => of_decide_eq_false hmine h.symm
      exact ⟨(hs.wired.runTask_localTo ha inp).controllerSignal w hv,
        (WorkingCore.runTask_lowers inp).unflagged⟩
    | offload e accept =>
      obtain ⟨core, ring, transmitted, lost, heq, -⟩ := OffloadingCore.runTask_eq cfg e accept σ
      rw [Fajita.step, heq]
      exact ⟨rfl, fun h => ⟨h.transferR, h.transferOffloading, h.transferShard⟩⟩
  refine ⟨hsame, ?_⟩
  rw [backlog, backlog, hap.worker, hsame.1]
  refine Nat.add_le_add_right ?_ _
  split
  · exact Nat.succ_le_succ (rounds_mono _ hap.mine)
  · exact Nat.le_refl _

/-- The condition under which the router comes to rest: no packets are stranded, and the controller
is silent. -/
def Silent (cfg : Cfg) (σ : Sys D) (a : Act D) : Prop :=
  (Possible cfg σ a ∧ NoStrand cfg σ a) ∧ a.isEpoch = false

/-- A core at rest stays at rest as long as nobody asks. -/
theorem AtRest.step (hrest : AtRest w σ) (hs : Steady cfg σ) {a : Act D} (ha : Silent cfg σ a) :
    AtRest w (step cfg σ a) := by
  cases hmine : a.isTaskOf w with
  | false =>
    obtain ⟨⟨hsignal, hflags⟩, -⟩ := rest_no_further hs ha.1.1 ha.2 hmine
    exact ⟨hsignal.trans hrest.signal, hflags hrest.unflagged,
      (congrArg Worker.myown (apart_step hs ha.1.1 hmine).worker).trans hrest.myown⟩
  | true =>
    cases a with
    | work v inp =>
      obtain rfl : v = w := of_decide_eq_true hmine
      exact hrest.runTask hs ha.1.1 inp ha.1.2
    | arrive | epoch | offload => cases hmine

/-- Core `w` comes to rest, and stays there. -/
theorem atRest_of_tasks {acts : List (Act D)} (hs : Steady cfg σ)
    (hC : Along (Fajita.step cfg) (Silent cfg) σ acts)
    (hmany : 2 * fullRounds cfg w + 4 ≤ acts.countP (Act.isTaskOf w)) :
    AtRest w (runFrom (Fajita.step cfg) σ acts) := by
  have hstep : ∀ (σ : Sys D) a, Steady cfg σ → Silent cfg σ a → Steady cfg (Fajita.step cfg σ a) :=
    fun _ _ hs ha => hs.step ha.1
  refine Meets.kept hstep (fun _ _ hs ha hrest => hrest.step hs ha) hs hC ?_
  refine .of_rank (P := fun _ => True) (Act.isTaskOf w) (backlog cfg w)
    hstep ?_ ?_ hs trivial hC ?_
  · rintro σ a hs ha - hmine
    cases a with
    | work v inp =>
      obtain rfl : v = w := of_decide_eq_true hmine
      exact (rest_closer hs ha.1.1 inp ha.1.2).imp_right fun hless => ⟨trivial, hless⟩
    | arrive | epoch | offload => cases hmine
  · rintro σ a hs ha - hmine
    exact Or.inr ⟨trivial, (rest_no_further hs ha.1.1 ha.2 hmine).2⟩
  · exact Nat.lt_of_lt_of_le (Nat.lt_succ_of_le (backlog_le hs.sized w)) hmany

/-- A task of a core at rest takes note of what has been released to it, and releases nothing. -/
theorem runTask_news (hrest : AtRest w σ) (inp : TaskInput) (v : ℕ) :
    (WorkingCore.runTask cfg w inp σ).1.hadChanges v =
      if v = w then false else σ.hadChanges v := by
  have hserve : WorkingCore.serveSignal cfg w inp.drains σ = σ := by
    rw [WorkingCore.serveSignal, if_neg (by rw [hrest.signal]; exact Bool.false_ne_true)]
  rw [WorkingCore.runTask, if_neg (by rw [hrest.myown]; exact Bool.false_ne_true), hserve]
  exact WorkingCore.processChanges_news cfg w σ v

/-- The only news left is that which the core itself has not looked at. -/
theorem step_news (hrest : ∀ w < cfg.W, AtRest w σ) {a : Act D}
    (ha : Silent cfg σ a) (v : ℕ) :
    (step cfg σ a).hadChanges v = if a.isTaskOf v then false else σ.hadChanges v := by
  cases a with
  | arrive p => rfl
  | epoch ans vec => cases ha.2
  | work w inp =>
    rw [Fajita.step, runTask_news (hrest w ha.1.1) inp]
    simp [Act.isTaskOf, eq_comm]
  | offload e accept =>
    obtain ⟨core, ring, transmitted, lost, heq, -⟩ := OffloadingCore.runTask_eq cfg e accept σ
    rw [Fajita.step, heq]
    rfl

/-- Once all cores are at rest, a task each takes note of the last news. -/
theorem noNews_of_tasks {acts : List (Act D)} (hs : Steady cfg σ)
    (hrest : ∀ w < cfg.W, AtRest w σ) (hC : Along (Fajita.step cfg) (Silent cfg) σ acts)
    (hone : ∃ a ∈ acts, a.isTaskOf w = true) :
    (runFrom (Fajita.step cfg) σ acts).hadChanges w = false := by
  have hstep : ∀ (σ : Sys D) a, (Steady cfg σ ∧ ∀ w < cfg.W, AtRest w σ) → Silent cfg σ a →
      Steady cfg (Fajita.step cfg σ a) ∧ ∀ w < cfg.W, AtRest w (Fajita.step cfg σ a) :=
    fun σ a h ha => ⟨h.1.step ha.1, fun w hw => (h.2 w hw).step h.1 ha⟩
  refine Meets.kept (G := fun σ => σ.hadChanges w = false) hstep ?_ ⟨hs, hrest⟩ hC ?_
  · intro σ a h ha hnews
    rw [step_news h.2 ha, hnews, ite_self]
  · refine .of_rank (P := fun _ => True) (Act.isTaskOf w) (fun _ => 0) hstep ?_ ?_
      ⟨hs, hrest⟩ trivial hC (List.countP_pos_iff.mpr hone)
    · intro σ a h ha _ hmine
      exact Or.inl (by rw [step_news h.2 ha, hmine, if_pos rfl])
    · exact fun _ _ _ _ _ _ => Or.inr ⟨trivial, Nat.le_refl _⟩

/-- Every core has work enough to come to rest in the first part of the schedule, and a task in the
second. -/
structure Enough (cfg : Cfg) (acts₁ acts₂ : List (Act D)) : Prop where
  /-- the tasks that serve the signal and work off the rings -/
  first : ∀ w < cfg.W, 2 * fullRounds cfg w + 4 ≤ acts₁.countP (Act.isTaskOf w)
  /-- a task that takes note of the last release -/
  second : ∀ w < cfg.W, ∃ a ∈ acts₂, a.isTaskOf w = true

/-- From a steady state on. -/
theorem Steady.quiescent {acts₁ acts₂ : List (Act D)} (hs : Steady cfg σ)
    (hC : Along (Fajita.step cfg) (Silent cfg) σ (acts₁ ++ acts₂))
    (hmany : Enough cfg acts₁ acts₂) :
    Quiescent cfg (runFrom (Fajita.step cfg) σ (acts₁ ++ acts₂)) ∧
      ∀ w < cfg.W, AtRest w (runFrom (Fajita.step cfg) σ (acts₁ ++ acts₂)) ∧
        (runFrom (Fajita.step cfg) σ (acts₁ ++ acts₂)).myItems w = [] := by
  obtain ⟨hC₁, hC₂⟩ := along_append.mp hC
  have hs₁ : Steady cfg (runFrom (Fajita.step cfg) σ acts₁) :=
    hC₁.inv (fun _ _ hs ha => hs.step ha.1) hs
  have hrest₁ : ∀ w < cfg.W, AtRest w (runFrom (Fajita.step cfg) σ acts₁) := fun w hw =>
    atRest_of_tasks hs hC₁ (hmany.first w hw)
  rw [runFrom_append]
  obtain ⟨hs₂, hrest₂⟩ := hC₂.inv (I := fun σ => Steady cfg σ ∧ ∀ w < cfg.W, AtRest w σ)
    (fun σ a h ha => ⟨h.1.step ha.1, fun w hw => (h.2 w hw).step h.1 ha⟩) ⟨hs₁, hrest₁⟩
  refine ⟨⟨fun w hw => (hrest₂ w hw).unflagged.transferShard, fun w hw => (hrest₂ w hw).signal,
    fun w hw => noNews_of_tasks hs₁ hrest₁ hC₂ (hmany.second w hw),
    fun s hlt => hs₂.unpaused hrest₂ hlt, fun w hw => (hrest₂ w hw).myown⟩, fun w hw => ?_⟩
  exact ⟨hrest₂ w hw, (hs₂.calm w).mine (hrest₂ w hw).myown⟩

/-- **The router comes to rest.** In every run in which no task strands packets: once the
controller is silent and every core has had so many tasks, in whatever order and however many
packets arrive meanwhile, nothing is under way any more, no request is left and every `myring` is
worked off. -/
theorem comes_to_rest {acts acts₁ acts₂ : List (Act D)}
    (hC : Along (step cfg) (fun σ a => Possible cfg σ a ∧ NoStrand cfg σ a) (init D cfg) acts)
    (hsilent : Along (step cfg) (Silent cfg) (runFrom (step cfg) (init D cfg) acts)
      (acts₁ ++ acts₂))
    (hmany : Enough cfg acts₁ acts₂) :
    Quiescent cfg (runFrom (step cfg) (init D cfg) (acts ++ (acts₁ ++ acts₂))) ∧
      ∀ w < cfg.W, AtRest w (runFrom (step cfg) (init D cfg) (acts ++ (acts₁ ++ acts₂))) ∧
        (runFrom (step cfg) (init D cfg) (acts ++ (acts₁ ++ acts₂))).myItems w = [] := by
  rw [runFrom_append]
  exact (hC.inv (fun _ _ hs ha => hs.step ha) steady_init).quiescent hsilent hmany

/-! ## The end of a hand-over -/

omit [Double D] in
/-- A task that drops no news of a release strands no packets. -/
theorem noStrand_of_noSlip {a : Act D} (h : NoSlipNoRecall cfg σ a) : NoStrand cfg σ a := by
  cases a with
  | work w inp => exact fun hs => h ⟨hs.1, hs.2.2⟩
  | arrive | epoch | offload => trivial

/-- Without an epoch the assignment stays. -/
theorem step_assignment (h : Wired cfg σ) {a : Act D} (ha : Possible cfg σ a)
    (hquiet : a.isEpoch = false) : (step cfg σ a).A = σ.A := by
  cases a with
  | arrive p => rfl
  | epoch ans vec => cases hquiet
  | work w inp => exact (h.runTask_localTo ha inp).A
  | offload e accept =>
    obtain ⟨core, ring, transmitted, lost, heq, -⟩ := OffloadingCore.runTask_eq cfg e accept σ
    rw [Fajita.step, heq]
    rfl

/-- The steps of a run that hands shards over in order. -/
def Undisturbed (cfg : Cfg) (σ : Sys D) (a : Act D) : Prop :=
  (Possible cfg σ a ∧ AssignsShards cfg a) ∧ NoSlipNoRecall cfg σ a

/-- Steps without an epoch, in an orderly run. -/
theorem along_silent {acts : List (Act D)} (hC : Along (step cfg) (Undisturbed cfg) σ acts)
    (hquiet : ∀ a ∈ acts, a.isEpoch = false) : Along (step cfg) (Silent cfg) σ acts := by
  refine along_iff_split.mpr fun pre a post hsplit => ?_
  have ha := along_iff_split.mp hC pre a post hsplit
  exact ⟨⟨ha.1.1, noStrand_of_noSlip ha.2⟩, hquiet a (by simp [hsplit])⟩

/-- **An answer of the solver takes effect.** From an agreed state at rest, in every run in which no
task drops the news of a release and no epoch recalls a shard in flight: when the controller has
been silent since an answer for so many tasks of every core, each shard is owned by the working core
the answer assigns it to, and on its way to no other. -/
theorem answer_takes_effect (hs : Steady cfg σ) (hone : OneHot cfg σ.A) (hagreed : Agreed cfg σ)
    (hrest : Quiescent cfg σ) (hsolver : cfg.solver = true) {ans : Answer D}
    {vec : ℕ → List FlowKey} {acts acts₁ acts₂ : List (Act D)}
    (hC : Along (step cfg) (Undisturbed cfg) σ (acts ++ .epoch (some ans) vec :: (acts₁ ++ acts₂)))
    (hquiet : ∀ a ∈ acts₁ ++ acts₂, a.isEpoch = false) (hmany : Enough cfg acts₁ acts₂) :
    ∀ s < cfg.totalShards, ∀ v < cfg.totalCores,
      (ans.A s v = 1 ↔ v = ((runFrom (step cfg) σ
        (acts ++ .epoch (some ans) vec :: (acts₁ ++ acts₂))).shards s).owner) ∧
      ((runFrom (step cfg) σ
        (acts ++ .epoch (some ans) vec :: (acts₁ ++ acts₂))).shards s).ownerNew = uint32Max := by
  have hinv : ∀ (σ : Sys D) a, (Steady cfg σ ∧ Handed cfg σ) → Undisturbed cfg σ a →
      Steady cfg (step cfg σ a) ∧ Handed cfg (step cfg σ a) := fun σ a h ha =>
    ⟨h.1.step ⟨ha.1.1, noStrand_of_noSlip ha.2⟩, h.2.step ha.1 ha.2⟩
  have hend := hC.inv hinv ⟨hs, hagreed.handed hone hrest⟩
  obtain ⟨hbefore, hepoch, hafter⟩ := along_append.mp hC
  have hbefore := hbefore.inv hinv ⟨hs, hagreed.handed hone hrest⟩
  obtain ⟨σ₀, hσ₀⟩ : ∃ σ₀, σ₀ = runFrom (step cfg) σ acts := ⟨_, rfl⟩
  rw [runFrom_append, ← hσ₀, runFrom_cons] at hend ⊢
  rw [← hσ₀] at hepoch hafter hbefore
  have hstart := hinv _ _ hbefore hepoch
  -- what the answer puts in force stays in force
  have hasked : ∀ s < cfg.totalShards, ∀ v < cfg.totalCores,
      (step cfg σ₀ (.epoch (some ans) vec)).A s v = ans.A s v := by
    intro s hlt v hv
    have hA := (Controller.updateShortEpoch_moved cfg σ₀ (some ans) vec).A s hlt v hv
    rwa [Controller.asked, if_pos hsolver] at hA
  have hsilent := along_silent hafter hquiet
  have hA : (runFrom (step cfg) (step cfg σ₀ (.epoch (some ans) vec)) (acts₁ ++ acts₂)).A =
      (step cfg σ₀ (.epoch (some ans) vec)).A :=
    (hsilent.inv (I := fun σ => Steady cfg σ ∧ σ.A = (step cfg σ₀ (.epoch (some ans) vec)).A)
      (fun σ a h ha => ⟨h.1.step ha.1, (step_assignment h.1.wired ha.1.1 ha.2).trans h.2⟩)
      ⟨hstart.1, rfl⟩).2
  have hagree := hend.2.agreed (hstart.1.quiescent hsilent hmany).1
  intro s hlt v hv
  refine ⟨?_, (hagree s hlt).1⟩
  rw [← hasked s hlt v hv, ← hA]
  exact (hagree s hlt).2 v hv

end

/-! ## Three runs -/

instance [Double D] (cfg : Cfg) (σ : Sys D) : DecidablePred (Silent cfg σ) := fun _ =>
  inferInstanceAs (Decidable ((_ ∧ _) ∧ _))

instance [Double D] (cfg : Cfg) (σ : Sys D) : DecidablePred (Undisturbed cfg σ) := fun _ =>
  inferInstanceAs (Decidable ((_ ∧ _) ∧ _))

namespace Small

/-- The small router with bursts of a full ring. -/
def quick (E : Fin 3) : Cfg := { router E with burst := fun _ => 4095 }

/-- A packet waits for core 0 when the two cores are asked to swap their shards. -/
def swapped : List (Act ℚ) :=
  [.arrive (packet 1 0), .epoch (some (answer (1 - ·) (fun _ => 2) fun _ => 0)) fun _ => []]

/-- The tasks that bring both cores to rest, and two more packets. -/
def resting : List (Act ℚ) :=
  .arrive (packet 2 1) :: .work 0 (task 1) :: .arrive (packet 3 0) ::
    (List.replicate 5 [.work 1 (task 1), .work 0 (task 1)]).flatten ++ [.work 1 (task 1)]

/-- Two shards change hands, and both pauses end. -/
theorem swapped_pause_ends :
    Meets (step (quick 0)) (fun σ => (σ.shards 0).pause = false)
      (runFrom (step (quick 0)) (init ℚ (quick 0)) swapped) resting :=
  pause_ends (w := 0) (by decide +kernel) (by decide) (by decide +kernel) (by decide)

/-- With one more task each, the cores have heard of it. -/
theorem swapped_comes_to_rest :
    Quiescent (quick 0) (runFrom (step (quick 0)) (init ℚ (quick 0))
      (swapped ++ (resting ++ [.work 0 (task 1), .work 1 (task 1)]))) :=
  (comes_to_rest (by decide +kernel) (by decide +kernel)
    ⟨by decide, by decide⟩).1

/-- The small router at rest, with a packet on its way from core 1 to the offloading core. -/
def quickAtRest (E : Fin 3) : Sys ℚ := { init ℚ (quick E) with
  shards := fun s => { Init.shard ℚ (quick E) s with ownerNew := uint32Max }
  ring := Function.update (init ℚ (quick E)).ring (.queue 1) ⟨4095, [packet 9 1], by decide⟩ }

/-- The small router at rest is steady. -/
theorem quickAtRest_steady : Steady (quick 1) (quickAtRest 1) where
  wired :=
    { pair := (@wired_init ℚ (quick 1)).pair
      queues := (@wired_init ℚ (quick 1)).queues
      idle := fun w h => absurd h (show ¬ 4095 = 0 by decide)
      foreign := fun r hr => by
        have hne : r ≠ .queue 1 := by
          rintro rfl
          exact absurd hr (by decide)
        simp only [quickAtRest, update_of_ne hne]
        rfl
      noLocal := fun _ => rfl }
  calm w := ⟨fun _ => rfl, fun hm => by cases hm⟩
  announced w _ s _ ho := by cases ho.2.1
  sized r := by
    by_cases hr : r = .queue 1
    · rw [hr]
      rfl
    · simp only [quickAtRest, update_of_ne hr]
      rfl
  flagged _ _ _ := ⟨rfl, rfl, rfl⟩
  owner s := Nat.mod_lt s (quick 1).W_pos
  sent s hp := by cases hp

/-- Shard 0 is moved to core 1, whose ratio changes too. -/
def move : Answer ℚ := answer (fun _ => 1) (fun _ => 0) fun s => if s = 1 then 1 / 2 else 0

/-- Core 1 works off its packet when core 0 releases the shard. -/
def taken : List (Act ℚ) :=
  .work 1 (task 1) :: .work 0 (task 1) ::
    (List.replicate 5 [.work 1 (task 1), .work 0 (task 1)]).flatten

/-- One shard moves, and its new owner is the one that was asked for. -/
theorem move_takes_effect :
    ((runFrom (step (quick 1)) (quickAtRest 1) ([] ++ .epoch (some move) (fun _ => []) ::
      (taken ++ [.work 0 (task 1), .work 1 (task 1)]))).shards 0).owner = 1 :=
  ((answer_takes_effect quickAtRest_steady (by decide +kernel) (by decide +kernel)
    (by decide +kernel) rfl (by decide +kernel) (by decide) ⟨by decide, by decide⟩
    0 (by decide) 1 (by decide)).1.mp rfl).symm

end Small

end Fajita
