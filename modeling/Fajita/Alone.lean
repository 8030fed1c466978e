import Fajita.Accesses
import Fajita.Epoch

/-!
# Threads that are not interrupted

A program of `Fajita.Accesses` that nobody interrupts does what the routine of the atomic model
does, part by part: `exec_program`. So a run of the router (`Fajita.System`) is a run of the
threads in which each one gets to its end before the next one begins (`goesTo_step`).
-/

namespace Fajita

namespace Accesses

open Prog

variable {D : Type}

/-! ## The working core

Each part of a task has one lemma: run alone, with no other thread in between, it leaves what the
routine of the same name leaves in the model of whole tasks, and it has no result but the state. The
loops go over the fields of one record there, which `withHandover` puts back into the state.
-/

/-- A read of a shard changes nothing. -/
@[simp] theorem exec_shard {α : Type} (s : ℕ) (f : ShardInfo D → α) (σ : Sys D) :
    (shard s f).exec σ = (f (σ.shards s), σ) := rfl

@[simp] theorem exec_shard_bind {α β : Type} (s : ℕ) (f : ShardInfo D → α) (k : α → Part D β)
    (σ : Sys D) : (shard s f >>= k).exec σ = (k (f (σ.shards s))).exec σ := rfl

/-- A write of a shard is `updateShard`. -/
@[simp] theorem exec_setShard (s : ℕ) (f : ShardInfo D → ShardInfo D) (σ : Sys D) :
    (setShard s f).exec σ = ((), { σ with shards := updateShard s f σ.shards }) := rfl

@[simp] theorem exec_postRemove (e : ℕ) (r : RingId) (σ : Sys D) :
    (postRemove e r).exec σ = ((), σ.postRemove e r) := rfl

@[simp] theorem exec_postAdd (e : ℕ) (r : RingId) (σ : Sys D) :
    (postAdd e r).exec σ = ((), σ.postAdd e r) := rfl

/-- `q` is withdrawn as in one go. -/
@[simp] theorem exec_withdraw (w : ℕ) (σ : Sys D) :
    (withdraw w).exec σ = ((), WorkingCore.withdraw w σ) := by
  simp only [withdraw, exec_get_bind, exec_only, exec_postRemove]
  rfl

@[simp] theorem exec_announce (w : ℕ) (σ : Sys D) :
    (announce w).exec σ = ((), WorkingCore.announce w σ) := by
  simp only [announce, exec_get_bind, exec_only, exec_postAdd]
  rfl

@[simp] theorem exec_swapRings (w : ℕ) (σ : Sys D) :
    (swapRings w).exec σ = ((), WorkingCore.swapRings w σ) := by
  simp only [swapRings, exec_andThen, exec_get_bind, exec_put, exec_touch, exec_postRemove,
    exec_postAdd, Sys.setWorker, Function.update_idem, Function.update_self]
  rfl

/-- The loop over the shards is that of the routine, access by access. -/
@[simp] theorem exec_takeRatios (cfg : Cfg) (w : ℕ) (σ : Sys D) :
    (takeRatios cfg w).exec σ = ((), WorkingCore.takeRatios cfg w σ) := by
  simp only [takeRatios, exec_loop, exec_shard_bind, exec_only, exec_setShard]
  refine congrArg _ (forRange_lift (p := fun shards => { σ with shards := shards })
    (fun s shards => ?_) _ σ.shards)
  by_cases howner : (shards s).owner = w
  · simp only [if_pos howner]
    rfl
  · simp only [if_neg howner, Function.update_eq_self]

/-- Alone, `transfer_r` is `WorkingCore.transferR`. -/
@[simp] theorem exec_transferR (cfg : Cfg) (w : ℕ) (σ : Sys D) :
    (transferR cfg w).exec σ = ((), WorkingCore.transferR cfg w σ) := by
  simp only [transferR, exec_andThen, exec_get_bind, exec_only, exec_swapRings, exec_takeRatios,
    exec_touch, exec_put]
  rfl

/-- The fields the hand-over loops change, in the state of the router. -/
def withHandover (σ : Sys D) (h : WorkingCore.Handover D) : Sys D :=
  { σ with
    shards := h.shards
    hadChanges := h.hadChanges }

/-- The shards of the loop are those of the state it works on. -/
@[simp] theorem withHandover_shards (σ : Sys D) (h : WorkingCore.Handover D) :
    (withHandover σ h).shards = h.shards := rfl

/-- An iteration of the loop over the shards: it releases the shard if somebody is
waiting for it. -/
theorem exec_tell (s : ℕ) (σ : Sys D) (h : WorkingCore.Handover D) :
    (tell s).exec (withHandover σ h) = ((), withHandover σ
      (if (h.shards s).ownerNew ≠ uint32Max then WorkingCore.release s h else h)) := by
  simp only [tell, exec, exec_only, exec_andThen, exec_shard_bind, exec_touch, exec_put,
    withHandover, clearPause, updateShard, Function.update_self]
  split <;> rfl

@[simp] theorem exec_releaseAll (cfg : Cfg) (w : ℕ) (σ : Sys D) :
    (releaseAll cfg w).exec σ = ((), WorkingCore.releaseAll cfg w σ) := by
  simp only [releaseAll, exec_loop, exec_shard_bind, exec_only]
  refine congrArg _ (forRange_lift (p := withHandover σ) (fun s h => ?_) _
    ⟨σ.shards, σ.hadChanges⟩)
  rw [exec_tell, WorkingCore.releaseOwned]
  simp only [ite_and, apply_ite (withHandover σ), withHandover_shards]

/-- Alone, `transfer_shard` is `WorkingCore.transferShard`. -/
@[simp] theorem exec_transferShard (cfg : Cfg) (w : ℕ) (drains : List ℕ) (σ : Sys D) :
    (transferShard cfg w drains).exec σ = ((), WorkingCore.transferShard cfg w drains σ) := by
  simp only [transferShard, exec_andThen, exec_get_bind, exec_only, exec_withdraw, exec_announce,
    exec_releaseAll, exec_touch, exec_put, ite_not]
  rfl

@[simp] theorem exec_adopt (w : ℕ) (σ : Sys D) :
    (adopt w).exec σ = ((), WorkingCore.adopt w σ) := by
  simp only [adopt, exec_andThen, exec_get_bind, exec_only, exec_postAdd, exec_touch, exec_put]
  rfl

/-- Alone, `transfer_offloading` is `WorkingCore.transferOffloading`. -/
@[simp] theorem exec_transferOffloading (cfg : Cfg) (w : ℕ) (σ : Sys D) :
    (transferOffloading cfg w).exec σ = ((), WorkingCore.transferOffloading cfg w σ) := by
  simp only [transferOffloading, exec_andThen, exec_withdraw, exec_adopt, exec_touch, exec_put]
  rfl

/-- A flag is served if it is set, and the handler then runs to its end. -/
@[simp] theorem exec_serve (arr : Arr) (flag : Sys D → ℕ → Bool) (w : ℕ) (p : Part D Unit)
    (σ : Sys D) : (serve arr flag w p).exec σ = ((), if flag σ w then (p.exec σ).2 else σ) := by
  simp only [serve, exec_andThen, exec_get_bind, exec_only, exec_touch]

/-- Alone, the signal block is `WorkingCore.signalBlock`. -/
@[simp] theorem exec_signalBlock (cfg : Cfg) (w : ℕ) (drains : List ℕ) (σ : Sys D) :
    (signalBlock cfg w drains).exec σ = ((), WorkingCore.signalBlock cfg w drains σ) := by
  simp only [signalBlock, exec_andThen, exec_serve, exec_transferR, exec_transferOffloading,
    exec_transferShard, exec_touch, exec_put]
  rfl

@[simp] theorem exec_serveChanges (cfg : Cfg) (w : ℕ) (σ : Sys D) :
    (serveChanges cfg w).exec σ = ((), WorkingCore.serveChanges cfg w σ) := rfl

/-- An iteration of the drained branch, for a shard that the core gives away. -/
theorem exec_drainedRelease (w s : ℕ) (σ : Sys D) (h : WorkingCore.Handover D) :
    (drainedRelease w s).exec (withHandover σ h) =
      ((), withHandover σ (WorkingCore.drainedRelease w s h)) := by
  simp only [drainedRelease, exec_shard_bind, exec_only, exec_tell]
  simp only [WorkingCore.drainedRelease, ite_and, apply_ite (withHandover σ), withHandover_shards]

/-- An iteration of the drained branch, for a shard that the core takes over. -/
theorem exec_drainedAcquire (w s : ℕ) (σ : Sys D) (h : WorkingCore.Handover D) :
    (drainedAcquire w s).exec (withHandover σ h) =
      ((), withHandover σ (WorkingCore.drainedAcquire w s h)) := by
  simp only [drainedAcquire, exec_andThen, exec_shard_bind, exec_only, exec_setShard]
  simp only [WorkingCore.drainedAcquire, ite_and, apply_ite (withHandover σ), withHandover_shards,
    updateShard_updateShard]
  rfl

/-- Alone, the drained branch is `WorkingCore.drained`. -/
@[simp] theorem exec_drained (cfg : Cfg) (w : ℕ) (σ : Sys D) :
    (drained cfg w).exec σ = ((), WorkingCore.drained cfg w σ) := by
  simp only [drained, exec_andThen, exec_loop, exec_put]
  refine congrArg _ (forRange_lift
    (p := withHandover (σ.setWorker w fun me => { me with myown := false })) (fun s h => ?_) _
    ⟨σ.shards, σ.hadChanges⟩)
  rw [exec_drainedRelease, exec_drainedAcquire]

/-! ## The controller

The same for the parts of an epoch. The passes carry what they have found so far (`RelationLoop`,
`Migration`, `RatioLoop`), which here is in the state or is the result of the part.
-/

/-- The fields the loops of `update_relationship` change, in the state of the router. -/
def withRelation (σ : Sys D) (l : Controller.RelationLoop) : Sys D :=
  { σ with
    newOffloadingFromWorking := l.newOffloadingFromWorking
    transferOffloading := l.transferOffloading
    toRemoveQueue := l.toRemoveQueue
    posted := l.posted }

/-- The first test of an iteration of `update_relationship`. -/
theorem exec_relationGain (w e : ℕ) (σ : Sys D) (l : Controller.RelationLoop) :
    (relationGain w e).exec (withRelation σ l) =
      ((), withRelation σ (Controller.relationGain σ w e l)) := by
  simp only [relationGain, exec_andThen, exec_get_bind, exec_only, exec_touch, exec_put,
    decide_eq_true_eq]
  simp only [Controller.relationGain, ite_and, apply_ite (withRelation σ)]
  rfl

/-- The second test of an iteration of `update_relationship`. -/
theorem exec_relationLose (w e : ℕ) (σ : Sys D) (l : Controller.RelationLoop) :
    (relationLose w e).exec (withRelation σ l) =
      ((), withRelation σ (Controller.relationLose σ w e l)) := by
  simp only [relationLose, exec_andThen, exec_get_bind, exec_only, exec_touch, exec_postRemove,
    decide_eq_true_eq]
  simp only [Controller.relationLose, apply_ite (withRelation σ)]
  rfl

@[simp] theorem exec_updateRelationship (cfg : Cfg) (σ : Sys D) :
    (updateRelationship cfg).exec σ =
      ((Controller.updateRelationship cfg σ).2, (Controller.updateRelationship cfg σ).1) := by
  rw [updateRelationship, exec_get_bind, Controller.updateRelationship]
  split
  · rfl
  · have hloop : forRange cfg.totalCores
          (fun w => forRange cfg.totalCores fun e σ' =>
            (((relationGain w e >>= fun _ => relationLose w e : Part D Unit)).exec σ').2) σ =
        withRelation σ (forRange cfg.totalCores
          (fun w => forRange cfg.totalCores fun e l =>
            Controller.relationLose σ w e (Controller.relationGain σ w e l))
          ⟨σ.newOffloadingFromWorking, σ.transferOffloading, σ.toRemoveQueue, σ.posted⟩) := by
      refine forRange_lift (p := withRelation σ) (fun w l => ?_) _ ⟨_, _, _, _⟩
      refine forRange_lift (p := withRelation σ) (fun e l => ?_) _ l
      rw [exec_andThen, exec_relationGain, exec_relationLose]
    simp only [exec_andThen, exec_loop, exec_put]
    simp only [exec_andThen] at hloop
    rw [hloop]
    rfl

/-- The fields `migration_shard` changes, in the state of the router. -/
def withMigration (σ : Sys D) (m : Controller.Migration D) : Sys D :=
  { σ with
    shards := m.shards
    transferShard := m.transferShard }

/-- Alone, `migration_shard` is `Controller.migrationShard`. -/
theorem exec_migrationShard (s w : ℕ) (sendSignal : Bool) (σ : Sys D)
    (m : Controller.Migration D) :
    (migrationShard s w sendSignal).exec (withMigration σ m) =
      ((), withMigration σ (Controller.migrationShard s w sendSignal m)) := by
  rw [migrationShard, exec_shard_bind, exec_only, Controller.migrationShard]
  by_cases howner : (m.shards s).owner = w
  · rw [if_neg (not_not.mpr (show ((withMigration σ m).shards s).owner = w from howner)),
      if_pos howner]
  · rw [if_pos (show ((withMigration σ m).shards s).owner ≠ w from howner), if_neg howner]
    cases sendSignal with
    | false =>
      simp only [Bool.not_false, if_true, exec_andThen, exec_setShard, updateShard_updateShard]
      rfl
    | true => rfl

/-- A pass of `update_shards` over all shards and cores. -/
theorem exec_migrationPass (cfg : Cfg) (sendSignal : Bool) (σ : Sys D)
    (m : Controller.Migration D) :
    (migrationPass cfg sendSignal).exec (withMigration σ m) =
      ((), withMigration σ (Controller.migrationPass cfg σ.A σ.newA sendSignal m)) := by
  rw [migrationPass, exec_loop]
  refine congrArg _ (forRange_lift (p := withMigration σ) (fun s m => ?_) _ m)
  rw [exec_loop]
  refine forRange_lift (p := withMigration σ) (fun w m => ?_) _ m
  rw [exec_get_bind, exec_only, exec_migrationShard]
  simp only [decide_eq_true_eq, apply_ite (withMigration σ)]
  rfl

/-- The first pass only writes shards. -/
theorem exec_requests (cfg : Cfg) (σ : Sys D) :
    (migrationPass cfg false).exec σ = ((), { σ with
      shards := (Controller.migrationPass cfg σ.A σ.newA false
        ⟨σ.shards, σ.transferShard⟩).shards }) := by
  refine (exec_migrationPass cfg false σ ⟨σ.shards, σ.transferShard⟩).trans ?_
  rw [withMigration, (Controller.migrationPass_mark ..).1]

/-- The second pass only raises flags. -/
theorem exec_signals (cfg : Cfg) (σ : Sys D) :
    (migrationPass cfg true).exec σ = ((), { σ with
      transferShard := (Controller.migrationPass cfg σ.A σ.newA true
        ⟨σ.shards, σ.transferShard⟩).transferShard }) := by
  refine (exec_migrationPass cfg true σ ⟨σ.shards, σ.transferShard⟩).trans ?_
  rw [withMigration, (Controller.migrationPass_signal ..).1]

@[simp] theorem exec_updateShards (cfg : Cfg) (σ : Sys D) :
    (updateShards cfg).exec σ =
      ((Controller.updateShards cfg σ).2, (Controller.updateShards cfg σ).1) := by
  rw [updateShards, exec_get_bind, Controller.updateShards]
  split
  · rfl
  · simp only [exec_andThen, exec_requests, exec_put, exec_signals]
    rfl

@[simp] theorem exec_sendSignals (cfg : Cfg) (σ : Sys D) :
    (sendSignals cfg).exec σ = ((), Controller.sendSignals cfg σ) := by
  rw [sendSignals, exec_loop]
  exact congrArg _ (forRange_lift (p := fun sig => ({ σ with controllerSignal := sig } : Sys D))
    (fun i sig => rfl) _ σ.controllerSignal)

variable [Double D]

/-- The fields the loop of `update_ratio` changes, in the state of the router. -/
def withRatios (σ : Sys D) (l : Controller.RatioLoop D) : Bool × Sys D :=
  (l.changed, { σ with shards := l.shards, transferR := l.transferR })

/-- An iteration of `update_ratio`. -/
theorem exec_ratioStep (s : ℕ) (σ : Sys D) (l : Controller.RatioLoop D) :
    (ratioStep s (withRatios σ l).1).exec (withRatios σ l).2 =
      withRatios σ (Controller.ratioStep s l) := by
  have hstep : withRatios σ (Controller.ratioStep s l) = _ := apply_ite (withRatios σ) ..
  rw [ratioStep, exec_andThen, exec_shard_bind, exec_ite, hstep]
  rfl

@[simp] theorem exec_updateRatio (cfg : Cfg) (σ : Sys D) :
    (updateRatio cfg).exec σ =
      ((Controller.updateRatio cfg σ).2, (Controller.updateRatio cfg σ).1) := by
  rw [updateRatio, exec_loopWith]
  exact forRange_lift (p := withRatios σ) (fun s l => exec_ratioStep s σ l) _
    ⟨σ.shards, σ.transferR, false⟩

@[simp] theorem exec_applyAnswer (cfg : Cfg) (ans : Answer D) (σ : Sys D) :
    (applyAnswer cfg ans).exec σ = ((), Controller.applyAnswer cfg ans σ) := by
  simp only [applyAnswer, exec_bind, exec_updateRatio, exec_updateRelationship, exec_updateShards,
    exec_only, exec_sendSignals, exec_put]
  rfl

/-- Alone, an epoch is `Controller.updateShortEpoch`. -/
@[simp] theorem exec_epoch (cfg : Cfg) (ans : Option (Answer D)) (vec : ℕ → List FlowKey)
    (σ : Sys D) :
    (epoch cfg ans vec).exec σ = ((), Controller.updateShortEpoch cfg ans vec σ) := by
  cases ans with
  | none => rfl
  | some ans =>
    simp only [epoch, exec_andThen, exec_only, exec_applyAnswer, exec_put]
    rfl

/-! ## The steps -/

/-- **Alone, a task is `WorkingCore.runTask`.** -/
@[simp] theorem exec_work (cfg : Cfg) (w : ℕ) (inp : TaskInput) (σ : Sys D) :
    (work cfg w inp).exec σ = ((), (WorkingCore.runTask cfg w inp σ).1) := by
  rw [work, exec_get_bind, WorkingCore.runTask]
  split
  · rw [exec_get_bind]
    split
    · rw [exec_drained]
    · rw [exec_put]
  · simp only [exec_andThen, exec_serve, exec_signalBlock, exec_serveChanges, exec_put]
    rfl

/-- **A program that is not interrupted** is the step of the router. -/
theorem exec_program (cfg : Cfg) (a : Act D) (σ : Sys D) :
    (program cfg a).exec σ = ((), step cfg σ a) := by
  cases a with
  | arrive p => rfl
  | epoch ans vec => exact exec_epoch cfg ans vec σ
  | work w inp => exact exec_work cfg w inp σ
  | offload e accept => rfl

/-- A party that is at its end, begins a task and is not interrupted makes the step of the
router. -/
theorem goesTo_step (cfg : Cfg) (a : Act D) {x : World Party (Sys D) ℕ Arr} {u : Unit}
    (hx : (x.thread a.party).prog = .done u) :
    ∃ n', GoesTo (World.step Act.party (program cfg)) a x
      ⟨step cfg x.mem a, Function.update x.thread a.party ⟨n', .done ()⟩⟩ := by
  have hgoes : ∃ n', GoesTo (World.step Act.party (program cfg)) a x
      ⟨((program cfg a).exec x.mem).2, Function.update x.thread a.party ⟨n', .done ()⟩⟩ :=
    World.goesTo_start hx
  rwa [exec_program] at hgoes

end Accesses

end Fajita
