import Fajita.Requests
import Fajita.Steps

/-!
# Tasks and epochs without interruption

`Fajita.Requests` follows the controller and the working cores access by access. The
steps that a party makes alone lead where the routine of the atomic model leads, as far as
the flags, the signals, the ratios and the owners are concerned (`view`): those of the
controller to the end of the solver branch (`goes_applyAnswer`), those of a core to the
end of its signal block (`goes_serveSignal`) or of the drained branch (`goes_drained`).

So every run of the atomic model is a run of `Fajita.Requests` in which nobody
interrupts anybody (`refines`).
-/

namespace Fajita

namespace Requests

section

variable {D : Type}

/-- The variables of the atomic model, between two tasks; `prob2s` and `changed` are left
from the last epoch. -/
def view (prob2s : ℕ → List D) (σ : Sys D) (changed : Bool) : State D where
  flag := fun
    | .r => σ.transferR
    | .offloading => σ.transferOffloading
    | .shard => σ.transferShard
  signal := σ.controllerSignal
  r s := (σ.shards s).r
  rNew s := (σ.shards s).rNew
  prob2s := prob2s
  owner s := (σ.shards s).owner
  ownerNew s := (σ.shards s).ownerNew
  pause s := (σ.shards s).pause
  A := σ.A
  newA := σ.newA
  O := σ.O
  newO := σ.newO
  changed := changed
  ctrl := .idle
  pc _ := .idle

/-- A field of the shards after one of them has been rewritten. -/
theorem field_updateShard {β : Type*} (φ : ShardInfo D → β) {s : ℕ}
    {f : ShardInfo D → ShardInfo D} {shards : ℕ → ShardInfo D} :
    (fun s' => φ (updateShard s f shards s')) =
      Function.update (fun s' => φ (shards s')) s (φ (f (shards s))) :=
  Function.comp_update φ shards s _

/-- A field that is not rewritten. -/
theorem field_same {β : Type*} (φ : ShardInfo D → β) {s : ℕ} {f : ShardInfo D → ShardInfo D}
    {shards : ℕ → ShardInfo D} (h : φ (f (shards s)) = φ (shards s)) :
    (fun s' => φ (updateShard s f shards s')) = fun s' => φ (shards s') := by
  rw [field_updateShard, h]
  exact Function.update_eq_self s _

variable {cfg : Cfg} {σ : Sys D} {ps : ℕ → List D} {b : Bool}

/-! ## The writes

Each write of the atomic model, seen through `view`, is the write of one variable here.
-/

theorem view_rNew (s : ℕ) (x : D) :
    view ps { σ with shards := updateShard s (fun sh => { sh with rNew := x }) σ.shards } b =
      { view ps σ b with rNew := Function.update (view ps σ b).rNew s x } :=
  State.ext rfl rfl (field_same ShardInfo.r rfl) (field_updateShard ShardInfo.rNew)
    rfl (field_same ShardInfo.owner rfl)
    (field_same ShardInfo.ownerNew rfl) (field_same ShardInfo.pause rfl)
    rfl rfl rfl rfl rfl rfl rfl

theorem view_r (s : ℕ) (x : D) :
    view ps { σ with shards := updateShard s (fun sh => { sh with r := x }) σ.shards } b =
      { view ps σ b with r := Function.update (view ps σ b).r s x } :=
  State.ext rfl rfl (field_updateShard ShardInfo.r) (field_same ShardInfo.rNew rfl)
    rfl (field_same ShardInfo.owner rfl)
    (field_same ShardInfo.ownerNew rfl) (field_same ShardInfo.pause rfl)
    rfl rfl rfl rfl rfl rfl rfl

theorem view_pause (s : ℕ) (x : Bool) :
    view ps { σ with shards := updateShard s (fun sh => { sh with pause := x }) σ.shards } b =
      { view ps σ b with pause := Function.update (view ps σ b).pause s x } :=
  State.ext rfl rfl (field_same ShardInfo.r rfl) (field_same ShardInfo.rNew rfl)
    rfl (field_same ShardInfo.owner rfl)
    (field_same ShardInfo.ownerNew rfl) (field_updateShard ShardInfo.pause)
    rfl rfl rfl rfl rfl rfl rfl

theorem view_ownerNew (s v : ℕ) :
    view ps { σ with shards := updateShard s (fun sh => { sh with ownerNew := v }) σ.shards } b =
      { view ps σ b with ownerNew := Function.update (view ps σ b).ownerNew s v } :=
  State.ext rfl rfl (field_same ShardInfo.r rfl) (field_same ShardInfo.rNew rfl)
    rfl (field_same ShardInfo.owner rfl)
    (field_updateShard ShardInfo.ownerNew) (field_same ShardInfo.pause rfl)
    rfl rfl rfl rfl rfl rfl rfl

theorem view_owner (s v : ℕ) :
    view ps { σ with shards := updateShard s (fun sh => { sh with owner := v }) σ.shards } b =
      { view ps σ b with owner := Function.update (view ps σ b).owner s v } :=
  State.ext rfl rfl (field_same ShardInfo.r rfl) (field_same ShardInfo.rNew rfl)
    rfl (field_updateShard ShardInfo.owner)
    (field_same ShardInfo.ownerNew rfl) (field_same ShardInfo.pause rfl)
    rfl rfl rfl rfl rfl rfl rfl

theorem view_transferR (v : ℕ) (x : Bool) :
    view ps { σ with transferR := Function.update σ.transferR v x } b =
      (view ps σ b).setFlag .r v x :=
  State.ext (funext fun f => by cases f <;> rfl) rfl rfl rfl rfl rfl rfl rfl rfl rfl rfl rfl rfl
    rfl rfl

theorem view_transferOffloading (v : ℕ) (x : Bool) :
    view ps { σ with transferOffloading := Function.update σ.transferOffloading v x } b =
      (view ps σ b).setFlag .offloading v x :=
  State.ext (funext fun f => by cases f <;> rfl) rfl rfl rfl rfl rfl rfl rfl rfl rfl rfl rfl rfl
    rfl rfl

theorem view_transferShard (v : ℕ) (x : Bool) :
    view ps { σ with transferShard := Function.update σ.transferShard v x } b =
      (view ps σ b).setFlag .shard v x :=
  State.ext (funext fun f => by cases f <;> rfl) rfl rfl rfl rfl rfl rfl rfl rfl rfl rfl rfl rfl
    rfl rfl

/-! ## The controller

The loops of the controller are followed iteration by iteration: an iteration takes a few steps, and
so the loop takes the sum of them.
-/

/-- **`run_short_solver`** -/
theorem goes_runShortSolver [Double D] (ans : Answer D) :
    GoesTo (step cfg) .ctrl ((view ps σ b).goOn (.answering ans 0))
      ((view ps (Controller.runShortSolver cfg ans σ) b).goOn (.ratio 0)) := by
  -- the shards when `i` of them have been written
  let written : ℕ → ℕ → ShardInfo D := fun i => forRange i
    (fun s shards => Function.update shards s { shards s with rNew := ans.r s }) σ.shards
  have hloop := GoesTo.loop (step cfg) .ctrl (n := cfg.totalShards)
    (f := fun i => (view ps { σ with shards := written i } b).goOn (.answering ans i))
    fun i hi => by
      refine .one ?_
      have hwrite := @view_rNew _ { σ with shards := written i } ps b i (ans.r i)
      simp only [step, control, State.goOn, if_pos hi]
      exact (congrArg (State.goOn (.answering ans (i + 1))) hwrite).symm
  refine hloop.trans (.one ?_)
  simp only [step, control, State.goOn, if_neg (Nat.lt_irrefl _)]
  rfl

theorem ratioStep_shards [Double D] (s : ℕ) (l : Controller.RatioLoop D) :
    (Controller.ratioStep s l).shards =
      updateShard s (fun sh => { sh with rNew := Controller.ratioNew sh }) l.shards := by
  rw [Controller.ratioStep]
  split <;> rfl

/-- An iteration of `update_ratio`. -/
theorem goes_ratioStep [Double D] {s : ℕ} (hs : s < cfg.totalShards) {l : Controller.RatioLoop D}
    (hps : ps s = Controller.prob2s (l.shards s)) :
    GoesTo (step cfg) .ctrl
      ((view ps { σ with shards := l.shards, transferR := l.transferR } l.changed).goOn (.ratio s))
      ((view ps { σ with
          shards := (Controller.ratioStep s l).shards
          transferR := (Controller.ratioStep s l).transferR }
        (Controller.ratioStep s l).changed).goOn (.ratio (s + 1))) := by
  let τ : Sys D := { σ with shards := l.shards, transferR := l.transferR }
  let snap : Sys D := { τ with
    shards := updateShard s (fun sh => { sh with rNew := Controller.ratioNew sh }) l.shards }
  have hsnap : step cfg ((view ps τ l.changed).goOn (.ratio s)) .ctrl =
      (view ps snap l.changed).goOn (.comparing s) := by
    have hwrite := @view_rNew _ τ ps l.changed s (Controller.ratioNew (l.shards s))
    have hratio : snapped ((view ps τ l.changed).prob2s s) ((view ps τ l.changed).rNew s) =
        Controller.ratioNew (l.shards s) := congrArg (snapped · _) hps
    simp only [step, control, State.goOn, if_pos hs, hratio]
    exact (congrArg (State.goOn (.comparing s)) hwrite).symm
  refine .head hsnap ?_
  by_cases hne : (!isEqualThan (snap.shards s).r (snap.shards s).rNew) = true
  · have hcompare : step cfg ((view ps snap l.changed).goOn (.comparing s)) .ctrl =
        (view ps snap true).goOn (.raising s (snap.shards s).owner) := if_pos hne
    have hstep : Controller.ratioStep s l = ⟨snap.shards,
        Function.update l.transferR (snap.shards s).owner true, true⟩ := if_pos hne
    have hraise := @view_transferR _ snap ps true (snap.shards s).owner true
    rw [hstep]
    refine .head hcompare (.one ?_)
    exact (congrArg (State.goOn (.ratio (s + 1))) hraise).symm
  · have hcompare : step cfg ((view ps snap l.changed).goOn (.comparing s)) .ctrl =
        (view ps snap l.changed).goOn (.ratio (s + 1)) := if_neg hne
    have hstep : Controller.ratioStep s l = ⟨snap.shards, l.transferR, l.changed⟩ := if_neg hne
    rw [hstep]
    exact .one hcompare

/-- **`update_ratio`** -/
theorem goes_updateRatio [Double D] (hps : ∀ s, ps s = Controller.prob2s (σ.shards s)) :
    GoesTo (step cfg) .ctrl ((view ps σ false).goOn (.ratio 0))
      ((view ps (Controller.updateRatio cfg σ).1 (Controller.updateRatio cfg σ).2).goOn
        (.ratio cfg.totalShards)) := by
  let loop : ℕ → Controller.RatioLoop D := fun i =>
    forRange i Controller.ratioStep ⟨σ.shards, σ.transferR, false⟩
  have hloop : ∀ i s, ps s = Controller.prob2s ((loop i).shards s) := by
    intro i
    refine forRange_inv (P := fun l : Controller.RatioLoop D =>
      ∀ s, ps s = Controller.prob2s (l.shards s)) hps ?_
    intro i _ l hl s
    rw [hl, ratioStep_shards]
    exact (congrFun (field_same Controller.prob2s rfl) s).symm
  exact GoesTo.loop (step cfg) .ctrl (n := cfg.totalShards)
    (f := fun i => (view ps { σ with shards := (loop i).shards, transferR := (loop i).transferR }
      (loop i).changed).goOn (.ratio i)) fun i hi => goes_ratioStep hi (hloop i i)

/-- The cores of the list are asked for another offloading core. -/
theorem goes_relating [Double D] (ws : List ℕ) :
    GoesTo (step cfg) .ctrl ((view ps σ b).goOn (.relating ws))
      ((view ps { σ with
          transferOffloading :=
            ws.foldl (fun t w => Function.update t w true) σ.transferOffloading } b).goOn
        .assigning) := by
  induction ws generalizing σ with
  | nil => exact .one rfl
  | cons w ws ih =>
    have hask := @view_transferOffloading _ σ ps b w true
    refine .head ?_ (ih (σ := { σ with
      transferOffloading := Function.update σ.transferOffloading w true }))
    exact (congrArg (State.goOn (.relating ws)) hask).symm

/-- The two loops of `update_relationship` ask the cores of `asked`. -/
theorem updateRelationship_asked
    (hoff : σ.offloadingFromWorking = Init.offloadingFromWorking cfg)
    (hne : Controller.sameRelation cfg σ = false) :
    (Controller.updateRelationship cfg σ).1.transferOffloading =
      (asked cfg σ.O σ.newO).foldl (fun t w => Function.update t w true) σ.transferOffloading := by
  have hlose : ∀ w e l, (Controller.relationLose σ w e l).transferOffloading =
      l.transferOffloading := fun w e l => by
    rw [Controller.relationLose]
    split <;> rfl
  simp only [Controller.updateRelationship, hne, Bool.false_eq_true, if_false]
  refine forRange_flatMap (φ := Controller.RelationLoop.transferOffloading) (fun w l => ?_) _ _
  refine forRange_filterMap (φ := Controller.RelationLoop.transferOffloading)
    (fun e l hnone => ?_) (fun e l a hsome => ?_) _ _
  · rw [hlose, Controller.relationGain, hoff, if_neg fun hgain => by simp [hgain] at hnone]
  · rw [hlose, Controller.relationGain, hoff]
    split at hsome
    · next hgain =>
      obtain rfl := Option.some.inj hsome
      rw [if_pos hgain]
    · cases hsome

/-- **`update_relationship`** -/
theorem goes_updateRelationship [Double D]
    (hoff : σ.offloadingFromWorking = Init.offloadingFromWorking cfg) :
    GoesTo (step cfg) .ctrl ((view ps σ b).goOn (.ratio cfg.totalShards))
      ((view ps (Controller.updateRelationship cfg σ).1
        (b || (Controller.updateRelationship cfg σ).2)).goOn .assigning) := by
  have hend : step cfg ((view ps σ b).goOn (.ratio cfg.totalShards)) .ctrl =
      relate cfg ((view ps σ b).goOn (.ratio cfg.totalShards)) := if_neg (Nat.lt_irrefl _)
  refine .head hend ?_
  cases hsame : Controller.sameRelation cfg σ with
  | true =>
    have hrelate : relate cfg ((view ps σ b).goOn (.ratio cfg.totalShards)) =
        (view ps σ b).goOn .assigning := if_pos (of_decide_eq_true hsame)
    have hupdate : Controller.updateRelationship cfg σ = (σ, false) := by
      rw [Controller.updateRelationship, if_pos hsame]
    rw [hrelate, hupdate, Bool.or_false]
    exact .refl _
  | false =>
    have hrelate : relate cfg ((view ps σ b).goOn (.ratio cfg.totalShards)) =
        (view ps { σ with O := σ.newO } true).goOn (.relating (asked cfg σ.O σ.newO)) :=
      if_neg (of_decide_eq_false hsame)
    have hview : view ps (Controller.updateRelationship cfg σ).1
        (b || (Controller.updateRelationship cfg σ).2) = view ps { σ with
          O := σ.newO
          transferOffloading := (Controller.updateRelationship cfg σ).1.transferOffloading }
            true := by
      simp only [Controller.updateRelationship, hsame, Bool.false_eq_true, if_false, Bool.or_true]
      rfl
    rw [hrelate, hview, updateRelationship_asked hoff hsame]
    exact goes_relating _

/-- A pass of `update_shards` works off `moves`. -/
theorem migrationPass_moves (cfg : Cfg) (A newA : ℕ → ℕ → ℕ) (send : Bool)
    (m : Controller.Migration D) : Controller.migrationPass cfg A newA send m =
      (moves cfg A newA).foldl (fun m p => Controller.migrationShard p.1 p.2 send m) m := by
  refine forRange_flatMap (φ := id) (fun s m => ?_) _ _
  refine forRange_filterMap (φ := id) (fun w m hnone => ?_) (fun w m p hsome => ?_) _ _
  · rw [if_neg fun hnew => by simp [hnew] at hnone]
  · split at hsome
    · next hnew =>
      obtain rfl := Option.some.inj hsome
      rw [if_pos hnew]
      rfl
    · cases hsome

/-- The first pass of `update_shards`. -/
theorem goes_requesting [Double D] (mv todo : List (ℕ × ℕ)) (t : ℕ → Bool) :
    GoesTo (step cfg) .ctrl ((view ps σ b).goOn (.requesting todo mv))
      ((view ps { σ with
          shards := (todo.foldl (fun m p => Controller.migrationShard p.1 p.2 false m)
            ⟨σ.shards, t⟩).shards } b).goOn (.signalling mv)) := by
  induction todo generalizing σ with
  | nil => exact .one rfl
  | cons p todo ih =>
    obtain ⟨s, w⟩ := p
    by_cases ho : (σ.shards s).owner = w
    · have hstep : step cfg ((view ps σ b).goOn (.requesting ((s, w) :: todo) mv)) .ctrl =
          (view ps σ b).goOn (.requesting todo mv) := if_pos ho
      have hmigrate : Controller.migrationShard s w false ⟨σ.shards, t⟩ = ⟨σ.shards, t⟩ :=
        if_pos ho
      rw [List.foldl_cons, hmigrate]
      exact .head hstep ih
    · let τ : Sys D := { σ with
        shards := updateShard s (fun sh => { sh with ownerNew := w }) σ.shards }
      have hstep : step cfg ((view ps σ b).goOn (.requesting ((s, w) :: todo) mv)) .ctrl =
          (view ps τ b).goOn (.pausing s todo mv) :=
        (if_neg ho).trans (congrArg (State.goOn (.pausing s todo mv)) (view_ownerNew s w)).symm
      have hpause : step cfg ((view ps τ b).goOn (.pausing s todo mv)) .ctrl =
          (view ps { τ with shards := updateShard s (fun sh => { sh with pause := true }) τ.shards }
            b).goOn (.requesting todo mv) :=
        (congrArg (State.goOn (.requesting todo mv)) (view_pause s true)).symm
      have hmigrate : Controller.migrationShard s w false ⟨σ.shards, t⟩ =
          ⟨updateShard s (fun sh => { sh with pause := true }) τ.shards, t⟩ := by
        rw [updateShard_updateShard]
        exact if_neg ho
      rw [List.foldl_cons, hmigrate]
      exact .head hstep (.head hpause (ih (σ := { τ with
        shards := updateShard s (fun sh => { sh with pause := true }) τ.shards })))

/-- The second pass of `update_shards`. -/
theorem goes_signalling [Double D] (todo : List (ℕ × ℕ)) :
    GoesTo (step cfg) .ctrl ((view ps σ b).goOn (.signalling todo))
      ((view ps { σ with
          transferShard := (todo.foldl (fun m p => Controller.migrationShard p.1 p.2 true m)
            ⟨σ.shards, σ.transferShard⟩).transferShard } b).goOn .finishing) := by
  induction todo generalizing σ with
  | nil => exact .one rfl
  | cons p todo ih =>
    obtain ⟨s, w⟩ := p
    by_cases ho : (σ.shards s).owner = w
    · have hstep : step cfg ((view ps σ b).goOn (.signalling ((s, w) :: todo))) .ctrl =
          (view ps σ b).goOn (.signalling todo) := if_pos ho
      have hmigrate : Controller.migrationShard s w true ⟨σ.shards, σ.transferShard⟩ =
          ⟨σ.shards, σ.transferShard⟩ := if_pos ho
      rw [List.foldl_cons, hmigrate]
      exact .head hstep ih
    · have hstep : step cfg ((view ps σ b).goOn (.signalling ((s, w) :: todo))) .ctrl =
          (view ps σ b).goOn (.alarming (σ.shards s).owner todo) := if_neg ho
      have hmigrate : Controller.migrationShard s w true ⟨σ.shards, σ.transferShard⟩ =
          ⟨σ.shards, Function.update σ.transferShard (σ.shards s).owner true⟩ := if_neg ho
      have hset := @view_transferShard _ σ ps b (σ.shards s).owner true
      rw [List.foldl_cons, hmigrate]
      refine .head hstep (.head ?_ (ih (σ := { σ with
        transferShard := Function.update σ.transferShard (σ.shards s).owner true })))
      exact (congrArg (State.goOn (.signalling todo)) hset).symm

/-- **`update_shards`** -/
theorem goes_updateShards [Double D] :
    GoesTo (step cfg) .ctrl ((view ps σ b).goOn .assigning)
      ((view ps (Controller.updateShards cfg σ).1 (b || (Controller.updateShards cfg σ).2)).goOn
        .finishing) := by
  cases hsame : Controller.sameAssignment cfg σ with
  | true =>
    have hassign : step cfg ((view ps σ b).goOn .assigning) .ctrl = (view ps σ b).goOn .finishing :=
      if_pos (of_decide_eq_true hsame)
    have hupdate : Controller.updateShards cfg σ = (σ, false) := by
      rw [Controller.updateShards, if_pos hsame]
    rw [hupdate, Bool.or_false]
    exact .one hassign
  | false =>
    let mv := moves cfg σ.A σ.newA
    let marked := (mv.foldl (fun m p => Controller.migrationShard p.1 p.2 false m)
      ⟨σ.shards, σ.transferShard⟩).shards
    have hassign : step cfg ((view ps σ b).goOn .assigning) .ctrl =
        (view ps { σ with A := σ.newA } true).goOn (.requesting mv mv) :=
      if_neg (of_decide_eq_false hsame)
    have hview : view ps (Controller.updateShards cfg σ).1
        (b || (Controller.updateShards cfg σ).2) = view ps { σ with
          A := σ.newA
          shards := marked
          transferShard := (mv.foldl (fun m p => Controller.migrationShard p.1 p.2 true m)
            ⟨marked, σ.transferShard⟩).transferShard } true := by
      simp only [Controller.updateShards, hsame, Bool.false_eq_true, if_false, Bool.or_true,
        Controller.updateReta, migrationPass_moves]
      rfl
    rw [hview]
    exact .head hassign ((goes_requesting mv mv σ.transferShard).trans (goes_signalling mv))

/-- **The signals** -/
theorem goes_sendSignals [Double D] :
    GoesTo (step cfg) .ctrl ((view ps σ b).goOn .finishing)
      (view ps (if b then Controller.sendSignals cfg σ else σ) b) := by
  cases b with
  | false => exact .one rfl
  | true =>
    let sent : ℕ → Sys D := fun i => { σ with
      controllerSignal := forRange i (fun i sig => Function.update sig i true)
        σ.controllerSignal }
    have hloop := GoesTo.loop (step cfg) .ctrl (n := cfg.W)
      (f := fun i => (view ps (sent i) true).goOn (.announcing i)) fun i hi => .one (if_pos hi)
    have hend : step cfg ((view ps (sent cfg.W) true).goOn (.announcing cfg.W)) .ctrl =
        view ps (sent cfg.W) true := if_neg (Nat.lt_irrefl _)
    exact .head rfl (hloop.trans (.one hend))

/-- **The solver branch.** The steps of the controller alone, from the solver's answer to
the last signal, are the solver branch of the atomic `update_short_epoch`. -/
theorem goes_applyAnswer [Double D] (ans : Answer D)
    (hoff : σ.offloadingFromWorking = Init.offloadingFromWorking cfg) :
    ∃ b', GoesTo (step cfg) .ctrl
      (step cfg (view ps σ b) (.epoch ans fun s => Controller.prob2s (σ.shards s)))
      (view (fun s => Controller.prob2s (σ.shards s)) (Controller.applyAnswer cfg ans σ) b') := by
  let shares := fun s => Controller.prob2s (σ.shards s)
  let solved := Controller.runShortSolver cfg ans σ
  let ratios := Controller.updateRatio cfg solved
  let related := Controller.updateRelationship cfg ratios.1
  let assigned := Controller.updateShards cfg related.1
  have hshares : ∀ s, shares s = Controller.prob2s (solved.shards s) := fun s =>
    (forRange_update_field (φ := Controller.prob2s) (h := fun s sh => { sh with rNew := ans.r s })
      (fun _ _ => rfl) _ σ.shards s).symm
  have hbegin : step cfg (view ps σ b) (.epoch ans shares) =
      (view shares σ false).goOn (.answering ans 0) := rfl
  have hanswer : GoesTo (step cfg) .ctrl ((view shares σ false).goOn (.answering ans 0))
      ((view shares solved false).goOn (.ratio 0)) := goes_runShortSolver ans
  have hratio : GoesTo (step cfg) .ctrl ((view shares solved false).goOn (.ratio 0))
      ((view shares ratios.1 ratios.2).goOn (.ratio cfg.totalShards)) := goes_updateRatio hshares
  have hrelate : GoesTo (step cfg) .ctrl
      ((view shares ratios.1 ratios.2).goOn (.ratio cfg.totalShards))
      ((view shares related.1 (ratios.2 || related.2)).goOn .assigning) :=
    goes_updateRelationship hoff
  have hassign : GoesTo (step cfg) .ctrl
      ((view shares related.1 (ratios.2 || related.2)).goOn .assigning)
      ((view shares assigned.1 (ratios.2 || related.2 || assigned.2)).goOn .finishing) :=
    goes_updateShards
  rw [hbegin]
  exact ⟨ratios.2 || related.2 || assigned.2,
    (hanswer.trans (hratio.trans (hrelate.trans hassign))).trans goes_sendSignals⟩

/-! ## The working cores -/

variable {w : ℕ} {found : Bool}

theorem goto_goto (st : State D) (l l' : Pc) : (st.goto w l).goto w l' = st.goto w l' := by
  simp only [State.goto, Function.update_idem]

theorem view_goto_idle (σ : Sys D) (b : Bool) : (view ps σ b).goto w .idle = view ps σ b := by
  rw [State.goto, show Function.update (view ps σ b).pc w Pc.idle = (view ps σ b).pc from
    Function.update_eq_self w _]

section

open WorkingCore

theorem exchange_view : view ps (exchange w σ) b = view ps σ b := by
  rw [exchange]
  split <;> rfl

theorem withdraw_view : view ps (withdraw w σ) b = view ps σ b := by
  rw [withdraw]
  split <;> rfl

theorem announce_view : view ps (announce w σ) b = view ps σ b := by
  rw [announce]
  split <;> rfl

theorem takeBack_view : view ps (takeBack cfg w σ) b = view ps σ b := by
  rw [takeBack]
  split <;> rfl

theorem adopt_view : view ps (adopt w σ) b = view ps σ b := by
  rw [adopt]
  dsimp only
  split <;> rfl

theorem collect_view (drains : List ℕ) : view ps (collect cfg w drains σ) b = view ps σ b := by
  have hreceive : view ps (receiveAll cfg w drains (withdraw w σ)) b =
      view ps (withdraw w σ) b := rfl
  rw [collect, announce_view, takeBack_view, hreceive, withdraw_view]

end

/-- The loop of `transfer_r`. -/
theorem goes_takeRatios [Double D] :
    GoesTo (step cfg) (.go w found) ((view ps σ b).goto w (.copying 0))
      ((view ps (WorkingCore.takeRatios cfg w σ) b).goto w (.clearing .r)) := by
  let copied : ℕ → ℕ → ShardInfo D := fun i => forRange i
    (fun s shards => Function.update shards s
      (if (shards s).owner = w then { shards s with r := (shards s).rNew } else shards s)) σ.shards
  have hloop := GoesTo.loop (step cfg) (.go w found) (n := cfg.totalShards)
    (f := fun i => (view ps { σ with shards := copied i } b).goto w (.copying i)) fun i hi => by
      let st : State D := (view ps { σ with shards := copied i } b).goto w (.copying (i + 1))
      have hstep : step cfg ((view ps { σ with shards := copied i } b).goto w (.copying i))
          (.go w found) = { st with
            r := if st.owner i = w then Function.update st.r i (st.rNew i) else st.r } := by
        simp only [step, go, State.goto_pc, if_true, if_pos hi, goto_goto]
        rfl
      refine .one (hstep.trans ?_)
      by_cases ho : (copied i i).owner = w
      · have hnext : copied (i + 1) =
            updateShard i (fun sh => { sh with r := (copied i i).rNew }) (copied i) :=
          congrArg (Function.update (copied i) i) (if_pos ho)
        have hwrite := @view_r _ { σ with shards := copied i } ps b i (copied i i).rNew
        rw [hnext]
        exact (congrArg (fun r => { st with r := r }) (if_pos ho)).trans
          (congrArg (State.goto w (.copying (i + 1))) hwrite).symm
      · have hnext : copied (i + 1) = copied i :=
          (congrArg (Function.update (copied i) i) (if_neg ho)).trans (Function.update_eq_self ..)
        rw [hnext]
        exact congrArg (fun r => { st with r := r }) (if_neg ho)
  refine hloop.trans (.one ?_)
  simp only [step, go, State.goto_pc, if_true, if_neg (Nat.lt_irrefl _), goto_goto]
  rfl

/-- A core that finds a flag set goes to its handler. -/
theorem step_test_set [Double D] {f : Flag} (hset : (view ps σ b).flag f w = true) :
    step cfg ((view ps σ b).goto w (.test f)) (.go w found) =
      (view ps σ b).goto w (handler found f) := by
  have hset' : ((view ps σ b).goto w (.test f)).flag f w = true := hset
  simp only [step, go, State.goto_pc, if_true, if_pos hset', goto_goto]

/-- A core that finds a flag clear goes on after it. -/
theorem step_test_clear [Double D] {f : Flag} (hclear : ¬ (view ps σ b).flag f w = true) :
    step cfg ((view ps σ b).goto w (.test f)) (.go w found) = (view ps σ b).goto w (after f) := by
  have hclear' : ¬ ((view ps σ b).goto w (.test f)).flag f w = true := hclear
  simp only [step, go, State.goto_pc, if_true, if_neg hclear', goto_goto]

/-- A core clears the flag whose handler is over. -/
theorem step_clearing [Double D] {f : Flag} :
    step cfg ((view ps σ b).goto w (.clearing f)) (.go w found) =
      ((view ps σ b).setFlag f w false).goto w (after f) := by
  simp only [step, go, State.goto_pc, if_true]
  exact goto_goto ((view ps σ b).setFlag f w false) (.clearing f) (after f)

/-- **`transfer_r`**, if it is asked for. -/
theorem goes_serveR [Double D] :
    GoesTo (step cfg) (.go w found) ((view ps σ b).goto w (.test .r))
      ((view ps (WorkingCore.serveR cfg w σ) b).goto w (.test .offloading)) := by
  rw [WorkingCore.serveR]
  split
  · next hset =>
    have hcopy := @goes_takeRatios _ cfg (WorkingCore.exchange w σ) ps b w found _
    rw [exchange_view] at hcopy
    refine .head (step_test_set hset) (hcopy.trans (.one (step_clearing.trans ?_)))
    rw [← view_transferR]
    rfl
  · next hclear => exact .one (step_test_clear hclear)

/-- **`transfer_offloading`**, if it is asked for. -/
theorem goes_serveOffloading [Double D] :
    GoesTo (step cfg) (.go w found) ((view ps σ b).goto w (.test .offloading))
      ((view ps (WorkingCore.serveOffloading cfg w σ) b).goto w (.test .shard)) := by
  rw [WorkingCore.serveOffloading]
  split
  · next hset =>
    let moved := WorkingCore.adopt w (WorkingCore.takeBack cfg w (WorkingCore.withdraw w σ))
    have hmoved : view ps moved b = view ps σ b := by rw [adopt_view, takeBack_view, withdraw_view]
    refine .head (step_test_set hset) (.one (step_clearing.trans ?_))
    have hclear := @view_transferOffloading _ moved ps b w false
    rw [← hmoved, ← hclear]
    rfl
  · next hclear => exact .one (step_test_clear hclear)

/-- A core releases shard `s`, if the test `c` says so. -/
theorem view_release (c : Prop) [Decidable c] (s : ℕ) (h : WorkingCore.Handover D) (l : Pc) :
    { (view ps { σ with shards := h.shards } b).goto w l with
      pause := if c then Function.update (fun s => (h.shards s).pause) s false
        else fun s => (h.shards s).pause } =
      (view ps { σ with shards := (if c then WorkingCore.release s h else h).shards } b).goto w
        l := by
  have hwrite := @view_pause _ { σ with shards := h.shards } ps b s false
  split
  · exact (congrArg (State.goto w l) hwrite).symm
  · rfl

/-- The loop of `transfer_shard` over the shards. -/
theorem goes_releaseAll [Double D] :
    GoesTo (step cfg) (.go w found) ((view ps σ b).goto w (.releasing 0))
      ((view ps (WorkingCore.releaseAll cfg w σ) b).goto w (.clearing .shard)) := by
  let h : ℕ → WorkingCore.Handover D := fun i =>
    forRange i (WorkingCore.releaseOwned w) ⟨σ.shards, σ.hadChanges⟩
  have hloop := GoesTo.loop (step cfg) (.go w found) (n := cfg.totalShards)
    (f := fun i => (view ps { σ with shards := (h i).shards } b).goto w (.releasing i))
    fun i hi => by
      let st : State D :=
        (view ps { σ with shards := (h i).shards } b).goto w (.releasing (i + 1))
      have hstep : step cfg ((view ps { σ with shards := (h i).shards } b).goto w (.releasing i))
          (.go w found) = { st with
            pause := if st.owner i = w ∧ st.ownerNew i ≠ uint32Max then
              Function.update st.pause i false else st.pause } := by
        simp only [step, go, State.goto_pc, if_true, if_pos hi, goto_goto]
        rfl
      exact .one (hstep.trans (view_release _ i (h i) (.releasing (i + 1))))
  refine hloop.trans (.one ?_)
  simp only [step, go, State.goto_pc, if_true, if_neg (Nat.lt_irrefl _), goto_goto]
  rfl

/-- **`transfer_shard`**, if it is asked for; `found` says whether `myown` is set when the
rings and the receive queue have been emptied. -/
theorem goes_serveShard [Double D] {drains : List ℕ}
    (hfound : found = ((WorkingCore.collect cfg w drains σ).worker w).myown) :
    GoesTo (step cfg) (.go w found) ((view ps σ b).goto w (.test .shard))
      ((view ps (WorkingCore.serveShard cfg w drains σ) b).goto w .closing) := by
  rw [WorkingCore.serveShard]
  split
  · next hset =>
    let τ := WorkingCore.collect cfg w drains σ
    -- emptying the rings and the receive queue touches nothing the view shows
    have hcollect : view ps τ b = view ps σ b := collect_view drains
    have hend : ∀ τ' : Sys D, step cfg ((view ps τ' b).goto w (.clearing .shard)) (.go w found) =
        (view ps { τ' with transferShard := Function.update τ'.transferShard w false } b).goto w
          .closing := fun τ' => by
      rw [step_clearing, view_transferShard]
      rfl
    refine .head (step_test_set hset) ?_
    rw [← hcollect]
    -- packets found: the handler returns early, and the shards stay paused
    by_cases hmine : (τ.worker w).myown = true
    · have hhandler : handler found .shard = .clearing .shard := if_pos (hfound.trans hmine)
      have htransfer : WorkingCore.transferShard cfg w drains σ =
          { τ with transferShard := Function.update τ.transferShard w false } := by
        have hτ : WorkingCore.collect cfg w drains σ = τ := rfl
        simp only [WorkingCore.transferShard, hτ, if_pos hmine]
      rw [hhandler, htransfer]
      exact .one (hend τ)
    · have hhandler : handler found .shard = .releasing 0 := if_neg fun h => hmine (hfound ▸ h)
      have htransfer : WorkingCore.transferShard cfg w drains σ =
          { WorkingCore.releaseAll cfg w τ with
            transferShard := Function.update (WorkingCore.releaseAll cfg w τ).transferShard w
              false } := by
        have hτ : WorkingCore.collect cfg w drains σ = τ := rfl
        simp only [WorkingCore.transferShard, hτ, if_neg hmine]
      rw [hhandler, htransfer]
      exact goes_releaseAll.trans (.one (hend _))
  · next hclear => exact .one (step_test_clear hclear)

/-- **The signal block.** The steps of a core alone, from the read of its signal, are the
signal block of the atomic `run_task`. -/
theorem goes_serveSignal [Double D] (drains : List ℕ) :
    ∃ found, GoesTo (step cfg) (.go w found) (step cfg (view ps σ b) (.serve w))
      (view ps (WorkingCore.serveSignal cfg w drains σ) b) := by
  by_cases hsignal : σ.controllerSignal w = true
  · let ratios := WorkingCore.serveR cfg w σ
    let moved := WorkingCore.serveOffloading cfg w ratios
    let released := WorkingCore.serveShard cfg w drains moved
    let found := ((WorkingCore.collect cfg w drains moved).worker w).myown
    have hserve : step cfg (view ps σ b) (.serve w) = (view ps σ b).goto w (.test .r) :=
      if_pos ⟨rfl, hsignal⟩
    have hr : GoesTo (step cfg) (.go w found) ((view ps σ b).goto w (.test .r))
        ((view ps ratios b).goto w (.test .offloading)) := goes_serveR
    have ho : GoesTo (step cfg) (.go w found) ((view ps ratios b).goto w (.test .offloading))
        ((view ps moved b).goto w (.test .shard)) := goes_serveOffloading
    have hs : GoesTo (step cfg) (.go w found) ((view ps moved b).goto w (.test .shard))
        ((view ps released b).goto w .closing) := goes_serveShard rfl
    have hclose : step cfg ((view ps released b).goto w .closing) (.go w found) =
        view ps { released with
          controllerSignal := Function.update released.controllerSignal w false } b := by
      simp only [step, go, State.goto_pc, if_true]
      refine (goto_goto ((view ps released b).setSignal w false) .closing .idle).trans ?_
      exact view_goto_idle { released with
        controllerSignal := Function.update released.controllerSignal w false } b
    rw [WorkingCore.serveSignal, if_pos hsignal, hserve]
    exact ⟨found, hr.trans (ho.trans (hs.trans (.one hclose)))⟩
  · have hserve : step cfg (view ps σ b) (.serve w) = view ps σ b := if_neg fun h => hsignal h.2
    rw [WorkingCore.serveSignal, if_neg hsignal, hserve]
    exact ⟨false, .refl _⟩

/-- The first test of an iteration of the drained branch. -/
theorem goes_drainedRelease [Double D] {s : ℕ} (hs : s < cfg.totalShards)
    {h : WorkingCore.Handover D} :
    GoesTo (step cfg) (.go w found)
      ((view ps { σ with shards := h.shards } b).goto w (.draining s))
      ((view ps { σ with shards := (WorkingCore.drainedRelease w s h).shards } b).goto w
        (.testing s)) := by
  let st : State D := (view ps { σ with shards := h.shards } b).goto w (.testing s)
  have hstep : step cfg ((view ps { σ with shards := h.shards } b).goto w (.draining s))
      (.go w found) = { st with
        pause := if st.pause s = true ∧ st.owner s = w ∧ st.ownerNew s ≠ uint32Max then
          Function.update st.pause s false else st.pause } := by
    simp only [step, go, State.goto_pc, if_true, if_pos hs, goto_goto]
    rfl
  exact .one (hstep.trans (view_release _ s h (.testing s)))

/-- The second test of an iteration of the drained branch. -/
theorem goes_drainedAcquire [Double D] {s : ℕ} {h : WorkingCore.Handover D} :
    GoesTo (step cfg) (.go w found)
      ((view ps { σ with shards := h.shards } b).goto w (.testing s))
      ((view ps { σ with shards := (WorkingCore.drainedAcquire w s h).shards } b).goto w
        (.draining (s + 1))) := by
  let st : State D := view ps { σ with shards := h.shards } b
  by_cases ho : (h.shards s).pause = false ∧ (h.shards s).ownerNew = w
  · let τ : Sys D := { σ with
      shards := updateShard s (fun sh => { sh with ownerNew := uint32Max }) h.shards }
    have hforget := @view_ownerNew _ { σ with shards := h.shards } ps b s uint32Max
    have htest : step cfg (st.goto w (.testing s)) (.go w found) =
        (view ps τ b).goto w (.acquiring s) := by
      have ho' : (st.goto w (.testing s)).pause s = false ∧
          (st.goto w (.testing s)).ownerNew s = w := ho
      rw [hforget]
      simp only [step, go, State.goto_pc, if_true, if_pos ho', goto_goto]
      rfl
    have hown := @view_owner _ τ ps b s w
    have htake : step cfg ((view ps τ b).goto w (.acquiring s)) (.go w found) =
        (view ps { τ with shards := updateShard s (fun sh => { sh with owner := w }) τ.shards }
          b).goto w (.draining (s + 1)) := by
      rw [hown]
      simp only [step, go, State.goto_pc, if_true, goto_goto]
      rfl
    have hnext : (WorkingCore.drainedAcquire w s h).shards =
        updateShard s (fun sh => { sh with owner := w }) τ.shards := by
      rw [updateShard_updateShard]
      exact congrArg WorkingCore.Handover.shards (if_pos ho)
    rw [hnext]
    exact .head htest (.one htake)
  · have htest : step cfg (st.goto w (.testing s)) (.go w found) =
        st.goto w (.draining (s + 1)) := by
      have ho' : ¬ ((st.goto w (.testing s)).pause s = false ∧
          (st.goto w (.testing s)).ownerNew s = w) := ho
      simp only [step, go, State.goto_pc, if_true, if_neg ho', goto_goto]
    have hnext : WorkingCore.drainedAcquire w s h = h := if_neg ho
    rw [hnext]
    exact .one htest

/-- **The drained branch.** The steps of a core alone that has worked off its ring are the
drained branch of the atomic `run_task`. -/
theorem goes_drained [Double D] :
    GoesTo (step cfg) (.go w found) (step cfg (view ps σ b) (.drain w))
      (view ps (WorkingCore.drained cfg w σ) b) := by
  let h : ℕ → WorkingCore.Handover D := fun i => forRange i
    (fun s h => WorkingCore.drainedAcquire w s (WorkingCore.drainedRelease w s h))
    ⟨σ.shards, σ.hadChanges⟩
  have hidle : (view ps σ b).pc w = .idle := rfl
  have hdrain : step cfg (view ps σ b) (.drain w) = (view ps σ b).goto w (.draining 0) := by
    rw [step, if_pos hidle]
  have hloop := GoesTo.loop (step cfg) (.go w found) (n := cfg.totalShards)
    (f := fun i => (view ps { σ with shards := (h i).shards } b).goto w (.draining i))
    fun i hi => (goes_drainedRelease hi).trans goes_drainedAcquire
  have hend : step cfg ((view ps { σ with shards := (h cfg.totalShards).shards } b).goto w
      (.draining cfg.totalShards)) (.go w found) =
      view ps { σ with shards := (h cfg.totalShards).shards } b := by
    simp only [step, go, State.goto_pc, if_true, if_neg (Nat.lt_irrefl _), goto_goto]
    exact view_goto_idle _ b
  rw [hdrain]
  exact hloop.trans (.one hend)

/-- The state both models start from. -/
theorem start_view [Double D] (cfg : Cfg) :
    start D cfg = view (fun _ => []) (init D cfg) false :=
  State.ext (funext fun f => by cases f <;> rfl) rfl rfl rfl rfl rfl rfl rfl rfl rfl rfl rfl rfl
    rfl rfl

/-! ## Runs -/

/-- The fields of a shard that the view shows. -/
def seen (sh : ShardInfo D) : D × D × ℕ × ℕ × Bool :=
  (sh.r, sh.rNew, sh.owner, sh.ownerNew, sh.pause)

theorem seen_of_settings {sh sh' : ShardInfo D} (h : sh'.settings = sh.settings) :
    seen sh' = seen sh := by
  obtain ⟨hr, hrNew, hpause, howner, hownerNew, -⟩ := Settings.mk.inj h
  simp only [seen, hr, hrNew, hpause, howner, hownerNew]

variable (σ) in
/-- Shards that show the same. -/
theorem view_shards {shards : ℕ → ShardInfo D} (h : ∀ s, seen (shards s) = seen (σ.shards s)) :
    view ps { σ with shards := shards } b = view ps σ b := by
  have hfield : ∀ {β : Type} (φ : D × D × ℕ × ℕ × Bool → β),
      (fun s => φ (seen (shards s))) = fun s => φ (seen (σ.shards s)) := fun φ =>
    funext fun s => congrArg φ (h s)
  exact State.ext rfl rfl (hfield fun t => t.1) (hfield fun t => t.2.1) rfl
    (hfield fun t => t.2.2.1) (hfield fun t => t.2.2.2.1) (hfield fun t => t.2.2.2.2)
    rfl rfl rfl rfl rfl rfl rfl

variable (σ) in
/-- A loop over the shards that rewrites nothing of what the view shows. -/
theorem view_loop {h : ℕ → ShardInfo D → ShardInfo D} (hh : ∀ s sh, seen (h s sh) = seen sh)
    (n : ℕ) : view ps { σ with
      shards := forRange n (fun s shards => Function.update shards s (h s (shards s)))
        σ.shards } b = view ps σ b :=
  view_shards σ fun s => forRange_update_field (φ := seen) hh n σ.shards s

theorem processChanges_view : view ps (WorkingCore.processChanges cfg w σ) b = view ps σ b := by
  rw [WorkingCore.processChanges]
  split
  · refine (view_shards σ fun s => ?_ : view ps { σ with
      shards := (WorkingCore.serveChanges cfg w σ).shards } b = view ps σ b)
    refine forRange_inv (P := fun l : WorkingCore.ChangesLoop D =>
      seen (l.shards s) = seen (σ.shards s)) rfl fun i _ l hl => ?_
    rw [WorkingCore.takeLocal]
    split
    · exact (congrFun (field_same seen rfl) s).trans hl
    · exact hl
  · rfl

variable [Double D]

/-- The steps of a party after its step `a`. -/
theorem exists_schedule {st st' : State D} {a l : Act D}
    (h : GoesTo (step cfg) l (step cfg st a) st') :
    ∃ acts, runFrom (step cfg) st acts = st' := by
  obtain ⟨n, hn⟩ := h
  exact ⟨a :: List.replicate n l, hn⟩

/-- **A task of a working core** is a run: its signal block or its drained branch. -/
theorem runTask_refines (inp : TaskInput) :
    ∃ acts, runFrom (step cfg) (view ps σ b) acts =
      view ps (WorkingCore.runTask cfg w inp σ).1 b := by
  rw [WorkingCore.runTask]
  split
  · split
    · exact exists_schedule (goes_drained : GoesTo (step cfg) (.go w false) _ _)
    · have hview : view ps (WorkingCore.workOff cfg w inp.accept σ).1 b = view ps σ b :=
        view_shards σ fun s => seen_of_settings (extractAll_settings cfg w σ.epoch _ σ.shards s)
      exact ⟨[], hview.symm⟩
  · let served := WorkingCore.serveSignal cfg w inp.drains σ
    let changed := WorkingCore.processChanges cfg w served
    have hview : ∀ batch, view ps (WorkingCore.forward cfg w inp.accept batch changed).1 b =
        view ps served b := fun batch =>
      (view_shards changed fun s => seen_of_settings
        (classify_settings cfg w changed.epoch batch changed.shards s)).trans processChanges_view
    obtain ⟨found, hserve⟩ := @goes_serveSignal _ cfg σ ps b w _ inp.drains
    obtain ⟨acts, hacts⟩ := exists_schedule hserve
    exact ⟨acts, hacts.trans (hview _).symm⟩

theorem volumeShards_view : view ps (Controller.volumeShards cfg σ) b = view ps σ b := by
  rw [Controller.volumeShards]
  split
  · rfl
  · split
    · exact view_loop σ (h := fun _ sh =>
        { sh with V := (sh.oldPackets.toNat : D) * 1e-6 * 1e6 / (100000 : ℕ) })
        (fun _ _ => rfl) cfg.totalShards
    · exact view_loop σ (h := fun _ sh => { sh with V := 0 }) (fun _ _ => rfl) cfg.totalShards

/-- The part of an epoch before the solver is asked. -/
theorem beforeSolver_view :
    view ps (Controller.volumeShards cfg (Controller.swapShards cfg σ)) b = view ps σ b :=
  volumeShards_view.trans (view_loop σ (h := fun _ sh => { sh with
    use2 := !sh.use2
    oldBytes := sh.bytes
    oldPackets := sh.packets
    bytes := 0
    packets := 0 }) (fun _ _ => rfl) cfg.totalShards)

/-- The part of an epoch after the solver branch. -/
theorem afterSolver_view (vec : ℕ → List FlowKey) (n : UInt32) :
    view ps (Controller.clearFlows cfg (Controller.orderShards cfg vec { σ with epoch := n })) b =
      view ps σ b := by
  have hclear : ∀ σ : Sys D, view ps (Controller.clearFlows cfg σ) b = view ps σ b := fun σ =>
    view_loop σ (h := fun _ sh =>
      if sh.use2 then { sh with flows3 := [] } else { sh with flows3₂ := [] })
      (fun _ sh => by split <;> rfl) cfg.totalShards
  have horder : ∀ σ : Sys D, view ps (Controller.orderShards cfg vec σ) b = view ps σ b := fun σ =>
    view_loop σ (h := fun s sh => Controller.orderShard (vec s) sh) (fun _ _ => rfl) cfg.totalShards
  exact (hclear _).trans (horder { σ with epoch := n })

/-- **An epoch** is a run: the steps of the solver branch, if the solver answers. -/
theorem updateShortEpoch_refines (ans : Option (Answer D)) (vec : ℕ → List FlowKey)
    (hoff : σ.offloadingFromWorking = Init.offloadingFromWorking cfg) :
    ∃ acts ps' b', runFrom (step cfg) (view ps σ b) acts =
      view ps' (Controller.updateShortEpoch cfg ans vec σ) b' := by
  let τ := Controller.volumeShards cfg (Controller.swapShards cfg σ)
  have hτ : view ps τ b = view ps σ b := beforeSolver_view
  have hoffτ : τ.offloadingFromWorking = Init.offloadingFromWorking cfg :=
    (Controller.beforeSolver_aside cfg σ).frame.offloadingFromWorking.trans hoff
  cases ans with
  | none => exact ⟨[], ps, b, ((afterSolver_view vec _).trans hτ).symm⟩
  | some ans =>
    let solved := if cfg.solver then Controller.applyAnswer cfg ans τ else τ
    have hepoch : Controller.updateShortEpoch cfg (some ans) vec σ = Controller.clearFlows cfg
        (Controller.orderShards cfg vec { solved with epoch := solved.epoch + 1 }) := rfl
    have hsolved : ∃ acts ps' b', runFrom (step cfg) (view ps τ b) acts = view ps' solved b' := by
      by_cases hsolver : cfg.solver = true
      · obtain ⟨b', hgoes⟩ := @goes_applyAnswer _ cfg τ ps b _ ans hoffτ
        obtain ⟨acts, hacts⟩ := exists_schedule hgoes
        have hon : solved = Controller.applyAnswer cfg ans τ := if_pos hsolver
        exact ⟨acts, _, b', by rw [hacts, hon]⟩
      · have hoff : solved = τ := if_neg hsolver
        exact ⟨[], ps, b, by rw [hoff, runFrom_nil]⟩
    obtain ⟨acts, ps', b', hacts⟩ := hsolved
    rw [hepoch, ← hτ]
    exact ⟨acts, ps', b', hacts.trans (afterSolver_view vec _).symm⟩

/-- **Refinement.** Every run of the atomic model is, as far as the flags, the signals, the
ratios and the owners are concerned, a run of this one. -/
theorem refines {acts : List (Fajita.Act D)}
    (hp : Along (Fajita.step cfg) (Possible cfg) (init D cfg) acts) :
    ∃ acts' ps b, runFrom (step cfg) (start D cfg) acts' =
      view ps (runFrom (Fajita.step cfg) (init D cfg) acts) b := by
  let P : Sys D → Prop := fun σ => Wired cfg σ ∧
    σ.offloadingFromWorking = Init.offloadingFromWorking cfg ∧
      ∃ acts' ps b, runFrom (step cfg) (start D cfg) acts' = view ps σ b
  have hstep : ∀ σ a, P σ → Possible cfg σ a → P (Fajita.step cfg σ a) := by
    rintro σ a ⟨hwired, hoff, acts, ps, b, hacts⟩ ha
    refine ⟨hwired.step ha, ?_, ?_⟩
    · cases a with
      | arrive p => exact hoff
      | epoch ans vec =>
        exact (Controller.updateShortEpoch_frame cfg σ ans vec).offloadingFromWorking.trans hoff
      | work w inp => exact (hwired.runTask_localTo ha inp).offloadingFromWorking.trans hoff
      | offload e accept =>
        obtain ⟨core, ring, transmitted, lost, heq, -⟩ := OffloadingCore.runTask_eq cfg e accept σ
        rw [Fajita.step, heq]
        exact hoff
    · -- arrivals and offloading cores do not show: no step of this model
      have hrest : ∃ acts' ps' b', runFrom (step cfg) (view ps σ b) acts' =
          view ps' (Fajita.step cfg σ a) b' := by
        cases a with
        | arrive p => exact ⟨[], ps, b, rfl⟩
        | epoch ans vec => exact updateShortEpoch_refines ans vec hoff
        | work w inp =>
          obtain ⟨acts', hacts'⟩ := @runTask_refines _ cfg σ ps b w _ inp
          exact ⟨acts', ps, b, hacts'⟩
        | offload e accept =>
          obtain ⟨core, ring, transmitted, lost, heq, -⟩ :=
            OffloadingCore.runTask_eq cfg e accept σ
          rw [Fajita.step, heq]
          exact ⟨[], ps, b, rfl⟩
      obtain ⟨acts', ps', b', hacts'⟩ := hrest
      exact ⟨acts ++ acts', ps', b', by rw [runFrom_append, hacts, hacts']⟩
  exact (hp.inv hstep ⟨wired_init, rfl, [], _, _, start_view cfg⟩).2.2

end

end Requests

end Fajita
