import Fajita.Mailbox
import Fajita.Objective
import Fajita.Rest

/-!
# What optimal answers leave alone

The controller asks the solver for a better placement again and again. Put together
with the controller and the cores, the objective of the solver has consequences for
whole runs of the router in which every answer is optimal, whatever loads and bounds
are asked about:

* the relation between working and offloading cores is for ever the one the router
  started with: no core is told of another offloading core, and none is polled by
  another (`relation_stands`);
* as long as the assignment in force fits the loads, no shard is paused and the NIC's
  table is never written (`assignment_stands`).
-/

namespace Fajita

open Finset (range)

variable {D : Type} {cfg : Cfg} {σ σ' : Sys D} {w : ℕ} {A O : ℕ → ℕ → ℕ}

/-! ## Placements meet the linear constraints

The matrices in force satisfy what is asked of the new ones. An answer may therefore leave
everything as it is, and an optimal one pays for whatever it changes.
-/

/-- The assignment of a placement meets the linear constraints on `A`. -/
theorem Placement.linearA (h : Placement cfg A O) :
    Solver.LinearA cfg.W cfg.totalCores cfg.totalShards A where
  binary s hs i hi := by
    obtain ⟨w, -, hrow⟩ := h.oneHot s hs
    rw [hrow i hi]
    split <;> omega
  assigned s hs := by
    obtain ⟨w, hw, hrow⟩ := h.oneHot s hs
    rw [Finset.sum_congr rfl fun i hi => hrow i (Finset.mem_range.mp hi), Finset.sum_ite_eq',
      if_pos (Finset.mem_range.mpr (show w < cfg.totalCores from Nat.lt_add_right cfg.E hw))]
  busy i hi := by
    obtain ⟨s, hs, hone⟩ := h.busy i hi
    exact hone.ge.trans (Finset.single_le_sum (f := fun s => A s i) (fun _ _ => Nat.zero_le _)
      (Finset.mem_range.mpr hs))
  idle i hi := h.idle i (Finset.mem_Ico.mp hi).1 (Finset.mem_Ico.mp hi).2
  ordered i hi := h.ordered i (by omega)

/-- The relation of a placement meets the linear constraints on `O`. -/
theorem Placement.linearO (h : Placement cfg A O) :
    Solver.LinearO cfg.W cfg.E cfg.totalCores O where
  binary j hj i hi := by
    rcases Nat.eq_zero_or_pos cfg.E with hE | hE
    · rw [h.none hE j hj i hi]
      exact Nat.zero_le 1
    · rcases Nat.lt_or_ge i cfg.W with hW | hW
      · obtain ⟨e, -, hcol⟩ := h.single hE.ne' i hW
        rw [hcol j hj]
        split <;> omega
      · rw [h.rest hE.ne' i hW hi j hj]
        exact Nat.zero_le 1
  none hE i hi := Finset.sum_eq_zero fun j hj => h.none hE j (Finset.mem_range.mp hj) i hi
  single hE i hi := by
    obtain ⟨e, he, hcol⟩ := h.single hE i hi
    rw [Finset.sum_congr rfl fun j hj => hcol j
        (Nat.lt_add_left cfg.W (Finset.mem_range.mp hj)), Finset.sum_ite_eq',
      if_pos (Finset.mem_range.mpr he)]
  within hE i hi := by
    obtain ⟨e, he, hcol⟩ := h.single hE i hi
    refine Finset.sum_eq_zero fun j hj => ?_
    obtain ⟨hj, hcores⟩ := Finset.mem_Ico.mp hj
    rw [hcol j hcores, if_neg (by omega)]
  idle hE i hi := Finset.sum_eq_zero fun j hj =>
    h.rest hE i (Finset.mem_Ico.mp hi).1 (Finset.mem_Ico.mp hi).2 j (Finset.mem_range.mp hj)
  used hE j hj := by
    obtain ⟨w, hw, hone⟩ := h.used hE j hj
    exact hone.ge.trans (Finset.single_le_sum (f := fun i => O j i) (fun _ _ => Nat.zero_le _)
      (Finset.mem_range.mpr (Nat.lt_add_right cfg.E hw)))

/-! ## Optimal answers -/

/-- The controller asks about `q`: its sizes are those of the router and its matrices the ones in
force. Nothing is said of loads and bounds. -/
structure Poses (cfg : Cfg) (σ : Sys D) (q : Solver.Problem) : Prop where
  /-- working cores -/
  W : q.W = cfg.W
  /-- offloading cores -/
  E : q.E = cfg.E
  /-- shards -/
  shards : q.shards = cfg.totalShards
  /-- the assignment in force -/
  A : ∀ s < cfg.totalShards, ∀ w < cfg.totalCores, q.Aold s w = σ.A s w
  /-- the relation in force -/
  O : ∀ e < cfg.totalCores, ∀ w < cfg.totalCores, q.Oold e w = σ.O e w

/-- The answer of an epoch is an optimal point of a problem the controller asks about, and `P`
holds of that problem. -/
def AnswersOptimally (cfg : Cfg) (P : Solver.Problem → Prop) (σ : Sys D) : Act D → Prop
  | .epoch (some ans) _ => ∃ q x served, Poses cfg σ q ∧ P q ∧
    Solver.Optimal (Solver.scale served) q x ∧
    (∀ s < cfg.totalShards, ∀ w < cfg.totalCores, ans.A s w = x.A s w) ∧
    ∀ e < cfg.totalCores, ∀ w < cfg.totalCores, ans.O e w = x.O e w
  | _ => True

/-- The assignment in force fits the loads asked about. -/
def StillFits (q : Solver.Problem) : Prop := Solver.Fits q q.Aold

namespace Poses

variable {q : Solver.Problem} (h : Poses cfg σ q)

include h

theorem cores : q.cores = cfg.totalCores := by
  rw [Solver.Problem.cores, h.W, h.E, Cfg.totalCores]

/-- What is in force meets the linear constraints of the solver. -/
theorem linear (hp : Placement cfg σ.A σ.O) :
    Solver.LinearA q.W q.cores q.shards q.Aold ∧ Solver.LinearO q.W q.E q.cores q.Oold := by
  have hold : Placement cfg q.Aold q.Oold := hp.congr h.A h.O
  rw [h.cores, h.W, h.E, h.shards]
  exact ⟨hold.linearA, hold.linearO⟩

end Poses

section

variable {P : Solver.Problem → Prop} {ans : Answer D} {vec : ℕ → List FlowKey}
  (h : AnswersOptimally cfg P σ (.epoch (some ans) vec))

include h

/-- Optimal answers meet the linear constraints. -/
theorem AnswersOptimally.linear : Solver.LinearA cfg.W cfg.totalCores cfg.totalShards ans.A ∧
    Solver.LinearO cfg.W cfg.E cfg.totalCores ans.O := by
  obtain ⟨q, x, served, hq, -, hx, hA, hO⟩ := h
  have hlinearA := hx.feasible.linearA
  have hlinearO := hx.feasible.linearO
  rw [hq.cores, hq.W, hq.shards] at hlinearA
  rw [hq.cores, hq.W, hq.E] at hlinearO
  have hplacement := (Placement.of_linear hlinearA hlinearO).congr hA hO
  exact ⟨hplacement.linearA, hplacement.linearO⟩

/-- **Optimal answers keep the relation in force.** -/
theorem AnswersOptimally.keepsO (hp : Placement cfg σ.A σ.O) :
    ∀ e < cfg.totalCores, ∀ w < cfg.totalCores, σ.O e w = ans.O e w := by
  obtain ⟨q, x, served, hq, -, hx, -, hO⟩ := h
  obtain ⟨hA, hlinearO⟩ := hq.linear hp
  rw [Solver.scale_eq_zero] at hx
  have hkeeps := hx.keepsO (by rw [hq.W]; exact cfg.W_pos) hlinearO
  rw [hq.cores] at hkeeps
  intro e he w hw
  rw [hO e he w hw, hkeeps e he w hw, hq.O e he w hw]

end

/-- An epoch whose answer is optimal asks for the relation in force. -/
theorem AnswersOptimally.asksO {P : Solver.Problem → Prop} {ans : Option (Answer D)}
    {vec : ℕ → List FlowKey} (h : AnswersOptimally cfg P σ (.epoch ans vec))
    (hp : Placement cfg σ.A σ.O) : ∀ e < cfg.totalCores, ∀ w < cfg.totalCores,
      σ.O e w = Controller.askedO cfg ans σ e w := by
  intro e he w hw
  cases ans with
  | none => rfl
  | some ans =>
    simp only [Controller.askedO]
    split
    · exact h.keepsO hp e he w hw
    · rfl

/-- Optimal answers keep an assignment that fits. -/
theorem AnswersOptimally.keepsA {ans : Answer D} {vec : ℕ → List FlowKey}
    (h : AnswersOptimally cfg StillFits σ (.epoch (some ans) vec)) (hp : Placement cfg σ.A σ.O) :
    ∀ s < cfg.totalShards, ∀ w < cfg.totalCores, σ.A s w = ans.A s w := by
  obtain ⟨q, x, served, hq, hfits, hx, hA, -⟩ := h
  obtain ⟨hlinearA, hlinearO⟩ := hq.linear hp
  rw [Solver.scale_eq_zero] at hx
  have hkeeps := (hx.keepsA_iff (by rw [hq.W]; exact cfg.W_pos) hlinearA hlinearO).mpr hfits
  rw [changed_eq_zero_iff, hq.cores, hq.shards] at hkeeps
  intro s hs w hw
  rw [hA s hs w hw, hkeeps s hs w hw, hq.A s hs w hw]

/-- An optimal answer meets the constraints. -/
theorem AnswersOptimally.meetsConstraints {P : Solver.Problem → Prop} {a : Act D}
    (h : AnswersOptimally cfg P σ a) : MeetsConstraints cfg a := by
  cases a with
  | epoch ans vec =>
    cases ans with
    | some ans => exact h.linear
    | none => trivial
  | arrive | work | offload => trivial

/-! ## The relation -/

/-- The relation between working and offloading cores is the one the router started with. -/
structure Standing (cfg : Cfg) (σ : Sys D) : Prop where
  /-- the relation in force -/
  O : ∀ e < cfg.totalCores, ∀ w < cfg.totalCores, σ.O e w = Init.O cfg e w
  /-- no core is told of another offloading core -/
  told : ∀ w, σ.transferOffloading w = false
  /-- nor waits one to be adopted -/
  newOffloading : ∀ w < cfg.W, σ.newOffloadingFromWorking w = uint32Max
  /-- the working cores keep their offloading cores -/
  offloadingIdx : ∀ w, (σ.worker w).offloadingIdx = Init.offloadingFromWorking cfg w
  /-- an offloading core polls rings of its working cores only -/
  polled : ∀ e, ∀ r ∈ (σ.core e).Q, Init.offloadingFromWorking cfg r.core = e
  /-- and is asked to add no others -/
  added : ∀ e, ∀ r ∈ (σ.toAddQueue e).items, Init.offloadingFromWorking cfg r.core = e

namespace Standing

/-- `init_queues` announces each ring to the offloading core of its working core. -/
theorem init_added (e n : ℕ) (hn : n ≤ cfg.W) (hE : cfg.E ≠ 0) :
    ∀ r ∈ (forRange n (fun i (add : ℕ → Fifo RingId) =>
        Function.update add (i % cfg.E) ((add (i % cfg.E)).enqueue (.queue i)))
        (fun _ => Fifo.empty 4095) e).items,
      Init.offloadingFromWorking cfg r.core = e := by
  induction n with
  | zero => intro r hr; cases hr
  | succ n ih =>
    intro r hr
    rw [forRange_succ] at hr
    by_cases he : e = n % cfg.E
    · subst he
      rw [Function.update_self] at hr
      rcases Fifo.mem_enqueueBurst hr with hr | hr
      · exact ih (Nat.le_of_succ_le hn) r hr
      · rw [List.mem_singleton.mp hr]
        exact (if_pos (show n < cfg.W from hn)).trans (if_pos hE)
    · rw [Function.update_of_ne he] at hr
      exact ih (Nat.le_of_succ_le hn) r hr

/-- The router starts with the relation that it keeps. -/
theorem init [Double D] : Standing cfg (Fajita.init D cfg) where
  O _ _ _ _ := rfl
  told _ := rfl
  newOffloading w hw := if_pos hw
  offloadingIdx _ := rfl
  polled e r hr := by cases hr
  added e r hr := by
    change r ∈ (Init.toAddQueue cfg e).items at hr
    simp only [Init.toAddQueue] at hr
    split at hr
    · next hE => exact init_added e cfg.W le_rfl hE r hr
    · cases hr

/-- Where nothing is posted, the relation stands. -/
theorem of_mail (h : Standing cfg σ) (hs : SameMail σ σ') (hO : σ'.O = σ.O)
    (hl : Lowers σ σ') : Standing cfg σ' where
  O e he w hw := by rw [hO, h.O e he w hw]
  told w := hl.transferOffloading w (h.told w)
  newOffloading w hw := by rw [hs.newOffloading, h.newOffloading w hw]
  offloadingIdx w := by rw [hs.offloadingIdx, h.offloadingIdx w]
  polled e r hr := h.polled e r (by rw [← hs.core]; exact hr)
  added e r hr := h.added e r (by rw [← hs.toAddQueue]; exact hr)

/-- A removal leaves the relation standing. -/
theorem postRemove (h : Standing cfg σ) (e : ℕ) (r : RingId) : Standing cfg (σ.postRemove e r) :=
  { h with }

/-- A core announces rings of its own to its offloading core. -/
theorem postAdd (h : Standing cfg σ) {e : ℕ} {r : RingId}
    (hr : Init.offloadingFromWorking cfg r.core = e) : Standing cfg (σ.postAdd e r) := by
  refine { h with added := fun e' r' hr' => ?_ }
  by_cases he : e' = e
  · subst he
    simp only [Sys.postAdd, Function.update_self] at hr'
    rcases Fifo.mem_enqueueBurst hr' with hr' | hr'
    · exact h.added e' r' hr'
    · rw [List.mem_singleton.mp hr', hr]
  · simp only [Sys.postAdd, Function.update_of_ne he] at hr'
    exact h.added e' r' hr'

/-- It does not matter which of its two rings a core uses. -/
theorem swapRings (h : Standing cfg σ) (hwired : Wired cfg σ) :
    Standing cfg (WorkingCore.swapRings w σ) := by
  simp only [WorkingCore.swapRings]
  refine postAdd ?_ ?_
  · refine ⟨h.O, h.told, h.newOffloading, fun v => ?_, h.polled, h.added⟩
    by_cases hv : v = w
    · simp [hv, Sys.setWorker, Sys.postRemove, h.offloadingIdx]
    · simp [hv, Sys.setWorker, Sys.postRemove, h.offloadingIdx]
  · rw [(hwired.pair w).myring_core, h.offloadingIdx]

variable [Double D]

/-- **A stage leaves the relation alone**: the only one that could change it finds no request. -/
theorem stage (h : Standing cfg σ) (hwired : Wired cfg σ) (hw : w < cfg.W)
    (hs : WorkingCore.Stage cfg w σ σ') : Standing cfg σ' := by
  have hl := hs.lowers
  have hO := (hs.localTo hwired).O
  have hidx := h.offloadingIdx w
  cases hs with
  | takeBack => exact h.of_mail WorkingCore.takeBack_sameMail hO hl
  | receiveAll drains => exact h.of_mail (WorkingCore.receiveAll_sameMail drains) hO hl
  | processChanges => exact h.of_mail WorkingCore.processChanges_sameMail hO hl
  | drained => exact h.of_mail WorkingCore.drained_sameMail hO hl
  | exchange =>
    simp only [WorkingCore.exchange]
    split
    · exact h.swapRings hwired
    · exact h
  | withdraw =>
    simp only [WorkingCore.withdraw]
    split
    · exact h.postRemove _ _
    · exact h
  | announce =>
    simp only [WorkingCore.announce]
    split
    · exact h.postAdd (by rw [(hwired.pair w).q_core, hidx])
    · exact h
  | adopt =>
    simp only [WorkingCore.adopt, h.newOffloading w hw]
    exact h
  | takeRatios | releaseAll | doneR | doneOffloading | doneShard | doneSignal | forward
  | workOff => exact h.of_mail (.of_worker rfl rfl rfl rfl rfl rfl) hO hl

/-- An epoch that asks for the relation in force leaves it alone too. -/
theorem epoch (h : Standing cfg σ) {ans : Option (Answer D)} {vec : ℕ → List FlowKey}
    (hasked : ∀ e < cfg.totalCores, ∀ w < cfg.totalCores,
      σ.O e w = Controller.askedO cfg ans σ e w) :
    Standing cfg (Controller.updateShortEpoch cfg ans vec σ) := by
  have hf := Controller.updateShortEpoch_frame cfg σ ans vec
  have hr := Controller.updateShortEpoch_related cfg σ ans vec
  have hno : ∀ w < cfg.totalCores, ∀ e < cfg.totalCores,
      ¬ Controller.Gains σ (Controller.askedO cfg ans σ) w e := by
    rintro w hw e he ⟨h0, h1, -⟩
    rw [hasked e he w hw, h1] at h0
    cases h0
  refine ⟨fun e he w hw => ?_, fun w => ?_, fun w hw => ?_, fun w => ?_, fun e r hr => ?_,
    fun e r hr => ?_⟩
  · rw [hr.O e he w hw, ← hasked e he w hw, h.O e he w hw]
  · refine Bool.eq_false_iff.mpr fun htold => ?_
    rcases (hr.transferOffloading w).mp htold with htold | ⟨hw, e, he, hg⟩
    · exact Bool.false_ne_true ((h.told w).symm.trans htold)
    · exact hno w hw e he hg
  · rw [hr.newOffloading_same w fun e he => hno w (Nat.lt_add_right cfg.E hw) e he,
      h.newOffloading w hw]
  · rw [hf.worker, h.offloadingIdx w]
  · exact h.polled e r (by rw [← hf.core]; exact hr)
  · exact h.added e r (by rw [← hf.toAddQueue]; exact hr)

omit [Double D] in
/-- An offloading core adds the rings it is asked to add. -/
theorem control (h : Standing cfg σ) (e : ℕ) : Standing cfg (OffloadingCore.control e σ) := by
  refine ⟨h.O, h.told, h.newOffloading, h.offloadingIdx, fun e' r hr => ?_, fun e' r hr => ?_⟩
  · by_cases he : e' = e
    · subst he
      simp only [OffloadingCore.control, Function.update_self, Request.drain_eq,
        List.mem_append] at hr
      rcases hr with hr | hr
      · exact h.polled e' r (List.mem_of_mem_filter hr)
      · exact h.added e' r hr
    · simp only [OffloadingCore.control, Function.update_of_ne he] at hr
      exact h.polled e' r hr
  · by_cases he : e' = e
    · subst he
      simp only [OffloadingCore.control, Function.update_self] at hr
      cases hr
    · simp only [OffloadingCore.control, Function.update_of_ne he] at hr
      exact h.added e' r hr

omit [Double D] in
/-- An offloading core polls the rings that it is asked to add, and these are of its own working
cores. -/
theorem offload (h : Standing cfg σ) (e accept : ℕ) :
    Standing cfg (OffloadingCore.runTask cfg e accept σ).1 := by
  have hcontrol := h.control e
  obtain ⟨hQ, -, hworker, hadd, -⟩ :=
    OffloadingCore.poll_sameMail cfg e accept (OffloadingCore.control e σ)
  have hrest : ∀ σ : Sys D, (OffloadingCore.poll cfg e accept σ).1.O = σ.O ∧
      (OffloadingCore.poll cfg e accept σ).1.transferOffloading = σ.transferOffloading ∧
      (OffloadingCore.poll cfg e accept σ).1.newOffloadingFromWorking =
        σ.newOffloadingFromWorking := by
    intro σ
    simp only [OffloadingCore.poll]
    split <;> exact ⟨rfl, rfl, rfl⟩
  obtain ⟨hO, htold, hnew⟩ := hrest (OffloadingCore.control e σ)
  simp only [OffloadingCore.runTask]
  refine ⟨?_, ?_, ?_, ?_, fun e' r hr => ?_, fun e' r hr => ?_⟩
  · rw [hO]
    exact hcontrol.O
  · rw [htold]
    exact hcontrol.told
  · rw [hnew]
    exact hcontrol.newOffloading
  · rw [hworker]
    exact hcontrol.offloadingIdx
  · exact hcontrol.polled e' r (by rw [← hQ]; exact hr)
  · exact hcontrol.added e' r (by rw [← hadd]; exact hr)

/-- **A step keeps the relation**: an optimal answer asks for no other, since a change
has a price. -/
theorem step {P : Solver.Problem → Prop} (h : Standing cfg σ) (hwired : Wired cfg σ)
    (hp : Placement cfg σ.A σ.O) {a : Act D} (hpossible : Possible cfg σ a)
    (ha : AnswersOptimally cfg P σ a) : Standing cfg (step cfg σ a) := by
  cases a with
  | arrive p => exact ⟨h.O, h.told, h.newOffloading, h.offloadingIdx, h.polled, h.added⟩
  | epoch ans vec => exact h.epoch (ha.asksO hp)
  | work w inp =>
    exact (hwired.runTask_inv (P := Standing cfg) hpossible
      (fun _ _ hwired hσ hs => hσ.stage hwired hpossible hs) h inp).2
  | offload e accept => exact h.offload e accept

end Standing

/-- **The relation stands**: in every run whose answers are optimal, for whatever loads and bounds,
the working cores keep the offloading cores they started with. -/
theorem relation_stands [Double D] (cfg : Cfg) (hshards : cfg.W ≤ cfg.totalShards)
    (hE : cfg.E ≤ cfg.W) {P : Solver.Problem → Prop} (acts : List (Act D))
    (hC : Along (step cfg) (fun σ a => Possible cfg σ a ∧ AnswersOptimally cfg P σ a)
      (init D cfg) acts) :
    Standing cfg (runFrom (step cfg) (init D cfg) acts) := by
  have hinit : Arranged cfg (init D cfg) :=
    ⟨placement_init hshards hE, fun _ _ _ _ => rfl, fun _ _ _ _ => rfl⟩
  refine (hC.inv (I := fun σ => Wired cfg σ ∧ Arranged cfg σ ∧ Standing cfg σ) ?_
    ⟨wired_init, hinit, Standing.init⟩).2.2
  rintro σ a ⟨hwired, harranged, h⟩ ⟨hp, ha⟩
  exact ⟨hwired.step hp, harranged.step hwired hp ha.meetsConstraints,
    h.step hwired harranged.placement hp ha⟩

/-! ## The assignment

The argument is the same for the assignment, except that the assignment in force must still fit: the
loads change with the traffic.
-/

/-- Nothing has been moved since the router started. -/
structure Still [Double D] (cfg : Cfg) (σ : Sys D) : Prop where
  /-- the assignment in force -/
  A : ∀ s < cfg.totalShards, ∀ w < cfg.totalCores, σ.A s w = Init.A cfg s w
  /-- no shard is paused -/
  unpaused : ∀ s, (σ.shards s).pause = false
  /-- no core is to give shards away -/
  told : ∀ w, σ.transferShard w = false
  /-- the redirection table -/
  nicReta : σ.nicReta = (init D cfg).nicReta

namespace Controller

/-- An answer that keeps the assignment moves nothing. -/
theorem applyAnswer_unmoved [Double D] (ans : Answer D)
    (hA : ∀ s < cfg.totalShards, ∀ w < cfg.totalCores, σ.A s w = ans.A s w) :
    Unmoved σ (applyAnswer cfg ans σ) := by
  have h₁ := (beforeShards_aside cfg σ ans).unmoved
  have hsame : sameAssignment cfg
      (updateRelationship cfg (updateRatio cfg (runShortSolver cfg ans σ)).1).1 = true := by
    rw [sameAssignment, decide_eq_true_eq, h₁.A, updateRelationship_newA]
    exact hA
  simp only [applyAnswer, updateShards, if_pos hsame]
  split
  · exact h₁.trans sendSignals_aside.unmoved
  · exact h₁

/-- An epoch whose answer keeps the assignment moves nothing. -/
theorem updateShortEpoch_unmoved [Double D] (ans : Option (Answer D)) (vec : ℕ → List FlowKey)
    (hA : ∀ s < cfg.totalShards, ∀ w < cfg.totalCores, σ.A s w = asked cfg ans σ s w) :
    Unmoved σ (updateShortEpoch cfg ans vec σ) := by
  have h₁ := beforeSolver_aside cfg σ
  simp only [updateShortEpoch]
  refine (h₁.unmoved.trans ?_).trans (afterSolver_aside cfg _ vec _).unmoved
  cases ans with
  | none => exact .refl _
  | some ans =>
    dsimp only
    simp only [asked] at hA
    split
    · next hsolver =>
      rw [if_pos hsolver] at hA
      exact applyAnswer_unmoved ans (by rw [h₁.unmoved.A]; exact hA)
    · exact .refl _

end Controller

namespace Still

variable [Double D]

/-- Nothing has been moved at the start. -/
theorem init : Still cfg (Fajita.init D cfg) :=
  ⟨fun _ _ _ _ => rfl, fun _ => rfl, fun _ => rfl, rfl⟩

/-- **An optimal answer keeps an assignment that still fits.** -/
theorem epoch (h : Still cfg σ) (hp : Placement cfg σ.A σ.O) {ans : Option (Answer D)}
    {vec : ℕ → List FlowKey} (ha : AnswersOptimally cfg StillFits σ (.epoch ans vec)) :
    Still cfg (Controller.updateShortEpoch cfg ans vec σ) := by
  have hasked : ∀ s < cfg.totalShards, ∀ w < cfg.totalCores,
      σ.A s w = Controller.asked cfg ans σ s w := by
    intro s hs w hw
    cases ans with
    | none => rfl
    | some ans =>
      simp only [Controller.asked]
      split
      · exact ha.keepsA hp s hs w hw
      · rfl
  have hkept := Controller.updateShortEpoch_unmoved ans vec hasked
  refine ⟨fun s hs w hw => ?_, fun s => ?_, fun w => ?_, ?_⟩
  · rw [hkept.A, h.A s hs w hw]
  · rw [hkept.handover.pause, h.unpaused s]
  · rw [hkept.transferShard, h.told w]
  · rw [hkept.nicReta, h.nicReta]

/-- A working core moves no shard that is not to be moved. -/
theorem work (h : Still cfg σ) (hwired : Wired cfg σ) (hw : w < cfg.W) (inp : TaskInput) :
    Still cfg (WorkingCore.runTask cfg w inp σ).1 := by
  have hl := hwired.runTask_localTo hw inp
  have hpause := (hwired.runTask_handoverBy hw inp).pause
  refine ⟨fun s hs v hv => ?_, fun s => ?_, fun v => ?_, ?_⟩
  · rw [hl.A, h.A s hs v hv]
  · exact Bool.eq_false_iff.mpr fun hp =>
      Bool.false_ne_true ((h.unpaused s).symm.trans (hpause s hp))
  · exact (WorkingCore.runTask_lowers inp).transferShard v (h.told v)
  · rw [hl.nicReta, h.nicReta]

/-- An offloading core moves no shard. -/
theorem offload (h : Still cfg σ) (e accept : ℕ) :
    Still cfg (OffloadingCore.runTask cfg e accept σ).1 := by
  simp only [OffloadingCore.runTask, OffloadingCore.poll]
  split <;> exact ⟨h.A, h.unpaused, h.told, h.nicReta⟩

theorem step (h : Still cfg σ) (hwired : Wired cfg σ) (hp : Placement cfg σ.A σ.O) {a : Act D}
    (hpossible : Possible cfg σ a) (ha : AnswersOptimally cfg StillFits σ a) :
    Still cfg (step cfg σ a) := by
  cases a with
  | arrive p => exact ⟨h.A, h.unpaused, h.told, h.nicReta⟩
  | epoch ans vec => exact h.epoch hp ha
  | work w inp => exact h.work hwired hpossible inp
  | offload e accept => exact h.offload e accept

end Still

/-- **The assignment stands** as long as it fits: in every run whose answers are optimal, for loads
that the assignment in force fits, no shard is moved and the NIC goes on as it started. -/
theorem assignment_stands [Double D] (cfg : Cfg) (hshards : cfg.W ≤ cfg.totalShards)
    (hE : cfg.E ≤ cfg.W) (acts : List (Act D))
    (hC : Along (step cfg) (fun σ a => Possible cfg σ a ∧ AnswersOptimally cfg StillFits σ a)
      (init D cfg) acts) :
    Still cfg (runFrom (step cfg) (init D cfg) acts) := by
  have hinit : Arranged cfg (init D cfg) :=
    ⟨placement_init hshards hE, fun _ _ _ _ => rfl, fun _ _ _ _ => rfl⟩
  refine (hC.inv (I := fun σ => Wired cfg σ ∧ Arranged cfg σ ∧ Still cfg σ) ?_
    ⟨wired_init, hinit, Still.init⟩).2.2
  rintro σ a ⟨hwired, harranged, h⟩ ⟨hp, ha⟩
  exact ⟨hwired.step hp, harranged.step hwired hp ha.meetsConstraints,
    h.step hwired harranged.placement hp ha⟩

/-! ## A run -/

namespace Small

theorem half_nonneg (s : ℕ) : 0 ≤ (fun _ => 1 / 2 : ℕ → ℚ) s := by norm_num

theorem assigned_le_one (cfg : Cfg) (s i : ℕ) : Init.A cfg s i ≤ 1 := by
  simp only [Init.A]
  split <;> omega

theorem related_le_one (cfg : Cfg) (j i : ℕ) : Init.O cfg j i ≤ 1 := by
  simp only [Init.O]
  split <;> omega

/-- What a router asks about at its start, with half a core of load for each shard. -/
def halfLoaded (cfg : Cfg) : Solver.Problem where
  W := cfg.W
  E := cfg.E
  shards := cfg.totalShards
  Cap := 914 / 10000
  Csp := 1166 / 10000
  SLOp := 100000
  Car := 966 / 10000
  Csr := 1202 / 10000
  SLOr := 100000
  T := 1000
  Te := 1000
  V := fun _ => 1 / 2
  Aold := Init.A cfg
  Oold := Init.O cfg
  V_nonneg := half_nonneg
  Aold_le := assigned_le_one cfg
  Oold_le := related_le_one cfg

theorem halfLoaded_fits : StillFits (halfLoaded (router 1)) := by
  simp only [StillFits, Solver.Fits, Solver.WorkFits]
  decide +kernel

/-- Everyone offloads as much as possible. -/
def halfLoadedPoint (cfg : Cfg) : Solver.Point :=
  Solver.plan (halfLoaded cfg) (Init.A cfg) (Init.O cfg)

theorem halfLoadedPoint_optimal :
    Solver.Optimal (Solver.scale []) (halfLoaded (router 1)) (halfLoadedPoint (router 1)) := by
  have hp : Placement (router 1) (Init.A (router 1)) (Init.O (router 1)) :=
    placement_init (by decide) (by decide)
  have hx : Solver.Feasible 0 (halfLoaded (router 1)) (halfLoadedPoint (router 1)) :=
    Solver.plan_feasible (by decide) (by decide +kernel) hp.linearA hp.linearO halfLoaded_fits
  refine Solver.Optimal.of_least hp.linearA hx (fun _ _ _ _ => rfl) fun A _ _ => ?_
  exact (changed_eq_zero_iff.mpr fun _ _ _ _ => rfl).le.trans (Nat.zero_le _)

/-- An epoch whose answer is that point, and a packet that goes its way. -/
def confirmed : List (Act ℚ) :=
  [.epoch (some (answer id (fun _ => 0) fun _ => 1 / 2)) fun _ => [],
    .arrive (packet 1 1), .work 1 (task 1), .offload 0 1]

theorem confirmed_along : Along (step (router 1))
    (fun σ a => Possible (router 1) σ a ∧ AnswersOptimally (router 1) StillFits σ a)
    (init ℚ (router 1)) confirmed := by
  refine ⟨⟨by decide +kernel, ?_⟩, ⟨trivial, trivial⟩, ⟨by decide, trivial⟩, ⟨by decide, trivial⟩,
    trivial⟩
  exact ⟨halfLoaded (router 1), halfLoadedPoint (router 1), [],
    ⟨rfl, rfl, rfl, fun _ _ _ _ => rfl, fun _ _ _ _ => rfl⟩, halfLoaded_fits,
    halfLoadedPoint_optimal, by decide +kernel, by decide +kernel⟩

theorem confirmed_standing :
    Standing (router 1) (runFrom (step (router 1)) (init ℚ (router 1)) confirmed) :=
  relation_stands (router 1) (by decide) (by decide) confirmed confirmed_along

theorem confirmed_still :
    Still (router 1) (runFrom (step (router 1)) (init ℚ (router 1)) confirmed) :=
  assignment_stands (router 1) (by decide) (by decide) confirmed confirmed_along

end Small

end Fajita
