import Fajita.Bounds
import Fajita.Delivery
import Fajita.Lanes

/-!
# The router without the solver

With `SOLVER` off, or as long as the solver finds no answer, the controller only measures. The
router then does what scaling by the RSS hash does and nothing else (`unanswered_scales`): it
refines the lanes that the redirection table of `init_dpdk` lays out, each core pushing what it
reads, and no epoch, flow table, ring or offloading core makes a difference.

The bit that is not evident is `run`: a flow is put aside if its `cdf` is below the ratio of its
shard. The ratio stays 0, and a sum of shares is never below it.
-/

namespace Fajita

variable {D : Type} [Double D] {cfg : Cfg} {σ : Sys D} {w : ℕ}

open WorkingCore

/-! ## The steps

Without answers of the solver all shares stay 0, all shards stay with the cores they started with,
and no flag is ever raised. `Plain` says so of a state, and every step keeps it: an epoch leaves `r`
alone, and a task finds all flows on its own side.
-/

/-- The epoch applies no answer. -/
def Unanswered (cfg : Cfg) : Act D → Prop
  | .epoch ans _ => cfg.solver = false ∨ ans = none
  | _ => True

instance (cfg : Cfg) : DecidablePred (Unanswered (D := D) cfg)
  | .epoch (some _) _ => inferInstanceAs (Decidable (_ ∨ _))
  | .epoch none _ => isTrue (Or.inr rfl)
  | .arrive _ => isTrue trivial
  | .work _ _ => isTrue trivial
  | .offload _ _ => isTrue trivial

/-- A shard of which nothing is put aside. -/
structure PlainShard (sh : ShardInfo D) : Prop where
  /-- no share of it is offloaded -/
  r : sh.r = 0
  /-- and the shares of its flows are not negative -/
  shares : Accesses.Shares sh.table

/-- What holds while no answer has been applied. -/
structure Plain (cfg : Cfg) (σ : Sys D) : Prop where
  /-- the redirection table is the one of `init_dpdk` -/
  nicReta : σ.nicReta = (init D cfg).nicReta
  /-- no core is signalled -/
  controllerSignal : ∀ w, σ.controllerSignal w = false
  /-- no core has news of a shard -/
  hadChanges : ∀ w, σ.hadChanges w = false
  /-- no core works off its ring -/
  myown : ∀ w, (σ.worker w).myown = false
  /-- nothing is in the rings -/
  rings : ∀ r, (σ.ring r).items = []
  /-- nothing of a shard is put aside -/
  shards : ∀ s, PlainShard (σ.shards s)

namespace PlainShard

variable {sh : ShardInfo D} {shards : ℕ → ShardInfo D}

/-- Writing a plain shard keeps the shards plain. -/
theorem update (h : ∀ s, PlainShard (shards s)) {s : ℕ} (hsh : PlainShard sh) (s' : ℕ) :
    PlainShard (Function.update shards s sh s') := by
  by_cases hs : s' = s
  · rw [hs, Function.update_self]
    exact hsh
  · rw [Function.update_of_ne hs]
    exact h s'

/-- A loop that rewrites a shard at a time. -/
theorem loop {f : ℕ → (ℕ → ShardInfo D) → ShardInfo D}
    (hf : ∀ i t, (∀ s, PlainShard (t s)) → PlainShard (f i t)) (h : ∀ s, PlainShard (shards s))
    (n s : ℕ) : PlainShard (forRange n (fun i t => Function.update t i (f i t)) shards s) :=
  forRange_inv (P := fun t : ℕ → ShardInfo D => ∀ s, PlainShard (t s)) h
    (fun i _ t ht => update ht (hf i t ht)) s

variable [Signed D]

/-- In a plain shard no flow is offloaded, because no `cdf` is below a share of 0. -/
theorem isOffloaded (h : PlainShard sh) (k : FlowKey) : sh.isOffloaded k = false := by
  simp only [ShardInfo.isOffloaded]
  split
  · next st hst => rw [h.r, Signed.not_lessThan (h.shares k st hst).cdf, Bool.and_false]
  · rfl

variable (cfg) in
/-- A lookup keeps the shards plain. -/
theorem extractState (h : ∀ s, PlainShard (shards s)) (w : ℕ) (epoch : UInt32) (p : Packet)
    (s : ℕ) : PlainShard (extractState cfg w epoch p shards s) := by
  refine update h ⟨?_, Accesses.extractState_shares (h _).shares (cfg.workerSolver w) epoch
    (cfg.shardOf p) p⟩ s
  exact (congrArg Settings.r (ShardInfo.extractState_settings ..)).trans (h _).r

variable (cfg) in
/-- **A batch goes to output 0 as it is.** -/
theorem classify (w : ℕ) (epoch : UInt32) (ps : List Packet) :
    ∀ {shards : ℕ → ShardInfo D}, (∀ s, PlainShard (shards s)) →
      (∀ s, PlainShard ((classify cfg w epoch ps shards).1 s)) ∧
        (classify cfg w epoch ps shards).2.1 = ps ∧ (classify cfg w epoch ps shards).2.2 = [] := by
  induction ps with
  | nil => exact fun h => ⟨h, rfl, rfl⟩
  | cons p ps ih =>
    intro shards h
    have hp := extractState cfg h w epoch p
    obtain ⟨hrest, hout, hoff⟩ := ih hp
    simp only [Fajita.classify]
    rw [(hp _).isOffloaded, if_neg Bool.false_ne_true]
    exact ⟨hrest, congrArg (p :: ·) hout, hoff⟩

theorem orderShard (h : PlainShard sh) (vec : List FlowKey) :
    PlainShard (Controller.orderShard vec sh) :=
  ⟨h.r, Accesses.orderShard_shares h.shares vec⟩

omit [Signed D] in
/-- An epoch keeps this up to the call of the solver. -/
theorem beforeSolver (h : ∀ s, PlainShard (σ.shards s)) (s : ℕ) :
    PlainShard ((Controller.volumeShards cfg (Controller.swapShards cfg σ)).shards s) := by
  have hswap : ∀ s, PlainShard ((Controller.swapShards cfg σ).shards s) := by
    refine fun s => loop (fun i t ht => ?_) h cfg.totalShards s
    exact ⟨(ht i).r, (ht i).shares⟩
  simp only [Controller.volumeShards]
  split
  · exact hswap s
  · split
    · refine loop (fun i t ht => ?_) hswap cfg.totalShards s
      exact ⟨(ht i).r, (ht i).shares⟩
    · refine loop (fun i t ht => ?_) hswap cfg.totalShards s
      exact ⟨(ht i).r, (ht i).shares⟩

/-- What an epoch does behind the call of the solver keeps it too. -/
theorem afterSolver (vec : ℕ → List FlowKey) (n : UInt32) (h : ∀ s, PlainShard (σ.shards s))
    (s : ℕ) : PlainShard ((Controller.clearFlows cfg
      (Controller.orderShards cfg vec { σ with epoch := n })).shards s) := by
  refine loop (fun i t ht => ?_)
    (loop (fun i _ ht => (ht i).orderShard (vec i)) h cfg.totalShards) cfg.totalShards s
  split <;> exact ⟨(ht i).r, (ht i).shares⟩

end PlainShard

namespace Plain

/-- At first everything is plain. -/
theorem init : Plain cfg (init D cfg) where
  nicReta := rfl
  controllerSignal _ := rfl
  hadChanges _ := rfl
  myown _ := rfl
  rings r := by cases r <;> rfl
  shards _ := ⟨rfl, fun _ _ hst => by cases hst⟩

variable [Signed D] (h : Plain cfg σ)

include h

omit [Signed D] in
/-- A task reads a burst off the NIC, and forwards it. -/
theorem runTask_eq (inp : TaskInput) : runTask cfg w inp σ =
    forward cfg w inp.accept (rxBurst (cfg.burst w) inp.rx (σ.rx w)) σ := by
  have hnot : ¬ (σ.worker w).myown = true := by
    rw [h.myown]
    exact Bool.false_ne_true
  have hserve : processChanges cfg w (serveSignal cfg w inp.drains σ) = σ := by
    rw [serveSignal, h.controllerSignal, if_neg Bool.false_ne_true, processChanges, h.hadChanges,
      if_neg Bool.false_ne_true]
  simp only [runTask, if_neg hnot, hserve, processBatch]

/-- What is read is pushed. -/
theorem forward_pushed (accept : ℕ) (batch : List Packet) :
    (forward cfg w accept batch σ).2.pushed = batch :=
  (PlainShard.classify cfg w σ.epoch batch h.shards).2.1

theorem forward (accept : ℕ) (batch : List Packet) :
    Plain cfg (forward cfg w accept batch σ).1 := by
  obtain ⟨hshards, -, hoff⟩ := PlainShard.classify cfg w σ.epoch batch h.shards
  refine ⟨h.nicReta, h.controllerSignal, h.hadChanges, h.myown, fun r => ?_, hshards⟩
  simp only [WorkingCore.forward, pushBatch, Sys.enqueueRing, hoff]
  by_cases hr : r = (σ.worker w).q
  · rw [hr, Function.update_self, Fifo.enqueueBurst_items, h.rings, List.take_nil]
    rfl
  · rw [Function.update_of_ne hr]
    exact h.rings r

/-- An epoch that applies no answer measures only. -/
theorem epoch {ans : Option (Answer D)} {vec : ℕ → List FlowKey}
    (hnone : Unanswered cfg (.epoch ans vec : Act D)) :
    Plain cfg (Controller.updateShortEpoch cfg ans vec σ) := by
  have heq : Controller.updateShortEpoch cfg ans vec σ = Controller.clearFlows cfg
      (Controller.orderShards cfg vec
        { Controller.volumeShards cfg (Controller.swapShards cfg σ) with
          epoch := (Controller.volumeShards cfg (Controller.swapShards cfg σ)).epoch + 1 }) := by
    cases ans with
    | none => rfl
    | some ans =>
      have hoff : cfg.solver = false := hnone.resolve_right (Option.some_ne_none _)
      simp only [Controller.updateShortEpoch, hoff, Bool.false_eq_true, if_false]
  have hf := Controller.updateShortEpoch_frame cfg σ ans vec
  have hbefore := @Requests.beforeSolver_view _ cfg σ (fun _ => []) false _
  have hafter := fun (σ : Sys D) (n : UInt32) =>
    @Requests.afterSolver_view _ cfg σ (fun _ => []) false _ vec n
  have hunmoved := (Controller.beforeSolver_aside cfg σ).unmoved.trans
    (Controller.afterSolver_aside cfg _ vec
      ((Controller.volumeShards cfg (Controller.swapShards cfg σ)).epoch + 1)).unmoved
  refine ⟨?_, fun w => ?_, fun w => ?_, fun w => ?_, fun r => ?_, ?_⟩
  · rw [heq, hunmoved.nicReta]
    exact h.nicReta
  · rw [heq]
    exact (congrFun ((congrArg Requests.State.signal (hafter _ _)).trans
      (congrArg Requests.State.signal hbefore)) w).trans (h.controllerSignal w)
  · rw [hf.hadChanges]
    exact h.hadChanges w
  · rw [hf.worker]
    exact h.myown w
  · rw [hf.traffic.ring]
    exact h.rings r
  · rw [heq]
    exact PlainShard.afterSolver vec _ (PlainShard.beforeSolver h.shards)

/-- **Every step that applies no answer leaves the router plain.** -/
theorem step {a : Act D} (ha : Unanswered cfg a) : Plain cfg (step cfg σ a) := by
  cases a with
  | arrive p => exact ⟨h.nicReta, h.controllerSignal, h.hadChanges, h.myown, h.rings, h.shards⟩
  | epoch ans vec => exact h.epoch ha
  | work w inp =>
    rw [Fajita.step, h.runTask_eq inp]
    exact h.forward inp.accept _
  | offload e accept =>
    obtain ⟨core, ring, transmitted, lost, heq, hring⟩ := OffloadingCore.runTask_eq cfg e accept σ
    rw [Fajita.step, heq]
    refine ⟨h.nicReta, h.controllerSignal, h.hadChanges, h.myown, fun r => ?_, h.shards⟩
    obtain ⟨n, hn⟩ := hring r
    change (ring r).items = []
    rw [hn, h.rings, List.drop_nil]

omit [Signed D] in
/-- An offloading core finds nothing. -/
theorem offload_pushed (e accept : ℕ) : (taskLog cfg σ (.offload e accept)).pushed = [] := by
  simp only [taskLog, OffloadingCore.runTask, OffloadingCore.poll]
  split
  · rfl
  · next r _ =>
    change (σ.ring r).items.take (cfg.coreBurst e) = []
    rw [h.rings, List.take_nil]

end Plain

/-! ## The refinement -/

/-- The core that the RSS hash of a packet leads to by the table of `init_dpdk`. -/
def rssCore (cfg : Cfg) (p : Packet) : ℕ := p.rss % cfg.retaSize % cfg.totalShards % cfg.W

/-- The redirection table of `init_dpdk` is in force. -/
theorem Plain.rxQueue (h : Plain cfg σ) (p : Packet) : σ.rxQueue cfg p = rssCore cfg p := by
  have hk : p.rss % cfg.retaSize < cfg.retaSize := Nat.mod_lt _ cfg.retaSize_pos
  rw [Sys.rxQueue, h.nicReta, rssCore, ← Steered.init_conf.2 _ hk,
    ← push_masked Steered.init_conf.1 (fun _ => 0) hk]
  rfl

/-- What a step is to the lanes. -/
def Act.lane (cfg : Cfg) : Act D → Option (Lanes.Label Packet ℕ)
  | .arrive p => some (.arrive p)
  | .work w inp => some (.serve w (min inp.rx (cfg.burst w)))
  | _ => none

/-- What the tasks of a party push during a run. -/
def pushedBy (cfg : Cfg) (mine : Act D → Bool) (σ : Sys D) (acts : List (Act D)) : List Packet :=
  history (step cfg) (fun σ a => if mine a then (taskLog cfg σ a).pushed else []) σ acts

/-- The lanes that the redirection table of `init_dpdk` lays out. -/
def scaled (cfg : Cfg) (acts : List (Act D)) : Lanes.State Packet ℕ :=
  runFrom (Lanes.step (rssCore cfg)) Lanes.start (acts.filterMap (Act.lane cfg))

omit [Double D] in
/-- What arrives at the lanes is what arrives at the router. -/
theorem lane_arrivals (acts : List (Act D)) :
    (acts.filterMap (Act.lane cfg)).flatMap Lanes.Label.arrivals = arrivals acts := by
  induction acts with
  | nil => rfl
  | cons a acts ih =>
    rw [arrivals_cons, ← ih]
    cases a <;> rfl

section

variable [Signed D]

/-- **A step is a step of the lanes**, or none. -/
theorem lane_step (h : Plain cfg σ) {s : Lanes.State Packet ℕ} (hs : s.waiting = σ.rx)
    {a : Act D} (ha : Unanswered cfg a) :
    (runFrom (Lanes.step (rssCore cfg)) s (a.lane cfg).toList).waiting = (step cfg σ a).rx ∧
      ∀ w, (runFrom (Lanes.step (rssCore cfg)) s (a.lane cfg).toList).served w =
        s.served w ++ if a.isTaskOf w then (taskLog cfg σ a).pushed else [] := by
  cases a with
  | arrive p =>
    refine ⟨?_, fun w => (List.append_nil _).symm⟩
    change Function.update s.waiting (rssCore cfg p) (s.waiting (rssCore cfg p) ++ [p]) =
      Function.update σ.rx (σ.rxQueue cfg p) (σ.rx (σ.rxQueue cfg p) ++ [p])
    rw [h.rxQueue, hs]
  | epoch ans vec =>
    refine ⟨hs.trans ?_, fun w => (List.append_nil _).symm⟩
    exact (Controller.updateShortEpoch_frame cfg σ ans vec).traffic.rx.symm
  | work v inp =>
    have hlog :
        (taskLog cfg σ (.work v inp)).pushed = (σ.rx v).take (min inp.rx (cfg.burst v)) := by
      rw [taskLog, h.runTask_eq inp, h.forward_pushed, rxBurst]
    constructor
    · change Function.update s.waiting v ((s.waiting v).drop (min inp.rx (cfg.burst v))) =
        (runTask cfg v inp σ).1.rx
      have hdrop : (σ.rx v).drop (min inp.rx (cfg.burst v)) =
          (σ.rx v).drop (rxBurst (cfg.burst v) inp.rx (σ.rx v)).length := by
        rw [rxBurst, List.length_take, List.drop_eq_drop_iff]
        omega
      rw [h.runTask_eq inp, hs, hdrop]
      rfl
    · intro w
      change Function.update s.served v
        (s.served v ++ (s.waiting v).take (min inp.rx (cfg.burst v))) w = _
      rw [hlog, hs]
      by_cases hw : w = v
      · subst hw
        rw [Function.update_self, Act.isTaskOf, decide_eq_true rfl, if_pos rfl]
      · rw [Function.update_of_ne hw, Act.isTaskOf, decide_eq_false (Ne.symm hw),
          if_neg Bool.false_ne_true, List.append_nil]
  | offload e accept =>
    obtain ⟨core, ring, transmitted, lost, heq, -⟩ := OffloadingCore.runTask_eq cfg e accept σ
    refine ⟨?_, fun w => (List.append_nil _).symm⟩
    rw [step, heq]
    exact hs

/-- A run is a run of the lanes. -/
theorem lane_run (acts : List (Act D)) : ∀ {σ : Sys D} {s : Lanes.State Packet ℕ},
    Plain cfg σ → s.waiting = σ.rx → (∀ a ∈ acts, Unanswered cfg a) →
      (runFrom (Lanes.step (rssCore cfg)) s (acts.filterMap (Act.lane cfg))).waiting =
          (runFrom (step cfg) σ acts).rx ∧
        ∀ w, (runFrom (Lanes.step (rssCore cfg)) s (acts.filterMap (Act.lane cfg))).served w =
          s.served w ++ pushedBy cfg (Act.isTaskOf w) σ acts := by
  induction acts with
  | nil => exact fun _ hs _ => ⟨hs, fun w => (List.append_nil _).symm⟩
  | cons a acts ih =>
    intro σ s h hs ha
    have hsplit : (a :: acts).filterMap (Act.lane cfg) =
        (a.lane cfg).toList ++ acts.filterMap (Act.lane cfg) := by
      cases hlane : a.lane cfg <;> simp [hlane]
    obtain ⟨hwaiting, hserved⟩ := lane_step h hs (ha a (List.mem_cons_self ..))
    obtain ⟨hrest, hrest'⟩ := ih (h.step (ha a (List.mem_cons_self ..))) hwaiting
      fun a' ha' => ha a' (List.mem_cons_of_mem _ ha')
    rw [hsplit, runFrom_append]
    refine ⟨hrest, fun w => ?_⟩
    rw [hrest', hserved, List.append_assoc]
    rfl

/-- Offloading cores have nothing to push. -/
theorem offload_silent (e : ℕ) (acts : List (Act D)) : ∀ {σ : Sys D}, Plain cfg σ →
    (∀ a ∈ acts, Unanswered cfg a) → pushedBy cfg (Act.isOffloadOf e) σ acts = [] := by
  induction acts with
  | nil => exact fun _ _ => rfl
  | cons a acts ih =>
    intro σ h ha
    have hnone : (if a.isOffloadOf e then (taskLog cfg σ a).pushed else []) = [] := by
      split
      · next hmine =>
        cases a with
        | offload e' accept => exact h.offload_pushed e' accept
        | arrive | epoch | work => cases hmine
      · rfl
    have hrest := ih (h.step (ha a (List.mem_cons_self ..)))
      fun a' ha' => ha a' (List.mem_cons_of_mem _ ha')
    rw [pushedBy, history, hnone, List.nil_append]
    exact hrest

/-- **Without answers the router only scales by the RSS hash**: in every run, each working core has
pushed, and has waiting, exactly what the lane of its own has been served and holds. In other words
it has all packets whose hash leads to it by the table of `init_dpdk`, in the order of their
arrival; and the offloading cores have pushed nothing. -/
theorem unanswered_scales {acts : List (Act D)} (hnone : ∀ a ∈ acts, Unanswered cfg a) :
    (∀ w, pushedBy cfg (Act.isTaskOf w) (init D cfg) acts = (scaled cfg acts).served w ∧
      (runFrom (step cfg) (init D cfg) acts).rx w = (scaled cfg acts).waiting w ∧
        pushedBy cfg (Act.isTaskOf w) (init D cfg) acts ++
            (runFrom (step cfg) (init D cfg) acts).rx w =
          (arrivals acts).filter (rssCore cfg · = w)) ∧
      ∀ e, pushedBy cfg (Act.isOffloadOf e) (init D cfg) acts = [] := by
  obtain ⟨hwaiting, hserved⟩ :=
    lane_run acts (s := Lanes.start) (@Plain.init D _ cfg) rfl hnone
  refine ⟨fun w => ?_, fun e => offload_silent e acts .init hnone⟩
  have hpushed : (scaled cfg acts).served w = pushedBy cfg (Act.isTaskOf w) (init D cfg) acts :=
    hserved w
  have hrx : (scaled cfg acts).waiting w = (runFrom (step cfg) (init D cfg) acts).rx w :=
    congrFun hwaiting w
  refine ⟨hpushed.symm, hrx.symm, ?_⟩
  rw [← hpushed, ← hrx, ← lane_arrivals]
  exact Lanes.in_order (rssCore cfg) _ w

end

namespace Small

/-- The small router without the solver. -/
def measuring (E : Fin 3) : Cfg := { router E with solver := false }

/-- An answer that moves both shards comes to nothing. -/
def ignoring : List (Act ℚ) :=
  [.arrive (packet 1 0), .epoch (some (answer (1 - ·) (fun _ => 0) fun _ => 1 / 2)) fun _ => [],
    .arrive (packet 2 1), .work 0 (task 1), .offload 0 1, .arrive (packet 3 0), .work 1 (task 1)]

theorem ignoring_scales :
    pushedBy (measuring 1) (Act.isTaskOf 0) (init ℚ (measuring 1)) ignoring ++
        (runFrom (step (measuring 1)) (init ℚ (measuring 1)) ignoring).rx 0 =
      (arrivals ignoring).filter (rssCore (measuring 1) · = 0) :=
  ((unanswered_scales (by decide)).1 0).2.2

end Small

end Fajita
