import Fajita.Sides

/-!
# Flow affinity

When a working core pushes a packet to output 0, no packet of the same flow that
it received earlier should still wait in the ring towards its offloading core
(`Affine`). What carries this is that all waiting packets are of offloaded flows
(`Sided`), which three things can break:

* `order_shards` gives the flow of a waiting packet a `cdf` that is not below `r`;
* `transfer_r` of the owner of a shard, which empties the ring of its own core
  only, puts a share in force that the flow of a packet waiting at another core is
  not below;
* a task strands the packets it takes back, and the next `transfer_r` makes the
  ring they are in the ring towards the offloading core.
-/

namespace Fajita

variable {D : Type} [Double D] {cfg : Cfg} {σ σ' : Sys D} {w : ℕ}

open WorkingCore

omit [Double D] in
/-- Two packets of one flow: one key, in the table of one shard. -/
def SameFlow (cfg : Cfg) (p p' : Packet) : Prop :=
  p.flow = p'.flow ∧ cfg.shardOf p = cfg.shardOf p'

/-- No packet a task pushes to output 0 was received after a packet of its flow
that waits in the ring towards the offloading core. -/
def Affine (cfg : Cfg) (σ : Sys D) : Act D → Prop
  | .work w inp => ∀ p ∈ (runTask cfg w inp σ).2.pushed,
      ∀ p' ∈ (runTask cfg w inp σ).1.qItems w,
      SameFlow cfg p' p → ¬ [p', p].Sublist (runTask cfg w inp σ).1.received
  | _ => True

/-- The steps that leave the flows of waiting packets on their side, and strand no packets. -/
def KeepsAside (cfg : Cfg) (σ : Sys D) : Act D → Prop
  | .epoch _ vec => ∀ v < cfg.W, ∀ p ∈ σ.qItems v, p.flow ∈ vec (cfg.shardOf p) →
      isLessThan
        (Controller.sharesTo (σ.shards (cfg.shardOf p)) (vec (cfg.shardOf p)) p.flow)
        (σ.shards (cfg.shardOf p)).r = true
  | .work w _ => ¬ Strands cfg w σ ∧ ((σ.worker w).myown = false →
      ∀ v < cfg.W, v ≠ w → ∀ p ∈ σ.qItems v, sideAfter cfg w σ (cfg.shardOf p) p.flow = true)
  | _ => True

/-- All packets that wait for an offloading core are of offloaded flows. -/
def Sided (cfg : Cfg) (σ : Sys D) : Prop :=
  ∀ v, ∀ p ∈ σ.qItems v, (σ.shards (cfg.shardOf p)).isOffloaded p.flow = true

namespace Sided

/-- A step that moves no packet to the rings and keeps the sides. -/
theorem of_keepsSides (h : Sided cfg σ) (hs : KeepsSides σ.shards σ'.shards)
    (hq : ∀ v, ∀ p ∈ σ'.qItems v, p ∈ σ.qItems v) : Sided cfg σ' :=
  fun v p hp => hs.offloaded (h v p (hq v p hp))

/-- An epoch keeps the waiting packets on their side if it leaves their flows
below `r`. -/
theorem epoch (h : Sided cfg σ) (hwired : Wired cfg σ) {ans : Option (Answer D)}
    {vec : ℕ → List FlowKey} (hp : Possible cfg σ (.epoch ans vec))
    (hk : KeepsAside cfg σ (.epoch ans vec)) :
    Sided cfg (Controller.updateShortEpoch cfg ans vec σ) := by
  have hf := Controller.updateShortEpoch_frame cfg σ ans vec
  intro v p hpq
  have hq : (Controller.updateShortEpoch cfg ans vec σ).qItems v = σ.qItems v := by
    rw [Sys.qItems, Sys.qItems, hf.worker, hf.traffic.ring]
  rw [hq] at hpq
  have hv : v < cfg.W := by
    by_contra hv
    rw [Sys.qItems, hwired.foreign _ (by rw [(hwired.pair v).q_core]; omega)] at hpq
    cases hpq
  have hs := cfg.shardOf_lt p
  exact Controller.updateShortEpoch_side hs (hp _ hs) (h v p hpq) (hk v hv p hpq)

end Sided

/-! ## The ring of a core along a task

Serving the signal leaves `q` as it is, and then the ratios of the core too, or it empties `q`. So
the packets that a task may overtake have waited there since before the task, on the side that they
still have.
-/

omit [Double D] in
theorem transferR_qItems (hc : Calm w σ) (hm : (σ.worker w).myown = false) :
    (transferR cfg w σ).qItems w = [] := by
  by_cases hq : σ.qItems w = []
  · rw [(transferR_desk hq).q, hq]
  · rw [(transferR_of_ne hq).2.1, hc.mine hm]

/-- Serving the signal leaves the ring towards the offloading core as it is, and
then `r` has not changed either, or empties it. -/
theorem serveSignal_qItems (h : Wired cfg σ) (hw : w < cfg.W) (hc : Calm w σ)
    (hm : (σ.worker w).myown = false) (drains : List ℕ) :
    (serveSignal cfg w drains σ).qItems w = [] ∨
      (σ.controllerSignal w && σ.transferR w) = false ∧
        (serveSignal cfg w drains σ).qItems w = σ.qItems w := by
  simp only [serveSignal]
  cases hsig : σ.controllerSignal w with
  | false => exact Or.inr ⟨rfl, rfl⟩
  | true =>
    rw [if_pos rfl, Bool.true_and]
    change (serveShard cfg w drains (serveOffloading cfg w (serveR cfg w σ))).qItems w = [] ∨
      σ.transferR w = false ∧
        (serveShard cfg w drains (serveOffloading cfg w (serveR cfg w σ))).qItems w = σ.qItems w
    -- each routine that runs leaves the ring empty; if none runs it is as it was
    have hR : (serveR cfg w σ).qItems w = [] ∨
        σ.transferR w = false ∧ (serveR cfg w σ).qItems w = σ.qItems w := by
      simp only [serveR]
      cases σ.transferR w with
      | false => exact Or.inr ⟨rfl, rfl⟩
      | true => exact Or.inl (transferR_qItems hc hm)
    have hwiredR := ((transferR_serves h hw).opt (σ.transferR w) h).wired
    have hO : (serveOffloading cfg w (serveR cfg w σ)).qItems w = [] ∨
        σ.transferR w = false ∧
          (serveOffloading cfg w (serveR cfg w σ)).qItems w = σ.qItems w := by
      simp only [serveOffloading]
      split
      · exact Or.inl (transferOffloading_qItems hwiredR hw)
      · exact hR
    have hwiredO : Wired cfg (serveOffloading cfg w (serveR cfg w σ)) :=
      (beforeShard_serves h hw).wired
    simp only [serveShard]
    split
    · exact Or.inl ((transferShard_desk drains).q.trans (collect_qItems hwiredO hw drains))
    · exact hO

/-- A core that finds its own ring empty looks no packet up, and moves none. -/
theorem Sided.of_drained (h : Sided cfg σ) : Sided cfg (drained cfg w σ) := by
  refine h.of_keepsSides (KeepsSides.of_eq (fun s => ?_) fun s => ?_) fun v p hp => ?_
  · rw [drained_spec.1]
    simp only [drainedShard, drainedReleased]
    split_ifs <;> rfl
  · rw [drained_spec.1]
    simp only [drainedShard, drainedReleased]
    split_ifs <;> rfl
  · by_cases hv : v = w
    · subst hv
      simpa [drained, Sys.setWorker, Sys.qItems] using hp
    · simpa [drained, Sys.setWorker, Sys.qItems, hv] using hp

/-- Packets of its own ring a core only looks up. -/
theorem Sided.of_workOff (h : Sided cfg σ) (hwired : Wired cfg σ) (accept : ℕ) :
    Sided cfg (workOff cfg w accept σ).1 := by
  refine h.of_keepsSides (KeepsSides.extractAll cfg w σ.epoch _ _) fun v p hp => ?_
  by_cases hv : v = w
  · subst hv
    rwa [workOff_qItems hwired] at hp
  · rwa [(workOff_localTo hwired accept).qItems hv (hwired.pair v)] at hp

/-- The packets that wait when the core receives are on their side: at the core itself
either the ring has been emptied or `r` is what it was. -/
theorem Sided.waiting (h : Sided cfg σ) (hwired : Wired cfg σ) (hw : w < cfg.W)
    (hc : Calm w σ) (hm : (σ.worker w).myown = false) {inp : TaskInput}
    (hk : KeepsAside cfg σ (.work w inp)) (v : ℕ) :
    ∀ p ∈ (if v = w then (beforeReceive cfg w inp σ).qItems w else σ.qItems v),
      ((beforeReceive cfg w inp σ).shards (cfg.shardOf p)).isOffloaded p.flow = true := by
  have hs := serveSignal_serves hwired hw inp.drains
  intro p hp
  rw [beforeReceive, processChanges_shards hs.wired, serveSignal_side]
  by_cases hv : v = w
  · rw [if_pos hv, beforeReceive, (processChanges_desk hs.wired).1] at hp
    rcases serveSignal_qItems hwired hw hc hm inp.drains with hnil | ⟨hflag, hsame⟩
    · rw [hnil] at hp
      cases hp
    · rw [hsame] at hp
      rw [sideAfter, if_neg (by rw [hflag]; rintro ⟨hf, -⟩; cases hf)]
      exact h w p hp
  · rw [if_neg hv] at hp
    by_cases hvW : v < cfg.W
    · exact hk.2 hm v hvW hv p hp
    · rw [Sys.qItems, hwired.foreign _ (by rw [(hwired.pair v).q_core]; omega)] at hp
      cases hp

/-- What a core sends towards its offloading core is of offloaded flows. -/
theorem Sided.of_forward (h : Sided cfg σ) (hwired : Wired cfg σ) (hw : w < cfg.W) (hc : Calm w σ)
    (hm : (σ.worker w).myown = false) {inp : TaskInput} (hk : KeepsAside cfg σ (.work w inp)) :
    Sided cfg (forward cfg w inp.accept (processBatch cfg w inp.rx (beforeReceive cfg w inp σ))
      (beforeReceive cfg w inp σ)).1 := by
  have hl : LocalTo w σ (forward cfg w inp.accept
      (processBatch cfg w inp.rx (beforeReceive cfg w inp σ)) (beforeReceive cfg w inp σ)).1 := by
    have hl := hwired.runTask_localTo hw inp
    rw [WorkingCore.runTask, hm, if_neg Bool.false_ne_true] at hl
    exact hl
  have hbefore := h.waiting hwired hw hc hm hk
  have hside := classify_side cfg w (beforeReceive cfg w inp σ).epoch
    (processBatch cfg w inp.rx (beforeReceive cfg w inp σ)) (beforeReceive cfg w inp σ).shards
  have hkeep := KeepsSides.classify cfg w (beforeReceive cfg w inp σ).epoch
    (processBatch cfg w inp.rx (beforeReceive cfg w inp σ)) (beforeReceive cfg w inp σ).shards
  intro v p hp
  change ((classify cfg w (beforeReceive cfg w inp σ).epoch
    (processBatch cfg w inp.rx (beforeReceive cfg w inp σ))
    (beforeReceive cfg w inp σ).shards).1 (cfg.shardOf p)).isOffloaded p.flow = true
  by_cases hv : v = w
  · subst hv
    have hp' : p ∈ (forward cfg v inp.accept
        (processBatch cfg v inp.rx (beforeReceive cfg v inp σ))
        (beforeReceive cfg v inp σ)).1.qItems v := hp
    rw [forward_qItems] at hp'
    rcases Fifo.mem_enqueueBurst hp' with hp' | hp'
    · exact hkeep.offloaded (hbefore v p (by rw [if_pos rfl]; exact hp'))
    · exact hside.2 p hp'
  · rw [hl.qItems hv (hwired.pair v)] at hp
    exact hkeep.offloaded (hbefore v p (by rw [if_neg hv]; exact hp))

/-- **A task keeps the waiting packets on their side.** -/
theorem Sided.runTask (h : Sided cfg σ) (hwired : Wired cfg σ) (hw : w < cfg.W) (hc : Calm w σ)
    (inp : TaskInput) (hk : KeepsAside cfg σ (.work w inp)) :
    Sided cfg (runTask cfg w inp σ).1 := by
  simp only [WorkingCore.runTask]
  cases hm : (σ.worker w).myown with
  | true =>
    rw [if_pos rfl]
    split
    · exact h.of_drained
    · exact h.of_workOff hwired inp.accept
  | false =>
    rw [if_neg Bool.false_ne_true]
    exact h.of_forward hwired hw hc hm hk

/-- **Every step that keeps the flows of waiting packets on their side keeps all
waiting packets on theirs.** -/
theorem Sided.step (h : Sided cfg σ) (hwired : Wired cfg σ) (hc : ∀ v, Calm v σ)
    {a : Act D} (hp : Possible cfg σ a) (hk : KeepsAside cfg σ a) : Sided cfg (step cfg σ a) := by
  cases a with
  | arrive p => exact h
  | epoch ans vec => exact h.epoch hwired hp hk
  | work w inp => exact h.runTask hwired hp (hc w) inp hk
  | offload e accept =>
    obtain ⟨core, ring, transmitted, lost, heq, hring⟩ := OffloadingCore.runTask_eq cfg e accept σ
    rw [Fajita.step, heq]
    refine h.of_keepsSides (.refl _) fun v p hpq => ?_
    obtain ⟨n, hn⟩ := hring (σ.worker v).q
    have hpq' : p ∈ (ring (σ.worker v).q).items := hpq
    rw [hn] at hpq'
    exact List.mem_of_mem_drop hpq'

/-- A task pushes only packets of flows on the other side than those that wait. -/
theorem Sided.affine (h : Sided cfg σ) (hwired : Wired cfg σ) (hc : ∀ v, Calm v σ) {a : Act D}
    (hp : Possible cfg σ a) (hk : KeepsAside cfg σ a) : Affine cfg σ a := by
  cases a with
  | arrive p => trivial
  | epoch ans vec => trivial
  | offload e accept => trivial
  | work w inp =>
    intro p hpushed p' hwaiting ⟨hflow, hshard⟩ _
    have hsided := h.runTask hwired hp (hc w) inp hk w p' hwaiting
    rw [hflow, hshard] at hsided
    unfold WorkingCore.runTask at hpushed hwaiting hsided
    cases hm : (σ.worker w).myown with
    | true =>
      rw [hm, if_pos rfl] at hpushed hwaiting hsided
      by_cases hcount : (σ.ring (σ.worker w).myring).count = 0
      · rw [if_pos hcount] at hpushed
        cases hpushed
      · rw [if_neg hcount, workOff_qItems hwired, (hc w).queue hm] at hwaiting
        cases hwaiting
    | false =>
      rw [hm, if_neg Bool.false_ne_true] at hpushed hwaiting hsided
      have hout := (classify_side cfg w (beforeReceive cfg w inp σ).epoch
        (processBatch cfg w inp.rx (beforeReceive cfg w inp σ))
        (beforeReceive cfg w inp σ).shards).1 p hpushed
      exact absurd (hout.symm.trans hsided) Bool.noConfusion

/-! ## Runs

The invariant says that every packet in `q` is of a flow on the offloaded side. It is kept if
nothing brings such a flow back while its packets wait, which is what `KeepsAside` asks of the
steps.
-/

/-- **Flow affinity.** In every run from the initial state whose steps keep the
flows of waiting packets on their side, no task pushes a packet past an earlier
one of its flow that waits for the offloading core. -/
theorem affine_of_keepsAside {acts : List (Act D)}
    (hC : Along (step cfg) (fun σ a => Possible cfg σ a ∧ KeepsAside cfg σ a) (init D cfg) acts) :
    Along (step cfg) (Affine cfg) (init D cfg) acts := by
  refine Along.imp_inv (I := fun σ => Wired cfg σ ∧ (∀ v, Calm v σ) ∧ Sided cfg σ)
    (fun σ a ⟨hwired, hc, hs⟩ ⟨hp, hk⟩ => ?_)
    (fun σ a ⟨hwired, hc, hs⟩ ⟨hp, hk⟩ => hs.affine hwired hc hp hk)
    ⟨wired_init, fun _ => ⟨fun _ => rfl, fun _ => rfl⟩, fun _ _ hp => by cases hp⟩ hC
  have hstrand : NoStrand cfg σ a := by
    cases a with
    | work w inp => exact hk.1
    | arrive p => trivial
    | epoch ans vec => trivial
    | offload e accept => trivial
  exact ⟨hwired.step hp, Calm.step hc hwired hp hstrand, hs.step hwired hc hp hk⟩

omit [Double D] in
instance (p p' : Packet) : Decidable (SameFlow cfg p p') := inferInstanceAs (Decidable (_ ∧ _))

instance (σ : Sys D) : DecidablePred (Affine cfg σ)
  | .work w inp => inferInstanceAs (Decidable (∀ p ∈ (runTask cfg w inp σ).2.pushed,
      ∀ p' ∈ (runTask cfg w inp σ).1.qItems w, _ → _))
  | .arrive _ => isTrue trivial
  | .epoch _ _ => isTrue trivial
  | .offload _ _ => isTrue trivial

instance (σ : Sys D) : DecidablePred (KeepsAside cfg σ)
  | .epoch _ vec => inferInstanceAs (Decidable (∀ v < cfg.W, ∀ p ∈ σ.qItems v,
      p.flow ∈ vec (cfg.shardOf p) → _ = true))
  | .work _ _ => inferInstanceAs (Decidable (_ ∧ (_ → ∀ v < cfg.W, _ → ∀ p ∈ σ.qItems v, _)))
  | .arrive _ => isTrue trivial
  | .offload _ _ => isTrue trivial

/-! ## What goes wrong -/

namespace Small

/-- Half of shard 0 is offloaded, and two packets of its only flow, received in two
epochs, wait for the offloading core. -/
def offloadTwo : List (Act ℚ) :=
  [.epoch (some (answer id (fun _ => 0) fun _ => 1 / 2)) fun _ => [], .work 0 (task 1),
    .arrive (packet 1 0), .work 0 (task 1), .epoch none fun _ => [],
    .arrive (packet 2 0), .work 0 (task 1)]

/-- An epoch whose solver fails, after which a third packet of the flow is served. -/
def reorderThird : List (Act ℚ) :=
  [.epoch none fun s => if s = 0 then [(packet 2 0).flow] else [], .arrive (packet 3 0),
    .work 0 (task 1)]

/-- The flow now makes up the whole shard, so packet 3 is sent on while packets 1
and 2 wait. -/
theorem reorder_notAffine :
    Along (step (router 1)) (Possible (router 1)) (init ℚ (router 1)) (offloadTwo ++ reorderThird) ∧
      ¬ Along (step (router 1)) (Affine (router 1)) (init ℚ (router 1))
        (offloadTwo ++ reorderThird) := by
  decide +kernel

/-- The same when the offloading core has sent the two packets before. -/
def timelyOffload : List (Act ℚ) := offloadTwo ++ .offload 0 2 :: reorderThird

theorem timelyOffload_affine :
    Along (step (router 1)) (Affine (router 1)) (init ℚ (router 1)) timelyOffload :=
  affine_of_keepsAside (by decide +kernel)

end Small

end Fajita
