import Fajita.Relating
import Fajita.Stranding

/-!
# Control messages refine in-order application

An offloading core drains all removals before all additions. It ends up with the
rings that carrying out the requests in the order of posting would leave it with
— and then nobody else polls them (`Refined`) — as long as no addition is
followed, before the drain, by the removal of the same ring (`KeepsOrder`), and the
control rings have had room for all requests (`Roomy`). While they have room, the
first condition is necessary as well: `refines_iff`. A signal that makes a core swap
its rings and then post again breaks it.
-/

namespace Fajita

variable {D : Type} {cfg : Cfg} {σ : Sys D} {e : ℕ}

/-- The offloading core `e` polls what the requests posted to it, carried out in
order, leave it with; and nobody else does. -/
structure Refined (cfg : Cfg) (e : ℕ) (σ : Sys D) : Prop where
  /-- the rings after the drain -/
  refines : ((OffloadingCore.control e σ).core e).Q =
    Request.inOrder (σ.core e).Q (σ.posted e)
  /-- no ring is listed twice -/
  nodup : ((OffloadingCore.control e σ).core e).Q.Nodup
  /-- no other offloading core is left with a ring of `e` -/
  single : ∀ e' < cfg.E, e' ≠ e → ∀ r ∈ ((OffloadingCore.control e σ).core e).Q, r ∉ σ.pending e'
  /-- no working core has a ring of `e` for itself -/
  notMine : ∀ w < cfg.W, (σ.worker w).myring ∉ ((OffloadingCore.control e σ).core e).Q

instance (e : ℕ) (σ : Sys D) : Decidable (Refined cfg e σ) :=
  decidable_of_iff
    (((OffloadingCore.control e σ).core e).Q = Request.inOrder (σ.core e).Q (σ.posted e) ∧
      ((OffloadingCore.control e σ).core e).Q.Nodup ∧
      (∀ e' < cfg.E, e' ≠ e → ∀ r ∈ ((OffloadingCore.control e σ).core e).Q, r ∉ σ.pending e') ∧
      ∀ w < cfg.W, (σ.worker w).myring ∉ ((OffloadingCore.control e σ).core e).Q)
    ⟨fun ⟨h₁, h₂, h₃, h₄⟩ => ⟨h₁, h₂, h₃, h₄⟩, fun ⟨h₁, h₂, h₃, h₄⟩ => ⟨h₁, h₂, h₃, h₄⟩⟩

/-- Every task of an offloading core drains its requests as if in order. -/
def Refines (cfg : Cfg) (σ : Sys D) : Act D → Prop
  | .offload e _ => Refined cfg e σ
  | _ => True

/-- The control rings have room for what has been posted since the last drain. -/
def Roomy (σ : Sys D) : Act D → Prop
  | .offload e _ => (Request.removes (σ.posted e)).length ≤ 4095 ∧
      (Request.adds (σ.posted e)).length ≤ 4095
  | _ => True

/-- No addition is drained together with a later removal of the same ring. -/
def KeepsOrder (σ : Sys D) : Act D → Prop
  | .offload e _ => Request.NoAddThenRemove (σ.posted e)
  | _ => True

namespace OffloadingCore

/-- The drain carries the removals out first. -/
theorem control_Q (hm : Mailed σ) {accept : ℕ} (hr : Roomy σ (.offload e accept)) :
    ((control e σ).core e).Q = Request.removesFirst (σ.core e).Q (σ.posted e) := by
  simp only [control, Function.update_self, (hm.removes e).2, (hm.adds e).2]
  rw [List.take_of_length_le hr.1, List.take_of_length_le hr.2]
  rfl

theorem control_Q_iff (hm : Mailed σ) {accept : ℕ} (hr : Roomy σ (.offload e accept)) :
    ((control e σ).core e).Q = σ.pending e ↔ Request.NoAddThenRemove (σ.posted e) := by
  rw [control_Q hm hr]
  exact Request.removesFirst_eq_inOrder_iff ..

/-- Polling leaves the rings of every offloading core and the requests as they are. -/
theorem poll_sameMail (cfg : Cfg) (e accept : ℕ) (σ : Sys D) :
    (∀ v, (((poll cfg e accept σ).1).core v).Q = (σ.core v).Q) ∧
      (poll cfg e accept σ).1.posted = σ.posted ∧ (poll cfg e accept σ).1.worker = σ.worker ∧
        (poll cfg e accept σ).1.toAddQueue = σ.toAddQueue ∧
          (poll cfg e accept σ).1.toRemoveQueue = σ.toRemoveQueue := by
  simp only [poll]
  split
  · exact ⟨fun _ => rfl, rfl, rfl, rfl, rfl⟩
  · refine ⟨fun v => ?_, rfl, rfl, rfl, rfl⟩
    by_cases hv : v = e
    · subst hv
      simp [pushBatch]
    · simp [pushBatch, Function.update_of_ne hv]

/-- After its task an offloading core has no request left. -/
theorem runTask_pending (cfg : Cfg) (e accept : ℕ) (σ : Sys D) (e' : ℕ) :
    (runTask cfg e accept σ).1.pending e' =
      if e' = e then ((control e σ).core e).Q else σ.pending e' := by
  obtain ⟨hQ, hposted, -⟩ := poll_sameMail cfg e accept (control e σ)
  rw [Sys.pending, runTask, hQ, hposted]
  by_cases he : e' = e
  · subst he
    rw [if_pos rfl]
    simp [control, Request.inOrder]
  · rw [if_neg he]
    simp [control, Function.update_of_ne he, Sys.pending]

end OffloadingCore

/-! ## The requests along a run

The control rings, the record of what was posted and the rings that an offloading core polls go
together at all times. Only a drain carries requests out, and only there their order can change.
-/

variable [Double D]

theorem Mailed.step (h : Mailed σ) (hwired : Wired cfg σ) {a : Act D} (ha : Possible cfg σ a) :
    Mailed (step cfg σ a) := by
  cases a with
  | arrive p => exact h.congr rfl rfl rfl
  | epoch ans vec => exact (Controller.updateShortEpoch_related cfg σ ans vec).mailed h
  | work w inp =>
    exact (hwired.runTask_inv (P := Mailed) ha (fun _ _ _ hσ hs => hs.mailed hσ) h inp).2
  | offload e accept =>
    obtain ⟨-, hposted, -, hadd, hremove⟩ :=
      OffloadingCore.poll_sameMail cfg e accept (OffloadingCore.control e σ)
    exact (h.control e).congr hremove hadd hposted

namespace Polled

/-- The controller posts removals only. -/
theorem epoch (h : Polled cfg σ) (ans : Option (Answer D)) (vec : ℕ → List FlowKey) :
    Polled cfg (Controller.updateShortEpoch cfg ans vec σ) := by
  have hf := Controller.updateShortEpoch_frame cfg σ ans vec
  have hr := Controller.updateShortEpoch_related cfg σ ans vec
  refine h.of_sublist (fun v => by rw [hf.worker]) (fun v => by rw [hf.worker]) fun e => ?_
  obtain ⟨rs, hrs, -⟩ := hr.posted e
  rw [Sys.pending, hf.core, hrs, Request.inOrder_append, Request.inOrder_removes]
  exact List.filter_sublist

/-- **A step whose drain keeps the order keeps the rings in use in order.** -/
theorem step (h : Polled cfg σ) (hwired : Wired cfg σ) (hm : Mailed σ) {a : Act D}
    (hp : Possible cfg σ a) (hr : Roomy σ a) (hk : KeepsOrder σ a) : Polled cfg (step cfg σ a) := by
  cases a with
  | arrive p => exact h.of_same (.of_worker rfl rfl rfl rfl rfl rfl)
  | epoch ans vec => exact h.epoch ans vec
  | work w inp => exact WorkingCore.runTask_polled hwired hp inp h
  | offload e accept =>
    obtain ⟨-, -, hworker, -⟩ :=
      OffloadingCore.poll_sameMail cfg e accept (OffloadingCore.control e σ)
    refine h.of_sublist (fun v => by rw [Fajita.step, OffloadingCore.runTask, hworker]; rfl)
      (fun v => by rw [Fajita.step, OffloadingCore.runTask, hworker]; rfl) fun e' => ?_
    rw [Fajita.step, OffloadingCore.runTask_pending]
    split
    · next he =>
      rw [he, (OffloadingCore.control_Q_iff hm hr).mpr hk]
    · exact .refl _

/-- The loop of `init_queues` announces each ring to one offloading core. -/
theorem announceAll (E n e : ℕ) :
    forRange n (fun i (posted : ℕ → List (Request RingId)) =>
      Function.update posted (i % E) (posted (i % E) ++ [.add (.queue i)])) (fun _ => []) e =
        ((List.range n).filter fun i => i % E = e).map fun i => .add (.queue i) := by
  induction n generalizing e with
  | zero => rfl
  | succ n ih =>
    rw [forRange_succ, List.range_succ, List.filter_append, List.map_append]
    by_cases he : e = n % E
    · rw [he, Function.update_self, ih]
      simp
    · rw [Function.update_of_ne he, ih]
      simp [Ne.symm he]

theorem init_pending (hE : cfg.E ≠ 0) (e : ℕ) : ((Fajita.init D cfg).pending e).Nodup ∧
    ∀ r, r ∈ (Fajita.init D cfg).pending e ↔ ∃ i < cfg.W, i % cfg.E = e ∧ r = .queue i := by
  have hpending : (Fajita.init D cfg).pending e =
      ((List.range cfg.W).filter fun i => i % cfg.E = e).map RingId.queue := by
    simp only [Sys.pending, Fajita.init, Init.posted, if_pos hE, announceAll]
    have hadds : (fun i => Request.add (RingId.queue i)) = Request.add ∘ RingId.queue := rfl
    rw [hadds, ← List.map_map, Request.inOrder_adds, List.nil_append]
  rw [hpending]
  refine ⟨(List.nodup_range.filter _).map fun i j hij => RingId.queue.inj hij, fun r => ?_⟩
  simp only [List.mem_map, List.mem_filter, List.mem_range, decide_eq_true_eq]
  constructor
  · rintro ⟨i, ⟨hi, hmod⟩, rfl⟩
    exact ⟨i, hi, hmod, rfl⟩
  · rintro ⟨i, hi, hmod, rfl⟩
    exact ⟨i, ⟨hi, hmod⟩, rfl⟩

theorem init : Polled cfg (Fajita.init D cfg) := by
  refine ⟨fun e he => (init_pending (Nat.ne_of_gt (Nat.zero_lt_of_lt he)) e).1,
    fun e he r hr => ?_⟩
  have hE : cfg.E ≠ 0 := Nat.ne_of_gt (Nat.zero_lt_of_lt he)
  obtain ⟨i, hi, hmod, rfl⟩ := ((init_pending hE e).2 r).mp hr
  refine ⟨i, rfl, ?_⟩
  simp [Fajita.init, Init.worker, Init.offloadingFromWorking, hi, hE, hmod]

omit [Double D] in
/-- Then the rings of a drained core are its own. -/
theorem refined (h : Polled cfg σ) (hwired : Wired cfg σ) (he : e < cfg.E)
    (hQ : ((OffloadingCore.control e σ).core e).Q = σ.pending e) : Refined cfg e σ where
  refines := hQ
  nodup := by
    rw [hQ]
    exact h.nodup e he
  single e' he' hne r hr hr' := by
    rw [hQ] at hr
    obtain ⟨v, hv, hidx⟩ := h.inUse e he r hr
    obtain ⟨v', hv', hidx'⟩ := h.inUse e' he' r hr'
    have hvv := hwired.q_inj (hv.symm.trans hv')
    subst hvv
    exact hne (hidx'.symm.trans hidx)
  notMine w _ hr := by
    rw [hQ] at hr
    obtain ⟨v, hv, -⟩ := h.inUse e he _ hr
    exact hwired.q_ne_myring v w hv.symm

end Polled

/-! ## Runs -/

/-- **Control messages refine in-order application**: of the runs from the initial state
in which the control rings have room for all requests between two drains, in those whose
drains keep the order, and in no others. Both directions need the room: a full control
ring loses a request, and a lost removal leaves its ring in `Q`. -/
theorem refines_iff {acts : List (Act D)}
    (hC : Along (step cfg) (fun σ a => Possible cfg σ a ∧ Roomy σ a) (init D cfg) acts) :
    Along (step cfg) (Refines cfg) (init D cfg) acts ↔
      Along (step cfg) KeepsOrder (init D cfg) acts := by
  constructor
  · intro h
    refine Along.imp_inv (I := fun σ => Wired cfg σ ∧ Mailed σ)
      (fun σ a hσ ha => ⟨hσ.1.step ha.1.1, hσ.2.step hσ.1 ha.1.1⟩) (fun σ a hσ ha => ?_)
      ⟨wired_init, .init⟩ (hC.and h)
    cases a with
    | offload e accept =>
      have hr : Refined cfg e σ := ha.2
      exact (OffloadingCore.control_Q_iff hσ.2 ha.1.2).mp hr.refines
    | _ => trivial
  · intro h
    refine Along.imp_inv (I := fun σ => Wired cfg σ ∧ Mailed σ ∧ Polled cfg σ)
      (fun σ a hσ ha => ⟨hσ.1.step ha.1.1, hσ.2.1.step hσ.1 ha.1.1,
        hσ.2.2.step hσ.1 hσ.2.1 ha.1.1 ha.1.2 ha.2⟩) (fun σ a hσ ha => ?_)
      ⟨wired_init, .init, .init⟩ (hC.and h)
    cases a with
    | offload e accept =>
      exact hσ.2.2.refined hσ.1 ha.1.1 ((OffloadingCore.control_Q_iff hσ.2.1 ha.1.2).mpr ha.2)
    | _ => trivial

instance (σ : Sys D) : DecidablePred (Refines cfg σ)
  | .offload e _ => inferInstanceAs (Decidable (Refined cfg e σ))
  | .arrive _ => isTrue trivial
  | .epoch _ _ => isTrue trivial
  | .work _ _ => isTrue trivial

instance (σ : Sys D) : DecidablePred (Roomy σ)
  | .offload _ _ => inferInstanceAs (Decidable (_ ∧ _))
  | .arrive _ => isTrue trivial
  | .epoch _ _ => isTrue trivial
  | .work _ _ => isTrue trivial

instance (σ : Sys D) : DecidablePred (KeepsOrder σ)
  | .offload _ _ => inferInstanceAs (Decidable (Request.NoAddThenRemove _))
  | .arrive _ => isTrue trivial
  | .epoch _ _ => isTrue trivial
  | .work _ _ => isTrue trivial

/-! ## What goes wrong -/

namespace Small

/-- A packet waits for the offloading core when the share of shard 0 changes and
the shard is moved: core 0 swaps its rings for the first and posts both rings
again for the second. -/
def repostRun : List (Act ℚ) :=
  [.offload 0 1, .epoch (some (answer id (fun _ => 0) fun _ => 1 / 2)) fun _ => [],
    .arrive (packet 1 0), .work 0 (task 1),
    .epoch (some (answer (fun _ => 1) (fun _ => 0) fun _ => 1 / 4)) fun _ => [],
    .work 0 (task 1), .offload 0 1]

/-- Core 0's new ring is listed twice. -/
theorem repostRun_notRefines :
    Along (step (router 1)) (fun σ a => Possible (router 1) σ a ∧ Roomy σ a)
        (init ℚ (router 1)) repostRun ∧
      ¬ Along (step (router 1)) (Refines (router 1)) (init ℚ (router 1)) repostRun := by
  decide +kernel

/-- The same with the shard left where it is. -/
def swapOnceRun : List (Act ℚ) :=
  [.offload 0 1, .epoch (some (answer id (fun _ => 0) fun _ => 1 / 2)) fun _ => [],
    .arrive (packet 1 0), .work 0 (task 1),
    .epoch (some (answer id (fun _ => 0) fun _ => 1 / 4)) fun _ => [],
    .work 0 (task 1), .offload 0 1]

theorem swapOnceRun_refines :
    Along (step (router 1)) (Refines (router 1)) (init ℚ (router 1)) swapOnceRun :=
  (refines_iff (by decide +kernel)).mpr (by decide +kernel)

end Small

end Fajita
