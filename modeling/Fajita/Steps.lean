import Fajita.Desk

/-!
# What a step of the router can do

The end of a task (`process`, classification, output), the offloading core, and
with them the invariants every run keeps:

* `Wired.step` — the rings;
* `Calm.step` — a core off its own ring has nothing stranded in it, provided the
  `had_changes` branch does not clear `myown` right after a transfer routine took
  packets back (`NoStrand`).
-/

namespace Fajita

variable {D : Type} {cfg : Cfg} {σ : Sys D} {w : ℕ}

open Function (update_self update_of_ne)

namespace WorkingCore

/-! ## The end of a task -/

/-- Looking at the news moves no packets. -/
theorem processChanges_desk (h : Wired cfg σ) :
    (processChanges cfg w σ).qItems w = σ.qItems w ∧
      (processChanges cfg w σ).myItems w = σ.myItems w ∧
        (processChanges cfg w σ).rx = σ.rx := by
  rw [processChanges_eq h.noLocal]
  simp [Sys.qItems, Sys.myItems, Sys.setWorker]

/-- News of a release to the core clears `myown`. -/
theorem processChanges_myown (h : Wired cfg σ) : ((processChanges cfg w σ).worker w).myown =
    ((σ.worker w).myown && !(σ.hadChanges w && releasedTo cfg w σ)) := by
  rw [processChanges_eq h.noLocal]
  simp [Sys.setWorker]

/-- Looking at the news touches no shard. -/
theorem processChanges_shards (h : Wired cfg σ) :
    (processChanges cfg w σ).shards = σ.shards := by
  rw [processChanges_eq h.noLocal]
  rfl

/-- A core that works off its ring receives nothing. -/
theorem processBatch_of_myown (ready : ℕ) (hm : (σ.worker w).myown = true) :
    processBatch cfg w ready σ = [] := if_pos hm

/-- The batch is a prefix of the NIC queue. -/
theorem processBatch_take (ready : ℕ) :
    processBatch cfg w ready σ = (σ.rx w).take (processBatch cfg w ready σ).length := by
  simp only [processBatch]
  split
  · rfl
  · exact rxBurst_eq_take ..

variable [Double D]

/-- `run` puts the packets of offloaded flows into `q`, as far as there is room. -/
theorem forward_qItems (accept : ℕ) (batch : List Packet) :
    (forward cfg w accept batch σ).1.qItems w =
      ((σ.ring (σ.worker w).q).enqueueBurst (classify cfg w σ.epoch batch σ.shards).2.2).items := by
  simp [forward, pushBatch, Sys.enqueueRing, Sys.qItems]

/-- `run` puts no packets into `myring`. -/
theorem forward_myItems (h : Wired cfg σ) (accept : ℕ) (batch : List Packet) :
    (forward cfg w accept batch σ).1.myItems w = σ.myItems w := by
  have hne : (σ.worker w).myring ≠ (σ.worker w).q := (h.pair w).q_ne_myring.symm
  simp [forward, pushBatch, Sys.enqueueRing, Sys.myItems, update_of_ne hne]

/-- `run` takes the batch off the NIC queue. -/
theorem forward_rx (accept : ℕ) (batch : List Packet) :
    (forward cfg w accept batch σ).1.rx w = (σ.rx w).drop batch.length := update_self ..

/-- Working off the ring leaves `q` alone. -/
theorem workOff_qItems (h : Wired cfg σ) (accept : ℕ) :
    (workOff cfg w accept σ).1.qItems w = σ.qItems w := by
  simp [workOff, pushBatch, Sys.qItems, update_of_ne (h.pair w).q_ne_myring]

/-- Working off the ring takes packets off its front. -/
theorem workOff_myItems (accept : ℕ) : ∃ n, (workOff cfg w accept σ).1.myItems w =
    (σ.myItems w).drop n := by
  refine ⟨min (σ.ring (σ.worker w).myring).count (cfg.burst w), ?_⟩
  simp [workOff, pushBatch, Sys.myItems]

/-- Of a task that serves the signal only the signal block touches the hand-over state. -/
theorem runTask_sameHandover (h : Wired cfg σ) (hw : w < cfg.W) (inp : TaskInput)
    (hm : (σ.worker w).myown = false) :
    SameHandover (serveSignal cfg w inp.drains σ) (runTask cfg w inp σ).1 := by
  have hs := serveSignal_serves h hw inp.drains
  simp only [runTask]
  rw [hm, if_neg Bool.false_ne_true]
  exact (SameHandover.of_shards (processChanges_shards hs.wired)).trans
    (forward_sameHandover inp.accept _)

end WorkingCore

/-! ## The offloading core -/

namespace OffloadingCore

/-- A task of an offloading core drains its control rings and takes a prefix off
one ring. -/
theorem runTask_eq (cfg : Cfg) (e accept : ℕ) (σ : Sys D) :
    ∃ core ring transmitted lost, (runTask cfg e accept σ).1 =
      { control e σ with
        core := core, ring := ring, transmitted := transmitted, lost := lost } ∧
      ∀ r, ∃ n, (ring r).items = (σ.ring r).items.drop n := by
  simp only [runTask, poll]
  cases choose ((control e σ).core e) with
  | none => exact ⟨_, σ.ring, _, _, rfl, fun r => ⟨0, rfl⟩⟩
  | some r =>
    refine ⟨_, _, _, _, rfl, fun r' => ?_⟩
    dsimp only [pushBatch]
    by_cases hr : r' = r
    · subst hr
      exact ⟨cfg.coreBurst e, by rw [update_self]; rfl⟩
    · exact ⟨0, by rw [update_of_ne hr]; rfl⟩

end OffloadingCore

/-! ## The wiring of a run -/

/-- An offloading core keeps the wiring. -/
theorem Wired.offload (h : Wired cfg σ) (e accept : ℕ) :
    Wired cfg (OffloadingCore.runTask cfg e accept σ).1 := by
  obtain ⟨core, ring, transmitted, lost, heq, hring⟩ :=
    OffloadingCore.runTask_eq cfg e accept σ
  rw [heq]
  refine ⟨h.pair, h.queues, ?_, ?_, h.noLocal⟩
  · intro v h0 r hr
    obtain ⟨n, hn⟩ := hring r
    rw [hn, h.idle v h0 r hr, List.drop_nil]
  · intro r hr
    obtain ⟨n, hn⟩ := hring r
    rw [hn, h.foreign r hr, List.drop_nil]

section

variable [Double D]

/-- **Every step keeps the wiring.** -/
theorem Wired.step (h : Wired cfg σ) {a : Act D} (ha : Possible cfg σ a) :
    Wired cfg (step cfg σ a) := by
  cases a with
  | arrive p => exact h.of_same rfl (fun _ => ⟨rfl, rfl⟩) rfl fun _ => rfl
  | epoch ans vec =>
    have hf := Controller.updateShortEpoch_frame cfg σ ans vec
    exact h.of_same hf.traffic.ring (fun v => by rw [Fajita.step, hf.worker]; exact ⟨rfl, rfl⟩)
      hf.queues hf.localQueue
  | work w inp => exact (h.runTask_inv (P := fun _ => True) ha (fun _ _ _ _ _ => trivial) trivial
      inp).1
  | offload e accept => exact h.offload e accept

/-! ## Calm cores

A core is calm if packets wait in its ring only while it knows of them. One kind of task leaves a
core that is not: the task that takes packets back and, later on, clears `myown` because of the news
(`Strands`).
-/

end

/-- The `had_changes` branch of a task of core `w` would clear `myown` right after
a transfer routine of the same task took packets back. -/
def Strands (cfg : Cfg) (w : ℕ) (σ : Sys D) : Prop :=
  (σ.worker w).myown = false ∧ raises w σ = true ∧ σ.hadChanges w = true ∧
    WorkingCore.releasedTo cfg w σ = true

instance (cfg : Cfg) (w : ℕ) (σ : Sys D) : Decidable (Strands cfg w σ) :=
  inferInstanceAs (Decidable (_ ∧ _ ∧ _ ∧ _))

/-- The step is not a task that strands the packets it takes back. -/
def NoStrand (cfg : Cfg) (σ : Sys D) : Act D → Prop
  | .work w _ => ¬ Strands cfg w σ
  | _ => True

namespace Calm

open WorkingCore

/-- Calm is a matter of the rings and of what the cores know of them. -/
theorem of_eq {v : ℕ} {σ' : Sys D} (hc : Calm v σ) (hworker : σ'.worker = σ.worker)
    (hring : σ'.ring = σ.ring) : Calm v σ' := by
  refine ⟨fun hm => ?_, fun hm => ?_⟩
  · rw [Sys.myItems, hworker, hring]
    exact hc.mine (by rw [← hworker, hm])
  · rw [Sys.qItems, hworker, hring]
    exact hc.queue (by rw [← hworker, hm])

/-- The task of an offloading core leaves the working cores calm. -/
theorem offload {v : ℕ} (hc : Calm v σ) (e accept : ℕ) :
    Calm v (OffloadingCore.runTask cfg e accept σ).1 := by
  obtain ⟨core, ring, transmitted, lost, heq, hring⟩ :=
    OffloadingCore.runTask_eq cfg e accept σ
  rw [heq]
  refine ⟨fun hm => ?_, fun hm => ?_⟩
  · obtain ⟨n, hn⟩ := hring (σ.worker v).myring
    exact hn.trans (by rw [← Sys.myItems, hc.mine hm, List.drop_nil])
  · obtain ⟨n, hn⟩ := hring (σ.worker v).q
    exact hn.trans (by rw [← Sys.qItems, hc.queue hm, List.drop_nil])

/-- `process` keeps the core calm unless it clears `myown` with packets left. -/
theorem processChanges (hc : Calm w σ) (h : Wired cfg σ)
    (hslip : (σ.worker w).myown = true →
      ¬ (σ.hadChanges w = true ∧ releasedTo cfg w σ = true)) :
    Calm w (processChanges cfg w σ) := by
  obtain ⟨hq, hmine, -⟩ := processChanges_desk (w := w) h
  have hown : ((WorkingCore.processChanges cfg w σ).worker w).myown = (σ.worker w).myown := by
    rw [processChanges_myown h]
    cases hm : (σ.worker w).myown with
    | false => rfl
    | true =>
      have hno := hslip hm
      cases hh : σ.hadChanges w <;> cases hr : releasedTo cfg w σ <;> simp_all
  refine ⟨fun hm => ?_, fun hm => ?_⟩
  · rw [hmine]
    exact hc.mine (by rw [← hown, hm])
  · rw [hq]
    exact hc.queue (by rw [← hown, hm])

/-- A core whose ring has been drained is calm. -/
theorem drained (hmine : σ.myItems w = []) : Calm w (drained cfg w σ) := by
  have hown : ((WorkingCore.drained cfg w σ).worker w).myown = false := by
    simp [WorkingCore.drained, Sys.setWorker]
  refine ⟨fun _ => ?_, fun hm => ?_⟩
  · simpa [WorkingCore.drained, Sys.setWorker, Sys.myItems] using hmine
  · rw [hown] at hm
    cases hm

variable [Double D]

/-- The signal block keeps a core calm: it sets `myown` when it brings packets back. -/
theorem serveSignal (hc : Calm w σ) (h : Wired cfg σ) (hw : w < cfg.W) (drains : List ℕ) :
    Calm w (serveSignal cfg w drains σ) :=
  h.serveSignal_rule hw drains (fun _ _ hc => hc.transferR)
    (fun _ h hc => hc.transferOffloading h hw) (fun _ h hc => hc.transferShard h hw drains)
    (fun _ hc => ⟨hc.mine, hc.queue⟩) hc

/-- `run` keeps a core calm: it puts no packets into `myring`. -/
theorem forward (hc : Calm w σ) (h : Wired cfg σ) (ready accept : ℕ) :
    Calm w (forward cfg w accept (processBatch cfg w ready σ) σ).1 := by
  refine ⟨fun hm => ?_, fun hm => ?_⟩
  · rw [forward_myItems h]
    exact hc.mine hm
  · have hown : (σ.worker w).myown = true := hm
    rw [forward_qItems, processBatch_of_myown ready hown]
    simp only [classify, Fifo.enqueueBurst_nil]
    exact hc.queue hm

/-- A core that works off its ring goes on until it is empty, and so stays calm. -/
theorem workOff (hm : (σ.worker w).myown = true) (hc : Calm w σ) (h : Wired cfg σ) (accept : ℕ) :
    Calm w (workOff cfg w accept σ).1 := by
  refine ⟨fun hm' => ?_, fun _ => ?_⟩
  · have : (σ.worker w).myown = false := hm'
    rw [hm] at this
    cases this
  · rw [workOff_qItems h]
    exact hc.queue hm

/-- Whether a core works off its ring after `process`, if it did not before: a transfer
routine has taken packets back, and the `had_changes` branch has not cleared `myown`. -/
theorem beforeReceive_myown (h : Wired cfg σ) (hw : w < cfg.W) (drains : List ℕ)
    (hm : (σ.worker w).myown = false) :
    ((WorkingCore.processChanges cfg w (WorkingCore.serveSignal cfg w drains σ)).worker w).myown =
      (raises w σ && !(σ.hadChanges w && releasedTo cfg w σ)) := by
  have hs := serveSignal_serves h hw drains
  rw [processChanges_myown hs.wired, hs.myown, hm, Bool.false_or]
  rcases serveSignal_cases h hw drains hm with ⟨hk, -⟩ | ⟨-, hno, -⟩
  · -- nothing was released, so `process` sees what the task started with
    have hrel : releasedTo cfg w (WorkingCore.serveSignal cfg w drains σ) =
        releasedTo cfg w σ := by
      simp only [releasedTo, hk.handover.ownerNew, hk.handover.pause]
    rw [hrel, hk.hadChanges]
  · rw [hno, Bool.false_and, Bool.false_and]

/-- Unless the task strands packets, `process` leaves `myown` as the transfer
routines did. -/
theorem afterProcess_myown (h : Wired cfg σ) (hw : w < cfg.W) (drains : List ℕ)
    (hm : (σ.worker w).myown = false) (hstrand : ¬ Strands cfg w σ) :
    ((WorkingCore.processChanges cfg w (WorkingCore.serveSignal cfg w drains σ)).worker w).myown =
      raises w σ := by
  rw [beforeReceive_myown h hw drains hm]
  cases hraise : raises w σ with
  | false => rfl
  | true =>
    have hno : (σ.hadChanges w && releasedTo cfg w σ) = false := by
      rw [← Bool.not_eq_true, Bool.and_eq_true]
      exact fun hslip => hstrand ⟨hm, hraise, hslip⟩
    rw [hno]
    rfl

/-- A task keeps its core calm unless it strands what it takes back. -/
theorem runTask (hc : Calm w σ) (h : Wired cfg σ) (hw : w < cfg.W) (inp : TaskInput)
    (hstrand : ¬ Strands cfg w σ) : Calm w (runTask cfg w inp σ).1 := by
  simp only [WorkingCore.runTask]
  cases hm : (σ.worker w).myown with
  | true =>
    rw [if_pos rfl]
    split
    · next hcount => exact drained (Fifo.count_eq_zero.mp hcount)
    · exact hc.workOff hm h inp.accept
  | false =>
    rw [if_neg Bool.false_ne_true]
    have hs := serveSignal_serves h hw inp.drains
    have hp : Calm w (WorkingCore.processChanges cfg w
        (WorkingCore.serveSignal cfg w inp.drains σ)) := by
      refine (hc.serveSignal h hw inp.drains).processChanges hs.wired fun hm' hslip => ?_
      have hown := afterProcess_myown h hw inp.drains hm hstrand
      rw [processChanges_myown hs.wired, hm', hslip.1, hslip.2] at hown
      rw [hs.myown, hm, Bool.false_or, ← hown] at hm'
      cases hm'
    exact hp.forward (hs.wired.stage hw (.processChanges _)) inp.rx inp.accept

/-- **Every step that does not strand packets keeps all cores calm.** -/
theorem step (hc : ∀ v, Calm v σ) (h : Wired cfg σ) {a : Act D} (ha : Possible cfg σ a)
    (hstrand : NoStrand cfg σ a) (v : ℕ) : Calm v (step cfg σ a) := by
  cases a with
  | arrive p => exact (hc v).of_eq rfl rfl
  | epoch ans vec =>
    have hf := Controller.updateShortEpoch_frame cfg σ ans vec
    exact (hc v).of_eq hf.worker hf.traffic.ring
  | work w inp =>
    by_cases hv : v = w
    · subst hv
      exact (hc v).runTask h ha inp hstrand
    · exact (hc v).of_sameDesk (.of_localTo h (h.runTask_localTo ha inp) hv)
  | offload e accept => exact (hc v).offload e accept

end Calm

end Fajita
