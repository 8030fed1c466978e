import Fajita.Ledger
import Fajita.Sides

/-!
# Which steps lose buffers

`rte_ring_enqueue_burst` and `rte_eth_tx_burst` may take fewer buffers than they are
offered, and the elements do not look at the result. Neither does `run` look at
`off_idx` before it writes to `off_pkts`. So a step is `Safe` when the buffers are
conserved after it and no more than the 128 slots of `off_pkts` are written, and
`Fits` says, of the state before the step, that every burst of the step finds room:

* what is taken back to `myring` by the transfer routines;
* what is pushed to the output, by the transmit burst and by the driver;
* what is collected in `off_pkts` and enqueued in `q`.

A run conserves the buffers exactly as long as its steps fit
(`conserved_iff_fits`).
-/

namespace Fajita

variable {D : Type} {cfg : Cfg} {σ σ' : Sys D} {w : ℕ}

/-! ## Room

A ring that is full takes a part of a burst and refuses the rest, which is a buffer that nobody
frees. Everything else that happens to buffers conserves them.
-/

/-- The slots of the rings `init_queues` creates. -/
def ringSlots : ℕ := 4095

/-- The rings are as large as they were created. -/
def Sized (σ : Sys D) : Prop := ∀ r, (σ.ring r).capacity = ringSlots

/-- A ring takes all of a burst if there are slots for it. -/
theorem Sized.refused_eq_nil (h : Sized σ) (r : RingId) (xs : List Packet) :
    (σ.ring r).refused xs = [] ↔ (σ.ring r).items.length + xs.length ≤ ringSlots := by
  have hfits := (σ.ring r).fits
  rw [Fifo.refused_eq_nil, Fifo.free]
  rw [h r] at hfits ⊢
  omega

theorem Sized.of_eq (h : Sized σ) (hring : σ'.ring = σ.ring) : Sized σ' := by
  rw [Sized, hring]
  exact h

/-- A new content for one ring. -/
theorem Sized.of_update (h : Sized σ) {r : RingId} {Q : Fifo Packet}
    (hring : σ'.ring = Function.update σ.ring r Q) (hQ : Q.capacity = (σ.ring r).capacity) :
    Sized σ' := by
  intro r'
  rw [hring]
  by_cases hr : r' = r
  · subst hr
    rw [Function.update_self, hQ, h]
  · rw [Function.update_of_ne hr, h]

/-- No stage resizes a ring. -/
theorem WorkingCore.Stage.sized [Double D] (h : Wired cfg σ) (hsize : Sized σ)
    (hs : Stage cfg w σ σ') : Sized σ' := by
  cases hs with
  | takeBack =>
    rw [takeBack_eq h]
    have hclear : Sized { σ with
        ring := Function.update σ.ring (σ.worker w).q (σ.ring (σ.worker w).q).clear } :=
      hsize.of_update rfl rfl
    refine hclear.of_update (r := (σ.worker w).myring) rfl ?_
    change _ = (Function.update σ.ring (σ.worker w).q (σ.ring (σ.worker w).q).clear
      (σ.worker w).myring).capacity
    rw [Function.update_of_ne (h.pair w).q_ne_myring.symm]
    rfl
  | receiveAll drains =>
    rw [receiveAll_eq]
    exact hsize.of_update rfl rfl
  | processChanges =>
    rw [processChanges_eq h.noLocal]
    exact hsize.of_eq rfl
  | forward ready accept => exact hsize.of_update rfl rfl
  | workOff accept => exact hsize.of_update rfl rfl
  | exchange => exact hsize.of_eq exchange_repointed.ring
  | withdraw => exact hsize.of_eq withdraw_repointed.ring
  | announce => exact hsize.of_eq announce_repointed.ring
  | adopt => exact hsize.of_eq adopt_repointed.ring
  | takeRatios | releaseAll | doneR | doneOffloading | doneShard | doneSignal | drained =>
    exact hsize.of_eq rfl

theorem WorkingCore.Stage.sized_chain [Double D] (h : Wired cfg σ) (hw : w < cfg.W)
    (hsize : Sized σ) (hchain : Relation.ReflTransGen (Stage cfg w) σ σ') :
    Wired cfg σ' ∧ Sized σ' :=
  Stage.inv (P := fun σ => Wired cfg σ ∧ Sized σ)
    (fun _ _ hσ hs => ⟨hσ.1.stage hw hs, hs.sized hσ.1 hσ.2⟩) ⟨h, hsize⟩ hchain

/-- What waits in the two rings of a core. -/
def Sys.held (σ : Sys D) (w : ℕ) : ℕ := (σ.qItems w).length + (σ.myItems w).length

/-- The transmit burst of output `i` and the driver take a batch of `n`. -/
def FitsOutput (cfg : Cfg) (i accept n : ℕ) : Prop := n ≤ cfg.outBurst i ∧ n ≤ accept

instance (cfg : Cfg) (i accept n : ℕ) : Decidable (FitsOutput cfg i accept n) :=
  inferInstanceAs (Decidable (_ ∧ _))

theorem pushBatch_rest_eq_nil {i accept : ℕ} {batch : List Packet} :
    batch.drop ((batch.take (cfg.outBurst i)).take accept).length = [] ↔
      FitsOutput cfg i accept batch.length := by
  rw [List.drop_eq_nil_iff, List.length_take, List.length_take, FitsOutput]
  omega

/-! ## What a step moves

Whether the bursts of a task find room depends on the state before the task and on the answers of
the drivers. So what the task is going to move is computed here from these alone, as if nothing
could get lost.
-/

section

variable (cfg : Cfg) (w : ℕ) (drains : List ℕ) (inp : TaskInput) (σ : Sys D)

/-- The NIC queue after the signal. -/
def rxAfter : List Packet :=
  if σ.controllerSignal w && σ.transferShard w then
    (σ.rx w).drop (WorkingCore.rxPrefix cfg w drains σ).length
  else σ.rx w

/-- What waits in `q` after the signal, if nothing got lost. -/
def queueAfter : List Packet :=
  if σ.controllerSignal w && (σ.transferOffloading w || σ.transferShard w) then []
  else if σ.controllerSignal w && σ.transferR w && decide (σ.qItems w ≠ []) then σ.myItems w
  else σ.qItems w

/-- The shards after the signal, as far as they matter to a batch. -/
def ratiosAfter : ℕ → ShardInfo D :=
  if σ.controllerSignal w && σ.transferR w then (WorkingCore.takeRatios cfg w σ).shards
  else σ.shards

/-- What the task receives after the signal. -/
def batchAfter : List Packet :=
  if raises w σ && !(σ.hadChanges w && WorkingCore.releasedTo cfg w σ) then []
  else WorkingCore.rxBurst (cfg.burst w) inp.rx (rxAfter cfg w inp.drains σ)

/-- The received packets, split by `run` into those for output 0 and those for
`off_pkts`. -/
def sortedOut [Double D] : List Packet × List Packet :=
  (classify cfg w σ.epoch (batchAfter cfg w inp σ) (ratiosAfter cfg w σ)).2

/-- What an offloading core takes off the ring it polls. -/
def pollBatch (e : ℕ) : List Packet :=
  match OffloadingCore.choose { σ.core e with
      Q := Request.drain (σ.core e).Q (σ.toRemoveQueue e).items (σ.toAddQueue e).items } with
  | none => []
  | some r => (σ.ring r).items.take (cfg.coreBurst e)

end

/-- The routines of the signal find room in `myring`. -/
def FitsSignal (cfg : Cfg) (w : ℕ) (drains : List ℕ) (σ : Sys D) : Prop :=
  ((σ.controllerSignal w && σ.transferOffloading w) = true → σ.held w ≤ ringSlots) ∧
    ((σ.controllerSignal w && σ.transferShard w) = true →
      σ.held w + (WorkingCore.rxPrefix cfg w drains σ).length ≤ ringSlots)

instance (cfg : Cfg) (w : ℕ) (drains : List ℕ) (σ : Sys D) :
    Decidable (FitsSignal cfg w drains σ) :=
  inferInstanceAs (Decidable ((_ → _) ∧ (_ → _)))

/-- Every burst of a task that serves its signal and receives finds room. -/
def FitsReceive [Double D] (cfg : Cfg) (w : ℕ) (inp : TaskInput) (σ : Sys D) : Prop :=
  FitsSignal cfg w inp.drains σ ∧
    FitsOutput cfg w inp.accept (sortedOut cfg w inp σ).1.length ∧
    (sortedOut cfg w inp σ).2.length ≤ Cfg.offPktsSize ∧
    (queueAfter w σ).length + (sortedOut cfg w inp σ).2.length ≤ ringSlots

instance [Double D] (cfg : Cfg) (w : ℕ) (inp : TaskInput) (σ : Sys D) :
    Decidable (FitsReceive cfg w inp σ) :=
  inferInstanceAs (Decidable (_ ∧ _ ∧ _ ∧ _))

/-- **Every burst of the step finds room.** -/
def Fits [Double D] (cfg : Cfg) (σ : Sys D) : Act D → Prop
  | .work w inp =>
    if (σ.worker w).myown then
      FitsOutput cfg w inp.accept (min (σ.myItems w).length (cfg.burst w))
    else FitsReceive cfg w inp σ
  | .offload e accept => FitsOutput cfg (cfg.W + e) accept (pollBatch cfg σ e).length
  | _ => True

/-- The step conserves the buffers and stays within `off_pkts`. -/
def Safe [Double D] (cfg : Cfg) (σ : Sys D) (a : Act D) : Prop :=
  Conserved cfg (step cfg σ a) ∧ (taskLog cfg σ a).off.length ≤ Cfg.offPktsSize

/-! ## The routines -/

namespace WorkingCore

/-- What a routine of the signal does to the buffers of its core: it loses some
unless `room` holds, and none of those that stay leaves the two rings. -/
structure Keeps (w : ℕ) (room : Prop) (σ σ' : Sys D) : Prop where
  /-- buffers get lost if there is no room -/
  lost : σ'.lost = [] ↔ σ.lost = [] ∧ room
  /-- the others stay in the rings -/
  held : room → σ'.held w = σ.held w

theorem Keeps.refl (w : ℕ) (σ : Sys D) : Keeps w True σ σ := ⟨by simp, fun _ => rfl⟩

theorem transferR_keeps : Keeps w True σ (transferR cfg w σ) := by
  refine ⟨?_, fun _ => ?_⟩
  · rw [and_true]
    simp only [transferR, exchange]
    split <;> exact Iff.rfl
  · by_cases hq : σ.qItems w = []
    · have hd := @transferR_desk _ cfg _ _ hq
      rw [Sys.held, hd.q, hd.mine, Sys.held]
    · obtain ⟨-, hq', hmine, -⟩ := @transferR_of_ne _ cfg _ _ hq
      rw [Sys.held, hq', hmine, Sys.held, add_comm]

/-- `transfer_r` on `q`. -/
theorem transferR_qItems : (transferR cfg w σ).qItems w =
    if σ.qItems w ≠ [] then σ.myItems w else σ.qItems w := by
  by_cases hq : σ.qItems w = []
  · rw [(transferR_desk hq).q, if_neg (not_not.mpr hq)]
  · rw [if_pos hq, (transferR_of_ne hq).2.1]

theorem takeBack_lost (h : Wired cfg σ) : (takeBack cfg w σ).lost =
    σ.lost ++ (σ.ring (σ.worker w).myring).refused (σ.qItems w) := by
  rw [takeBack_eq h]

theorem receiveAll_lost (drains : List ℕ) : (receiveAll cfg w drains σ).lost =
    σ.lost ++ (σ.ring (σ.worker w).myring).refused (rxPrefix cfg w drains σ) := by
  rw [receiveAll_eq]

theorem processChanges_lost (h : Wired cfg σ) : (processChanges cfg w σ).lost = σ.lost := by
  rw [processChanges_eq h.noLocal]
  rfl

section

variable [Double D] (h : Wired cfg σ) (hw : w < cfg.W) (hsize : Sized σ)

include h hw hsize

theorem transferOffloading_keeps :
    Keeps w (σ.held w ≤ ringSlots) σ (transferOffloading cfg w σ) := by
  have hwired := h.stage hw (.withdraw σ)
  obtain ⟨hworker, hring, hlost⟩ := @withdraw_buffers _ σ w
  have hroom : (σ.ring (σ.worker w).myring).refused (σ.qItems w) = [] ↔
      σ.held w ≤ ringSlots := by
    rw [hsize.refused_eq_nil, ← Sys.myItems, Sys.held, add_comm]
  refine ⟨?_, fun hheld => ?_⟩
  · have heq : (transferOffloading cfg w σ).lost =
        σ.lost ++ (σ.ring (σ.worker w).myring).refused (σ.qItems w) := by
      refine adopt_repointed.lost.trans ?_
      rw [takeBack_lost hwired, hlost, hworker, hring, withdraw_desk.q]
    rw [heq, List.append_eq_nil_iff, hroom]
  · have hmine : (transferOffloading cfg w σ).myItems w = σ.myItems w ++ σ.qItems w := by
      refine adopt_desk.mine.trans ?_
      rw [takeBack_myItems hwired, hworker, hring, withdraw_desk.q,
        Fifo.enqueueBurst_items_of_fits (Fifo.refused_eq_nil.mp (hroom.mpr hheld)), ← Sys.myItems]
    rw [Sys.held, transferOffloading_qItems h hw, hmine, Sys.held, List.length_append]
    simp only [List.length_nil]
    omega

theorem collect_lost (drains : List ℕ) : (collect cfg w drains σ).lost = [] ↔
    σ.lost = [] ∧ σ.held w + (rxPrefix cfg w drains σ).length ≤ ringSlots := by
  have hwired := h.stage hw (.withdraw σ)
  have hwired' := hwired.stage hw (.receiveAll _ drains)
  obtain ⟨hworker, hring, hlost⟩ := @withdraw_buffers _ σ w
  have hpre : rxPrefix cfg w drains (withdraw w σ) = rxPrefix cfg w drains σ :=
    rxPrefix_congr drains withdraw_desk.rx
  have hsize' : Sized (receiveAll cfg w drains (withdraw w σ)) := by
    rw [receiveAll_eq]
    exact (hsize.of_eq hring).of_update rfl rfl
  have hfirst : (receiveAll cfg w drains (withdraw w σ)).lost = [] ↔
      σ.lost = [] ∧ (σ.myItems w).length + (rxPrefix cfg w drains σ).length ≤ ringSlots := by
    rw [receiveAll_lost, hlost, hworker, hring, hpre, List.append_eq_nil_iff,
      hsize.refused_eq_nil, ← Sys.myItems]
  rw [collect, announce_repointed.lost, takeBack_lost hwired', List.append_eq_nil_iff, hfirst,
    hsize'.refused_eq_nil, ← Sys.myItems, receiveAll_qItems hwired, withdraw_desk.q,
    receiveAll_myItems, hworker, hring, hpre, and_assoc]
  have hlength : (σ.myItems w).length + (rxPrefix cfg w drains σ).length ≤ ringSlots →
      ((σ.ring (σ.worker w).myring).enqueueBurst (rxPrefix cfg w drains σ)).items.length =
        (σ.myItems w).length + (rxPrefix cfg w drains σ).length := by
    intro hfit
    rw [Fifo.enqueueBurst_items_of_fits
      (Fifo.refused_eq_nil.mp ((hsize.refused_eq_nil _ _).mpr hfit)), List.length_append]
    rfl
  rw [Sys.held]
  refine and_congr_right fun _ => ⟨fun hfit => ?_, fun hfit => ⟨by omega, ?_⟩⟩
  · obtain ⟨hrx, htake⟩ := hfit
    rw [hlength hrx] at htake
    omega
  · rw [hlength (by omega)]
    omega

theorem transferShard_lost (drains : List ℕ) : (transferShard cfg w drains σ).lost = [] ↔
    σ.lost = [] ∧ σ.held w + (rxPrefix cfg w drains σ).length ≤ ringSlots := by
  rw [← collect_lost h hw hsize drains]
  simp only [transferShard]
  split <;> exact Iff.rfl

omit hsize in
theorem transferShard_rest (drains : List ℕ) :
    (transferShard cfg w drains σ).qItems w = [] ∧
      (transferShard cfg w drains σ).rx w =
        (σ.rx w).drop (rxPrefix cfg w drains σ).length := by
  have hwired := h.stage hw (.withdraw σ)
  refine ⟨(transferShard_desk drains).q.trans (collect_qItems h hw drains), ?_⟩
  rw [(transferShard_desk drains).rx, collect, announce_desk.rx,
    takeBack_rx (hwired.stage hw (.receiveAll _ drains)), receiveAll_rx, withdraw_desk.rx,
    rxPrefix_congr drains withdraw_desk.rx]

end

/-- `transfer_shard` touches a shard only if nothing waits in the NIC queue. -/
theorem transferShard_shards [Double D] (h : Wired cfg σ) (hw : w < cfg.W) (drains : List ℕ) :
    (transferShard cfg w drains σ).shards = σ.shards ∨ σ.rx w = [] := by
  by_cases hrx : σ.rx w = []
  · exact Or.inr hrx
  · refine Or.inl ?_
    have hown : ((collect cfg w drains σ).worker w).myown = true := by
      rw [collect_myown h hw]
      simp [hrx]
    simp only [transferShard]
    rw [if_pos hown]
    exact collect_shards drains

/-! ## The signal -/

theorem Keeps.opt {room : Prop} (c : Bool) (h : Keeps w room σ σ') :
    Keeps w (c = true → room) σ (if c then σ' else σ) := by
  cases c with
  | true => exact ⟨by simpa using h.lost, fun hroom => h.held (hroom rfl)⟩
  | false => exact ⟨by simp, fun _ => rfl⟩

/-- The test of `transfer_r`. -/
theorem serveR_buffers : Keeps w True σ (serveR cfg w σ) ∧
    (serveR cfg w σ).qItems w =
      (if σ.transferR w && decide (σ.qItems w ≠ []) then σ.myItems w else σ.qItems w) ∧
    (serveR cfg w σ).rx w = σ.rx w ∧
    (serveR cfg w σ).shards =
      if σ.transferR w then (takeRatios cfg w σ).shards else σ.shards := by
  simp only [serveR]
  cases σ.transferR w with
  | false => exact ⟨.refl w σ, rfl, rfl, rfl⟩
  | true =>
    refine ⟨transferR_keeps, ?_, transferR_rx, ?_⟩
    · rw [if_pos rfl, transferR_qItems]
      simp
    · change (takeRatios cfg w (exchange w σ)).shards = (takeRatios cfg w σ).shards
      rw [takeRatios, exchange_repointed.shards]
      rfl

section

variable [Double D] (h : Wired cfg σ) (hw : w < cfg.W) (hsize : Sized σ)

include h hw

/-- The test of `transfer_offloading`. -/
theorem serveOffloading_buffers : 
    (serveOffloading cfg w σ).qItems w = (if σ.transferOffloading w then [] else σ.qItems w) ∧
    (serveOffloading cfg w σ).rx w = σ.rx w ∧
    (serveOffloading cfg w σ).shards = σ.shards := by
  simp only [serveOffloading]
  cases σ.transferOffloading w with
  | false => exact ⟨rfl, rfl, rfl⟩
  | true => exact ⟨transferOffloading_qItems h hw, transferOffloading_rx h hw,
      transferOffloading_shards⟩

/-- The test of `transfer_shard`. -/
theorem serveShard_buffers (drains : List ℕ) :
    (serveShard cfg w drains σ).qItems w = (if σ.transferShard w then [] else σ.qItems w) ∧
    (serveShard cfg w drains σ).rx w =
      (if σ.transferShard w then (σ.rx w).drop (rxPrefix cfg w drains σ).length else σ.rx w) ∧
    ((serveShard cfg w drains σ).shards = σ.shards ∨ σ.rx w = []) := by
  simp only [serveShard]
  cases σ.transferShard w with
  | false => exact ⟨rfl, rfl, Or.inl rfl⟩
  | true =>
    obtain ⟨hq, hrx⟩ := transferShard_rest h hw drains
    exact ⟨hq, hrx, transferShard_shards h hw drains⟩

/-- **The signal, as far as a batch sees it.** -/
theorem serveSignal_view (drains : List ℕ) :
    (serveSignal cfg w drains σ).qItems w = queueAfter w σ ∧
    (serveSignal cfg w drains σ).rx w = rxAfter cfg w drains σ ∧
    ((serveSignal cfg w drains σ).shards = ratiosAfter cfg w σ ∨ σ.rx w = []) := by
  obtain ⟨-, hqR, hrxR, hshardsR⟩ := @serveR_buffers _ cfg σ w
  have hwiredR : Wired cfg (serveR cfg w σ) :=
    ((transferR_serves h hw).opt (σ.transferR w) h).wired
  obtain ⟨hqO, hrxO, hshardsO⟩ := serveOffloading_buffers hwiredR hw
  obtain ⟨hqS, hrxS, hshardsS⟩ := serveShard_buffers (beforeShard_serves h hw).wired hw drains
  have hpre : rxPrefix cfg w drains (beforeShard cfg w σ) = rxPrefix cfg w drains σ :=
    rxPrefix_congr drains (hrxO.trans hrxR)
  rw [beforeShard_kept.2] at hqS hrxS
  rw [serveR_kept.2.1] at hqO
  simp only [serveSignal, queueAfter, rxAfter, ratiosAfter]
  cases hsig : σ.controllerSignal w with
  | false => exact ⟨by simp, by simp, by simp⟩
  | true =>
    rw [if_pos rfl]
    refine ⟨?_, ?_, ?_⟩
    · refine hqS.trans ?_
      rw [beforeShard, hqO, hqR]
      cases σ.transferShard w <;> cases σ.transferOffloading w <;> simp
    · refine hrxS.trans ?_
      rw [beforeShard, hrxO, hrxR, ← beforeShard, hpre, Bool.true_and]
    · refine hshardsS.imp (fun hshards => ?_) fun hrx => ?_
      · refine hshards.trans ?_
        rw [beforeShard, hshardsO, hshardsR, Bool.true_and]
      · rw [← hrxR, ← hrxO]
        exact hrx

include hsize

/-- **The signal loses no buffer exactly if it fits.** -/
theorem serveSignal_lost (drains : List ℕ) : (serveSignal cfg w drains σ).lost = [] ↔
    σ.lost = [] ∧ FitsSignal cfg w drains σ := by
  obtain ⟨hkeepR, -, hrxR, -⟩ := @serveR_buffers _ cfg σ w
  obtain ⟨hwiredR, hsizeR⟩ := Stage.sized_chain h hw hsize (serveR_stages (σ := σ))
  obtain ⟨hwiredO, hsizeO⟩ : Wired cfg (beforeShard cfg w σ) ∧ Sized (beforeShard cfg w σ) :=
    Stage.sized_chain hwiredR hw hsizeR serveOffloading_stages
  have hkeepO := (transferOffloading_keeps hwiredR hw hsizeR).opt
    ((serveR cfg w σ).transferOffloading w)
  rw [serveR_kept.2.1] at hkeepO
  have hheldR : (serveR cfg w σ).held w = σ.held w := hkeepR.held trivial
  have hpre : rxPrefix cfg w drains (beforeShard cfg w σ) = rxPrefix cfg w drains σ :=
    rxPrefix_congr drains ((serveOffloading_buffers hwiredR hw).2.1.trans hrxR)
  have hbefore : (beforeShard cfg w σ).lost = [] ↔
      σ.lost = [] ∧ (σ.transferOffloading w = true → σ.held w ≤ ringSlots) := by
    have hlost := hkeepO.lost
    rw [hkeepR.lost, and_true, hheldR] at hlost
    rw [beforeShard, serveOffloading, serveR_kept.2.1]
    exact hlost
  have hafter : (serveShard cfg w drains (beforeShard cfg w σ)).lost = [] ↔
      (beforeShard cfg w σ).lost = [] ∧ (σ.transferShard w = true →
        (beforeShard cfg w σ).held w + (rxPrefix cfg w drains σ).length ≤ ringSlots) := by
    rw [serveShard, beforeShard_kept.2]
    cases σ.transferShard w with
    | false => simp
    | true =>
      rw [if_pos rfl, transferShard_lost hwiredO hw hsizeO drains, hpre]
      simp
  simp only [serveSignal, FitsSignal]
  cases hsig : σ.controllerSignal w with
  | false => simp
  | true =>
    simp only [Bool.true_and, if_pos]
    refine hafter.trans ?_
    rw [hbefore, and_assoc]
    refine and_congr_right fun _ => and_congr_right fun hroom => ?_
    -- as long as nothing gets lost, the rings hold what they held
    have hheld : (beforeShard cfg w σ).held w = σ.held w := by
      refine Eq.trans ?_ hheldR
      rw [beforeShard, serveOffloading, serveR_kept.2.1]
      exact hkeepO.held (by rwa [hheldR])
    rw [hheld]

end

end WorkingCore

/-! ## The steps

That this is what the task moves is shown as long as every burst before has found room; the first
that does not is the one the condition names.
-/

open WorkingCore

variable [Double D]

section

variable (h : Wired cfg σ) (hw : w < cfg.W)

include h hw

/-- What a task receives after the signal. -/
theorem processBatch_eq (inp : TaskInput) (hm : (σ.worker w).myown = false) :
    processBatch cfg w inp.rx (beforeReceive cfg w inp σ) = batchAfter cfg w inp σ := by
  have hs := serveSignal_serves h hw inp.drains
  obtain ⟨-, -, hrx⟩ := processChanges_desk (w := w) hs.wired
  have hown := Calm.beforeReceive_myown h hw inp.drains hm
  rw [processBatch, beforeReceive, hown, batchAfter, hrx, (serveSignal_view h hw inp.drains).2.1]

/-- How a task classifies what it receives. -/
theorem classify_eq (inp : TaskInput) :
    (classify cfg w (beforeReceive cfg w inp σ).epoch (batchAfter cfg w inp σ)
      (beforeReceive cfg w inp σ).shards).2 = sortedOut cfg w inp σ := by
  have hs := serveSignal_serves h hw inp.drains
  rw [beforeReceive_epoch h hw, beforeReceive, processChanges_shards hs.wired, sortedOut]
  rcases (serveSignal_view h hw inp.drains).2.2 with hshards | hrx
  · rw [hshards]
  · -- an empty batch is classified alike by any shards
    have hnil : batchAfter cfg w inp σ = [] := by
      rw [batchAfter, rxAfter, hrx, rxBurst, List.drop_nil, ite_self, List.take_nil, ite_self]
    rw [hnil]
    rfl

omit h hw in
/-- A task that works off `myring`. -/
theorem workOff_fits (hlost : σ.lost = []) (inp : TaskInput) (hm : (σ.worker w).myown = true) :
    (runTask cfg w inp σ).1.lost = [] ∧ (runTask cfg w inp σ).2.off.length ≤ Cfg.offPktsSize ↔
      Fits cfg σ (.work w inp) := by
  rw [runTask, if_pos hm, Fits, if_pos hm]
  by_cases hcount : (σ.ring (σ.worker w).myring).count = 0
  · have hnil : σ.myItems w = [] := Fifo.count_eq_zero.mp hcount
    rw [if_pos hcount, hnil]
    simp [drained, Sys.setWorker, hlost, FitsOutput]
  · rw [if_neg hcount]
    have hbatch : ((σ.ring (σ.worker w).myring).items.take
        (min (σ.ring (σ.worker w).myring).count (cfg.burst w))).length =
          min (σ.myItems w).length (cfg.burst w) := by
      rw [List.length_take, Fifo.count, Sys.myItems]
      omega
    rw [← hbatch, ← pushBatch_rest_eq_nil]
    simp [workOff, pushBatch, hlost]

/-- A task that serves its signal and receives. -/
theorem receive_fits (hsize : Sized σ) (hlost : σ.lost = []) (inp : TaskInput)
    (hm : (σ.worker w).myown = false) :
    (runTask cfg w inp σ).1.lost = [] ∧ (runTask cfg w inp σ).2.off.length ≤ Cfg.offPktsSize ↔
      Fits cfg σ (.work w inp) := by
  have hs := serveSignal_serves h hw inp.drains
  have hwired := beforeReceive_wired h hw inp
  have hsplit := classify_eq h hw inp
  have hsize' : Sized (beforeReceive cfg w inp σ) :=
    (Stage.sized_chain h hw hsize (.tail (serveSignal_stages inp.drains) (.processChanges _))).2
  -- a task loses packets in three places: serving the signal, at the output and at `q`
  have hlost' : (beforeReceive cfg w inp σ).lost = [] ↔ FitsSignal cfg w inp.drains σ := by
    have hsignal := serveSignal_lost h hw hsize inp.drains
    rw [hlost] at hsignal
    rw [beforeReceive, processChanges_lost hs.wired]
    simpa using hsignal
  have hq : (beforeReceive cfg w inp σ).qItems w = queueAfter w σ :=
    (processChanges_desk hs.wired).1.trans (serveSignal_view h hw inp.drains).1
  have hrun : runTask cfg w inp σ = forward cfg w inp.accept (batchAfter cfg w inp σ)
      (beforeReceive cfg w inp σ) := by
    rw [← processBatch_eq h hw inp hm, runTask, hm, if_neg Bool.false_ne_true]
    rfl
  have hoff : (runTask cfg w inp σ).2.off = (sortedOut cfg w inp σ).2 := by
    rw [hrun, ← hsplit]
    rfl
  have hlost'' : (runTask cfg w inp σ).1.lost = (beforeReceive cfg w inp σ).lost ++
      (sortedOut cfg w inp σ).1.drop
        (((sortedOut cfg w inp σ).1.take (cfg.outBurst w)).take inp.accept).length ++
      ((beforeReceive cfg w inp σ).ring ((beforeReceive cfg w inp σ).worker w).q).refused
        (sortedOut cfg w inp σ).2 := by
    rw [hrun, ← hsplit]
    rfl
  rw [Fits, if_neg (by rw [hm]; exact Bool.false_ne_true), FitsReceive, hoff, hlost'',
    List.append_eq_nil_iff, List.append_eq_nil_iff, hlost', pushBatch_rest_eq_nil,
    hsize'.refused_eq_nil, ← Sys.qItems, hq]
  tauto

end

/-- A task of an offloading core. -/
theorem offload_fits (hlost : σ.lost = []) (e accept : ℕ) :
    (OffloadingCore.runTask cfg e accept σ).1.lost = [] ↔ Fits cfg σ (.offload e accept) := by
  have hcore : (OffloadingCore.control e σ).core e = { σ.core e with
      Q := Request.drain (σ.core e).Q (σ.toRemoveQueue e).items (σ.toAddQueue e).items } :=
    Function.update_self ..
  rw [Fits, OffloadingCore.runTask, OffloadingCore.poll, hcore, pollBatch]
  cases OffloadingCore.choose { σ.core e with
      Q := Request.drain (σ.core e).Q (σ.toRemoveQueue e).items (σ.toAddQueue e).items } with
  | none => simp [OffloadingCore.control, hlost, FitsOutput]
  | some r =>
    rw [← pushBatch_rest_eq_nil]
    simp [OffloadingCore.control, pushBatch, hlost]

/-- **A step**: with the accounts in balance and nothing lost so far, the step is safe
exactly if its bursts find room. -/
theorem safe_iff_fits (h : Wired cfg σ) (ha : Accounted cfg σ) (hsize : Sized σ)
    (hlost : σ.lost = []) {a : Act D} (hp : Possible cfg σ a) :
    Safe cfg σ a ↔ Fits cfg σ a := by
  rw [Safe, (ha.step h hp).conserved_iff]
  cases a with
  | arrive p => exact iff_of_true ⟨hlost, Nat.zero_le _⟩ trivial
  | epoch ans vec =>
    have hf := Controller.updateShortEpoch_frame cfg σ ans vec
    exact iff_of_true ⟨hf.traffic.lost.trans hlost, Nat.zero_le _⟩ trivial
  | work w inp =>
    cases hm : (σ.worker w).myown with
    | true => exact workOff_fits hlost inp hm
    | false => exact receive_fits h hp hsize hlost inp hm
  | offload e accept =>
    have hoff : (taskLog cfg σ (.offload e accept)).off.length ≤ Cfg.offPktsSize := by
      simp only [taskLog, OffloadingCore.runTask, OffloadingCore.poll]
      split <;> exact Nat.zero_le _
    rw [and_iff_left hoff]
    exact offload_fits hlost e accept

theorem Sized.step (h : Wired cfg σ) (hsize : Sized σ) {a : Act D} (hp : Possible cfg σ a) :
    Sized (step cfg σ a) := by
  cases a with
  | arrive p => exact hsize.of_eq rfl
  | epoch ans vec =>
    exact hsize.of_eq (Controller.updateShortEpoch_frame cfg σ ans vec).traffic.ring
  | work w inp => exact (Stage.sized_chain h hp hsize (runTask_stages inp)).2
  | offload e accept =>
    have hcontrol : Sized (OffloadingCore.control e σ) := hsize.of_eq rfl
    simp only [Fajita.step, OffloadingCore.runTask, OffloadingCore.poll]
    split
    · exact hcontrol
    · exact hcontrol.of_update rfl rfl

/-! ## The run

A step is safe exactly if it fits, and a run is safe up to the first step that does not fit.
-/

/-- **Buffer conservation.** In every run, for every schedule and every answer of the
drivers, the buffers are conserved after every step and `off_pkts` never gets more
than 128 of them, if and only if every burst of every step finds room. -/
theorem conserved_iff_fits (cfg : Cfg) (acts : List (Act D))
    (hp : Along (step cfg) (Possible cfg) (init D cfg) acts) :
    Along (step cfg) (Safe cfg) (init D cfg) acts ↔
      Along (step cfg) (Fits cfg) (init D cfg) acts := by
  let I (σ : Sys D) : Prop := Wired cfg σ ∧ Accounted cfg σ ∧ Sized σ ∧ σ.lost = []
  have hinit : I (init D cfg) := ⟨wired_init, accounted_init, fun _ => rfl, rfl⟩
  have hstep : ∀ σ a, I σ → Possible cfg σ a ∧ Safe cfg σ a → I (step cfg σ a) := by
    rintro σ a ⟨h, ha, hsize, -⟩ ⟨hpa, hsafe⟩
    exact ⟨h.step hpa, ha.step h hpa, hsize.step h hpa,
      (ha.step h hpa).conserved_iff.mp hsafe.1⟩
  have hiff : ∀ σ a, I σ → Possible cfg σ a → (Safe cfg σ a ↔ Fits cfg σ a) :=
    fun σ a ⟨h, ha, hsize, hlost⟩ hpa => safe_iff_fits h ha hsize hlost hpa
  constructor
  · exact fun hsafe => (hp.and hsafe).imp_inv hstep (fun σ a hI h => (hiff σ a hI h.1).mp h.2) hinit
  · refine fun hfits => (hp.and hfits).imp_inv (fun σ a hI h => ?_)
      (fun σ a hI h => (hiff σ a hI h.1).mpr h.2) hinit
    exact hstep σ a hI ⟨h.1, (hiff σ a hI h.1).mpr h.2⟩

/-! ## Two runs -/

instance (cfg : Cfg) (σ : Sys D) : DecidablePred (Fits cfg σ)
  | .arrive _ => isTrue trivial
  | .epoch _ _ => isTrue trivial
  | .work w inp =>
    inferInstanceAs (Decidable (if (σ.worker w).myown = true then FitsOutput cfg w inp.accept
      (min (σ.myItems w).length (cfg.burst w)) else FitsReceive cfg w inp σ))
  | .offload e accept =>
    inferInstanceAs (Decidable (FitsOutput cfg (cfg.W + e) accept (pollBatch cfg σ e).length))

instance (cfg : Cfg) (σ : Sys D) (a : Act D) : Decidable (Safe cfg σ a) :=
  inferInstanceAs (Decidable (Conserved cfg _ ∧ _ ≤ _))

namespace Small

/-- Two packets arrive and the driver accepts one of them. -/
def refusedRun : List (Act ℚ) :=
  [.arrive (packet 1 0), .arrive (packet 2 0), .work 0 ⟨[], 2, 1⟩]

/-- The other one is neither kept nor freed. -/
theorem refusedRun_notSafe :
    Along (step (router 1)) (Possible (router 1)) (init ℚ (router 1)) refusedRun ∧
      ¬ Along (step (router 1)) (Safe (router 1)) (init ℚ (router 1)) refusedRun := by
  decide +kernel

/-- The flow of shard 0 is offloaded; its packets are taken back before they are sent. -/
def returnedRun : List (Act ℚ) :=
  [.epoch (some (answer id (fun _ => 0) fun _ => 1 / 2)) fun _ => [], .work 0 (task 1),
    .arrive (packet 1 0), .work 0 (task 1), .arrive (packet 2 0), .work 0 (task 1),
    .epoch (some (answer id (fun _ => 0) fun _ => 1 / 4))
      fun s => if s = 0 then [(packet 2 0).flow] else [],
    .work 0 (task 2), .work 0 (task 2)]

theorem returnedRun_safe :
    Along (step (router 1)) (Safe (router 1)) (init ℚ (router 1)) returnedRun :=
  (conserved_iff_fits (router 1) returnedRun (by decide +kernel)).mpr (by decide +kernel)

end Small

end Fajita
