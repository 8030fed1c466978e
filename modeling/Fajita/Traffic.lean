import Fajita.Steering

/-!
# Where a task moves packets

A task takes a prefix of its NIC queue (`taken`, an explicit function of the
state and the drivers' answers) and moves packets between its two rings; nothing
else enters them. A task that releases a paused shard leaves none of its packets
in the rings of the core.
-/

namespace Fajita

variable {D : Type} {cfg : Cfg} {σ σ' : Sys D} {w : ℕ} {p : Packet}

/-- The packet waits in one of the two rings of the core. -/
def InRings (σ : Sys D) (w : ℕ) (p : Packet) : Prop := p ∈ σ.qItems w ∨ p ∈ σ.myItems w

/-- Where the desk stays, so do the packets in the rings. -/
theorem SameDesk.inRings (h : SameDesk w σ σ') : InRings σ' w p ↔ InRings σ w p := by
  rw [InRings, InRings, h.q, h.mine]

/-- Local steps leave the rings of the other cores alone. -/
theorem LocalTo.inRings (h : LocalTo w σ σ') (hwired : Wired cfg σ) {v : ℕ} (hv : v ≠ w) :
    InRings σ' v p ↔ InRings σ v p :=
  (SameDesk.of_localTo hwired h hv).inRings

/-- What a task of core `w` takes off its NIC queue: the receive loop of
`transfer_shard` or, when the core ends up with nothing to work off, the receive
call of `process`. -/
def taken (cfg : Cfg) (w : ℕ) (inp : TaskInput) (σ : Sys D) : List Packet :=
  if (σ.worker w).myown then []
  else if σ.controllerSignal w && σ.transferShard w then
    WorkingCore.rxPrefix cfg w inp.drains σ
  else if raises w σ then []
  else WorkingCore.rxBurst (cfg.burst w) inp.rx (σ.rx w)

namespace WorkingCore

/-- What `transfer_shard` takes depends on the NIC queue only. -/
theorem rxPrefix_congr (drains : List ℕ) (h : σ'.rx w = σ.rx w) :
    rxPrefix cfg w drains σ' = rxPrefix cfg w drains σ := by
  rw [rxPrefix, rxPrefix, rxCount, rxCount, h]

/-- What `transfer_shard` takes comes from the NIC queue. -/
theorem mem_of_mem_rxPrefix (drains : List ℕ) (h : p ∈ rxPrefix cfg w drains σ) : p ∈ σ.rx w :=
  List.mem_of_mem_take h

/-- Taking packets back brings none into the rings. -/
theorem takeBack_inRings (h : Wired cfg σ) (hp : InRings (takeBack cfg w σ) w p) :
    InRings σ w p := by
  rcases hp with hp | hp
  · rw [takeBack_qItems h] at hp
    cases hp
  · rw [takeBack_myItems h] at hp
    exact (Fifo.mem_enqueueBurst hp).symm

/-- The receive loop brings only packets into the rings that it has read. -/
theorem receiveAll_inRings (h : Wired cfg σ) (drains : List ℕ)
    (hp : InRings (receiveAll cfg w drains σ) w p) :
    InRings σ w p ∨ p ∈ rxPrefix cfg w drains σ := by
  rcases hp with hp | hp
  · rw [receiveAll_qItems h] at hp
    exact Or.inl (Or.inl hp)
  · rw [receiveAll_myItems] at hp
    exact (Fifo.mem_enqueueBurst hp).imp_left Or.inr

/-- `transfer_r` brings no packets into the rings. -/
theorem transferR_inRings (hp : InRings (transferR cfg w σ) w p) : InRings σ w p := by
  by_cases hq : σ.qItems w = []
  · exact (transferR_desk hq).inRings.mp hp
  · obtain ⟨-, hq', hmine, -⟩ := @transferR_of_ne _ cfg _ _ hq
    rw [InRings, hq', hmine] at hp
    exact hp.symm

/-- `transfer_r` reads nothing from the NIC queue. -/
theorem transferR_rx : (transferR cfg w σ).rx w = σ.rx w := by
  by_cases hq : σ.qItems w = []
  · exact (transferR_desk hq).rx
  · exact (transferR_of_ne hq).2.2.2

variable [Double D]

section

variable (h : Wired cfg σ) (hw : w < cfg.W)

include h hw

/-- `transfer_offloading` brings no packets into the rings. -/
theorem transferOffloading_inRings (hp : InRings (transferOffloading cfg w σ) w p) :
    InRings σ w p := by
  have hp' : InRings (adopt w (takeBack cfg w (withdraw w σ))) w p := hp
  rw [adopt_desk.inRings] at hp'
  exact withdraw_desk.inRings.mp (takeBack_inRings (h.stage hw (.withdraw σ)) hp')

/-- `transfer_offloading` reads nothing from the NIC queue. -/
theorem transferOffloading_rx : (transferOffloading cfg w σ).rx w = σ.rx w := by
  refine adopt_desk.rx.trans ?_
  rw [takeBack_rx (h.stage hw (.withdraw σ)), withdraw_desk.rx]

/-- `transfer_shard` brings only packets into the rings that it has read. -/
theorem transferShard_inRings (drains : List ℕ)
    (hp : InRings (transferShard cfg w drains σ) w p) :
    InRings σ w p ∨ p ∈ rxPrefix cfg w drains σ := by
  have hwired := h.stage hw (.withdraw σ)
  rw [(transferShard_desk drains).inRings, collect, announce_desk.inRings] at hp
  have hp' := receiveAll_inRings hwired drains
    (takeBack_inRings (hwired.stage hw (.receiveAll _ drains)) hp)
  rw [withdraw_desk.inRings, rxPrefix_congr drains withdraw_desk.rx] at hp'
  exact hp'

/-- `transfer_shard` puts no packets into the NIC queue. -/
theorem transferShard_rx (drains : List ℕ) (hp : p ∈ (transferShard cfg w drains σ).rx w) :
    p ∈ σ.rx w := by
  have hwired := h.stage hw (.withdraw σ)
  rw [(transferShard_desk drains).rx, collect, announce_desk.rx,
    takeBack_rx (hwired.stage hw (.receiveAll _ drains)), receiveAll_rx, withdraw_desk.rx] at hp
  exact List.mem_of_mem_drop hp

/-! ## The signal -/

/-- Serving the first flag brings no packets into the rings. -/
theorem serveR_moves : (InRings (serveR cfg w σ) w p → InRings σ w p) ∧
    (serveR cfg w σ).rx w = σ.rx w ∧ Wired cfg (serveR cfg w σ) := by
  have hwired := ((transferR_serves h hw).opt (σ.transferR w) h).wired
  unfold serveR at hwired ⊢
  split
  · next ht =>
    rw [if_pos ht] at hwired
    exact ⟨transferR_inRings, transferR_rx, hwired⟩
  · exact ⟨id, rfl, h⟩

/-- Serving the first two flags brings no packets into the rings. -/
theorem beforeShard_moves : (InRings (beforeShard cfg w σ) w p → InRings σ w p) ∧
    (beforeShard cfg w σ).rx w = σ.rx w := by
  obtain ⟨hin, hrx, hwired⟩ := serveR_moves (p := p) h hw
  simp only [beforeShard, serveOffloading]
  split
  · exact ⟨fun hp => hin (transferOffloading_inRings hwired hw hp),
      (transferOffloading_rx hwired hw).trans hrx⟩
  · exact ⟨hin, hrx⟩

/-- The signal moves packets to the rings only from the NIC queue, and only if
`transfer_shard` is served. -/
theorem serveSignal_moves (drains : List ℕ) :
    (InRings (serveSignal cfg w drains σ) w p → InRings σ w p ∨
      (σ.controllerSignal w && σ.transferShard w) = true ∧ p ∈ rxPrefix cfg w drains σ) ∧
    (p ∈ (serveSignal cfg w drains σ).rx w → p ∈ σ.rx w) ∧
    ((σ.controllerSignal w && σ.transferShard w) = false →
      (serveSignal cfg w drains σ).rx w = σ.rx w) := by
  obtain ⟨hin, hrx⟩ := beforeShard_moves (p := p) h hw
  have hwired := (beforeShard_serves h hw).wired
  have hflag := (@beforeShard_kept _ cfg σ w).2
  simp only [serveSignal]
  cases σ.controllerSignal w with
  | false => exact ⟨Or.inl, id, fun _ => rfl⟩
  | true =>
    rw [if_pos rfl, Bool.true_and]
    have hsame : SameDesk w (serveShard cfg w drains (beforeShard cfg w σ))
        (signalBlock cfg w drains σ) := ⟨rfl, rfl, rfl, rfl⟩
    rw [hsame.inRings, hsame.rx]
    simp only [serveShard]
    rw [hflag]
    cases σ.transferShard w with
    | false => exact ⟨fun hp => Or.inl (hin hp), fun hp => by rwa [← hrx], fun _ => hrx⟩
    | true =>
      refine ⟨fun hp => ?_, fun hp => ?_, fun hno => by cases hno⟩
      · have hp' := transferShard_inRings hwired hw drains hp
        rw [rxPrefix_congr drains hrx] at hp'
        exact hp'.imp hin fun hp => ⟨rfl, hp⟩
      · rw [← hrx]
        exact transferShard_rx hwired hw drains hp

end

/-! ## The task

What is left is `run`: the batch it has received is either pushed or put into `q`, so every packet
in the rings afterwards was there before or has been taken.
-/

/-- Only packets of the batch are collected for the offloading core. -/
theorem mem_classify_off (w : ℕ) (epoch : UInt32) :
    ∀ (ps : List Packet) (shards : ℕ → ShardInfo D),
      p ∈ (classify cfg w epoch ps shards).2.2 → p ∈ ps := by
  intro ps
  induction ps with
  | nil => intro shards h; exact h
  | cons q ps ih =>
    intro shards h
    simp only [classify] at h
    split at h
    · rcases List.mem_cons.mp h with rfl | h
      · exact List.mem_cons_self ..
      · exact List.mem_cons_of_mem _ (ih _ h)
    · exact List.mem_cons_of_mem _ (ih _ h)

/-- `run` brings packets of its batch into `q`. -/
theorem forward_inRings (h : Wired cfg σ) (accept : ℕ) (batch : List Packet)
    (hp : InRings (forward cfg w accept batch σ).1 w p) : InRings σ w p ∨ p ∈ batch := by
  rcases hp with hp | hp
  · rw [forward_qItems] at hp
    exact (Fifo.mem_enqueueBurst hp).imp Or.inl (mem_classify_off w _ _ _)
  · rw [forward_myItems h] at hp
    exact Or.inl (Or.inr hp)

end WorkingCore

open WorkingCore

variable [Double D]

/-- The state in which a task receives. -/
def beforeReceive (cfg : Cfg) (w : ℕ) (inp : TaskInput) (σ : Sys D) : Sys D :=
  processChanges cfg w (serveSignal cfg w inp.drains σ)

theorem beforeReceive_wired (h : Wired cfg σ) (hw : w < cfg.W) (inp : TaskInput) :
    Wired cfg (beforeReceive cfg w inp σ) :=
  (serveSignal_serves h hw inp.drains).wired.stage hw (.processChanges _)

theorem beforeReceive_epoch (h : Wired cfg σ) (hw : w < cfg.W) (inp : TaskInput) :
    (beforeReceive cfg w inp σ).epoch = σ.epoch :=
  (Stage.inv (P := fun σ' => Wired cfg σ' ∧ σ'.epoch = σ.epoch)
    (fun _ _ hσ hs => ⟨hσ.1.stage hw hs, (hs.statics hσ.1).1.trans hσ.2⟩) ⟨h, rfl⟩
    (.tail (serveSignal_stages inp.drains) (.processChanges _))).2

/-- The batch a task classifies is part of what it takes. -/
theorem batch_taken (h : Wired cfg σ) (hw : w < cfg.W) (inp : TaskInput)
    (hm : (σ.worker w).myown = false) (hstrand : ¬ Strands cfg w σ)
    (hp : p ∈ processBatch cfg w inp.rx (beforeReceive cfg w inp σ)) : p ∈ taken cfg w inp σ := by
  have hs := serveSignal_serves h hw inp.drains
  have hown := Calm.afterProcess_myown h hw inp.drains hm hstrand
  obtain ⟨-, -, hrx⟩ := processChanges_desk (w := w) hs.wired
  obtain ⟨-, hsub, hsame⟩ := serveSignal_moves (p := p) h hw inp.drains
  rw [processBatch, beforeReceive, hown, hrx] at hp
  simp only [taken]
  rw [hm, if_neg Bool.false_ne_true]
  cases hraise : raises w σ with
  | true =>
    rw [hraise, if_pos rfl] at hp
    cases hp
  | false =>
    rw [hraise, if_neg Bool.false_ne_true] at hp
    by_cases hflag : (σ.controllerSignal w && σ.transferShard w) = true
    · -- nothing was raised, so the NIC queue is empty
      exfalso
      have hmem := hsub (List.mem_of_mem_take hp)
      simp only [Bool.and_eq_true] at hflag
      simp only [raises, hflag, Bool.true_and, Bool.or_eq_false_iff, decide_eq_false_iff_not,
        ne_eq, not_not] at hraise
      rw [hraise.2.1] at hmem
      cases hmem
    · rw [if_neg hflag, if_neg Bool.false_ne_true, ← hsame (Bool.eq_false_iff.mpr hflag)]
      exact hp

omit [Double D] in
/-- What a task takes was in the NIC queue. -/
theorem mem_taken {inp : TaskInput} (h : p ∈ taken cfg w inp σ) : p ∈ σ.rx w := by
  unfold taken at h
  split at h
  · cases h
  · split at h
    · exact mem_of_mem_rxPrefix _ h
    · split at h
      · cases h
      · exact List.mem_of_mem_take h

/-- **What a task does to the packets of its core.** -/
structure TaskMoves (cfg : Cfg) (w : ℕ) (inp : TaskInput) (σ : Sys D) : Prop where
  /-- the rings receive what the task takes -/
  rings : ∀ p, InRings (runTask cfg w inp σ).1 w p → InRings σ w p ∨ p ∈ taken cfg w inp σ
  /-- the NIC queue only loses packets -/
  rx : ∀ p ∈ (runTask cfg w inp σ).1.rx w, p ∈ σ.rx w
  /-- a looked-up packet waited in a ring or has been taken -/
  extracted : ∀ p ∈ (runTask cfg w inp σ).2.extracted, InRings σ w p ∨ p ∈ taken cfg w inp σ

/-- A core that finds its own ring empty. -/
theorem taskMoves_drained {inp : TaskInput} (hrun : runTask cfg w inp σ = (drained cfg w σ, {})) :
    TaskMoves cfg w inp σ := by
  refine ⟨fun p hp => ?_, fun p hp => ?_, fun p hp => ?_⟩
  · have hd : (drained cfg w σ).qItems w = σ.qItems w ∧
        (drained cfg w σ).myItems w = σ.myItems w := by
      simp [drained, Sys.setWorker, Sys.qItems, Sys.myItems]
    rw [hrun, InRings, hd.1, hd.2] at hp
    exact Or.inl hp
  · rw [hrun] at hp
    exact hp
  · rw [hrun] at hp
    cases hp

/-- A core that works off its own ring. -/
theorem taskMoves_workOff (h : Wired cfg σ) {inp : TaskInput}
    (hrun : runTask cfg w inp σ = workOff cfg w inp.accept σ) : TaskMoves cfg w inp σ := by
  refine ⟨fun p hp => ?_, fun p hp => ?_, fun p hp => ?_⟩
  · obtain ⟨n, hn⟩ := @workOff_myItems _ cfg σ w _ inp.accept
    rw [hrun, InRings, workOff_qItems h, hn] at hp
    exact Or.inl (hp.imp_right List.mem_of_mem_drop)
  · rw [hrun] at hp
    exact hp
  · rw [hrun] at hp
    exact Or.inl (Or.inr (List.mem_of_mem_take hp))

/-- A core that receives. -/
theorem taskMoves_receive (h : Wired cfg σ) (hw : w < cfg.W) {inp : TaskInput}
    (hm : (σ.worker w).myown = false) (hstrand : ¬ Strands cfg w σ) : TaskMoves cfg w inp σ := by
  have hrun : runTask cfg w inp σ = forward cfg w inp.accept
      (processBatch cfg w inp.rx (beforeReceive cfg w inp σ)) (beforeReceive cfg w inp σ) := by
    rw [runTask, hm, if_neg Bool.false_ne_true]
    rfl
  have hs := serveSignal_serves h hw inp.drains
  have hwired := beforeReceive_wired h hw inp
  obtain ⟨hq, hmine, hrx⟩ := processChanges_desk (w := w) hs.wired
  refine ⟨fun p hp => ?_, fun p hp => ?_, fun p hp => ?_⟩
  · rw [hrun] at hp
    rcases forward_inRings hwired inp.accept _ hp with hp | hp
    · rw [InRings, beforeReceive, hq, hmine] at hp
      refine ((serveSignal_moves h hw inp.drains).1 hp).imp_right fun hrx => ?_
      rw [taken, hm, if_neg Bool.false_ne_true, if_pos hrx.1]
      exact hrx.2
    · exact Or.inr (batch_taken h hw inp hm hstrand hp)
  · rw [hrun, forward_rx, beforeReceive, hrx] at hp
    exact (serveSignal_moves h hw inp.drains).2.1 (List.mem_of_mem_drop hp)
  · rw [hrun] at hp
    exact Or.inr (batch_taken h hw inp hm hstrand hp)

/-- **Where a task moves packets.** -/
theorem taskMoves (h : Wired cfg σ) (hw : w < cfg.W) (inp : TaskInput)
    (hstrand : ¬ Strands cfg w σ) : TaskMoves cfg w inp σ := by
  cases hm : (σ.worker w).myown with
  | true =>
    by_cases hc : (σ.ring (σ.worker w).myring).count = 0
    · exact taskMoves_drained (by rw [runTask, if_pos hm, if_pos hc])
    · exact taskMoves_workOff h (by rw [runTask, if_pos hm, if_neg hc])
  | false => exact taskMoves_receive h hw hm hstrand

end Fajita
