import Fajita.Epoch

/-!
# The desk of a working core

What a task does to the four things a working core decides by: `myown`, its two
rings and its NIC queue. The invariant is `Calm`: a core that is not working off
its own ring has nothing in it, and a core that is has nothing in `q`. The
transfer routines keep it; the `had_changes` branch of `process` does not
(`Calm.processChanges` has the exact proviso).

The second half says what a task does to the hand-over state: a signal releases
the shards of the core only when nothing was left to take back
(`serveSignal_cases`).
-/

namespace Fajita

variable {D : Type} {cfg : Cfg} {σ : Sys D} {w : ℕ}

open Function (update_self update_of_ne)

/-- A core that is not working off its own ring has nothing in it; a core that is
has nothing waiting for the offloading core. -/
structure Calm (w : ℕ) (σ : Sys D) : Prop where
  /-- nothing is stranded in `myring` -/
  mine : (σ.worker w).myown = false → σ.myItems w = []
  /-- nothing waits in `q` -/
  queue : (σ.worker w).myown = true → σ.qItems w = []

/-- Two states agree on the desk of core `w`. -/
structure SameDesk (w : ℕ) (σ σ' : Sys D) : Prop where
  /-- `myown` -/
  myown : (σ'.worker w).myown = (σ.worker w).myown
  /-- `q` -/
  q : σ'.qItems w = σ.qItems w
  /-- `myring` -/
  mine : σ'.myItems w = σ.myItems w
  /-- the NIC queue -/
  rx : σ'.rx w = σ.rx w

theorem SameDesk.refl (w : ℕ) (σ : Sys D) : SameDesk w σ σ := ⟨rfl, rfl, rfl, rfl⟩

theorem SameDesk.trans {σ₁ σ₂ σ₃ : Sys D} (h : SameDesk w σ₁ σ₂) (h' : SameDesk w σ₂ σ₃) :
    SameDesk w σ₁ σ₃ :=
  ⟨h'.myown.trans h.myown, h'.q.trans h.q, h'.mine.trans h.mine, h'.rx.trans h.rx⟩

/-- A core with the same desk is as calm. -/
theorem Calm.of_sameDesk {σ' : Sys D} (h : Calm w σ) (hd : SameDesk w σ σ') : Calm w σ' := by
  refine ⟨fun hm => ?_, fun hm => ?_⟩
  · rw [hd.mine]
    exact h.mine (by rw [← hd.myown, hm])
  · rw [hd.q]
    exact h.queue (by rw [← hd.myown, hm])

/-- A step of another core. -/
theorem SameDesk.of_localTo {v : ℕ} {σ' : Sys D} (h : Wired cfg σ) (hl : LocalTo w σ σ')
    (hv : v ≠ w) : SameDesk v σ σ' :=
  ⟨by rw [hl.worker v hv], hl.qItems hv (h.pair v), hl.myItems hv (h.pair v), hl.rx v hv⟩

namespace WorkingCore

/-! ## The pieces of the transfer routines

The routines are put together from a few pieces: requests to the offloading core, the exchange of
the rings, and the two loops that copy packets to `myring`. What each does to the desk of the core
is said once here.
-/

/-- Posting a removal moves no packets. -/
theorem withdraw_desk : SameDesk w σ (withdraw w σ) := by
  simp only [withdraw]
  split <;> exact ⟨rfl, rfl, rfl, rfl⟩

/-- `withdraw` leaves the buffers alone. -/
theorem withdraw_buffers : (withdraw w σ).worker = σ.worker ∧ (withdraw w σ).ring = σ.ring ∧
    (withdraw w σ).lost = σ.lost := by
  simp only [withdraw]
  split <;> exact ⟨rfl, rfl, rfl⟩

/-- Posting an addition moves no packets. -/
theorem announce_desk : SameDesk w σ (announce w σ) := by
  simp only [announce]
  split <;> exact ⟨rfl, rfl, rfl, rfl⟩

/-- Taking over the new offloading core moves no packets. -/
theorem adopt_desk : SameDesk w σ (adopt w σ) := by
  simp only [adopt]
  split
  · simp only [Sys.postAdd, Sys.setWorker]
    constructor <;> simp [Sys.qItems, Sys.myItems]
  · exact SameDesk.refl w σ

/-- Rings are exchanged only if packets wait in `q`. -/
theorem exchange_of_nil (hq : σ.qItems w = []) : exchange w σ = σ := by
  rw [exchange, if_neg (by rw [ne_eq, not_not, Fifo.count_eq_zero]; exact hq)]

/-- If packets wait in `q` the two rings change roles. -/
theorem exchange_of_ne (hq : σ.qItems w ≠ []) :
    ((exchange w σ).worker w).myown = true ∧ (exchange w σ).qItems w = σ.myItems w ∧
      (exchange w σ).myItems w = σ.qItems w ∧ (exchange w σ).rx w = σ.rx w := by
  rw [exchange, if_pos (by rw [ne_eq, Fifo.count_eq_zero]; exact hq)]
  simp [swapRings, Sys.postAdd, Sys.postRemove, Sys.setWorker, Sys.qItems, Sys.myItems]

/-- The core is to work off its ring if it has got packets back. -/
theorem takeBack_myown (h : Wired cfg σ) : ((takeBack cfg w σ).worker w).myown =
    ((σ.worker w).myown || decide (σ.qItems w ≠ [])) := by
  rw [takeBack_eq h]
  simp [Sys.setWorker]

/-- Taking packets back reads nothing from a NIC. -/
theorem takeBack_rx (h : Wired cfg σ) : (takeBack cfg w σ).rx = σ.rx := by
  rw [takeBack_eq h]
  rfl

/-- After the loop over `q` nothing waits in it. -/
theorem takeBack_qItems (h : Wired cfg σ) : (takeBack cfg w σ).qItems w = [] := by
  rw [takeBack_eq h]
  simp only [Sys.qItems, Sys.setWorker, update_self, poured]
  rw [update_of_ne (h.pair w).q_ne_myring, update_self, Fifo.clear_items]

/-- The packets of `q` go to the end of `myring`, as far as there is room. -/
theorem takeBack_myItems (h : Wired cfg σ) : (takeBack cfg w σ).myItems w =
    ((σ.ring (σ.worker w).myring).enqueueBurst (σ.qItems w)).items := by
  rw [takeBack_eq h]
  simp only [Sys.myItems, Sys.setWorker, update_self, poured]

/-- The core is to work off its ring if it has been to its NIC queue for packets. -/
theorem receiveAll_myown (drains : List ℕ) : ((receiveAll cfg w drains σ).worker w).myown =
    ((σ.worker w).myown || decide (σ.rx w ≠ [])) := by
  rw [receiveAll_eq]
  simp [Sys.setWorker]

/-- What the receive loop has read is gone from the NIC queue. -/
theorem receiveAll_rx (drains : List ℕ) : (receiveAll cfg w drains σ).rx w =
    (σ.rx w).drop (rxPrefix cfg w drains σ).length := by
  rw [receiveAll_eq]
  simp

/-- The receive loop does not touch `q`. -/
theorem receiveAll_qItems (h : Wired cfg σ) (drains : List ℕ) :
    (receiveAll cfg w drains σ).qItems w = σ.qItems w := by
  rw [receiveAll_eq]
  simp only [Sys.qItems, Sys.setWorker, update_self]
  rw [update_of_ne (h.pair w).q_ne_myring]

/-- What the receive loop has read goes to the end of `myring`, as far as there is room. -/
theorem receiveAll_myItems (drains : List ℕ) : (receiveAll cfg w drains σ).myItems w =
    ((σ.ring (σ.worker w).myring).enqueueBurst (rxPrefix cfg w drains σ)).items := by
  rw [receiveAll_eq]
  simp only [Sys.myItems, Sys.setWorker, update_self]

theorem rxPrefix_of_nil (drains : List ℕ) (hrx : σ.rx w = []) : rxPrefix cfg w drains σ = [] := by
  rw [rxPrefix, hrx, List.take_nil]

/-! ## The transfer routines -/

/-- Without packets in `q`, `transfer_r` moves none. -/
theorem transferR_desk (hq : σ.qItems w = []) : SameDesk w σ (transferR cfg w σ) := by
  have hx : transferR cfg w σ =
      { takeRatios cfg w σ with transferR := Function.update σ.transferR w false } := by
    rw [transferR, exchange_of_nil hq]
    rfl
  rw [hx]
  exact ⟨rfl, rfl, rfl, rfl⟩

/-- With packets in `q`, `transfer_r` exchanges the two rings, and the core is to work off the
packets. -/
theorem transferR_of_ne (hq : σ.qItems w ≠ []) :
    ((transferR cfg w σ).worker w).myown = true ∧ (transferR cfg w σ).qItems w = σ.myItems w ∧
      (transferR cfg w σ).myItems w = σ.qItems w ∧ (transferR cfg w σ).rx w = σ.rx w :=
  exchange_of_ne hq

/-- `transfer_shard` leaves the desk as the collection did. -/
theorem transferShard_desk (drains : List ℕ) :
    SameDesk w (collect cfg w drains σ) (transferShard cfg w drains σ) := by
  simp only [transferShard]
  split
  · exact ⟨rfl, rfl, rfl, rfl⟩
  · exact ⟨rfl, rfl, rfl, rfl⟩

variable [Double D]

section

variable (h : Wired cfg σ) (hw : w < cfg.W)

include h hw

/-- `transfer_offloading` leaves nothing in `q`. -/
theorem transferOffloading_qItems : (transferOffloading cfg w σ).qItems w = [] :=
  adopt_desk.q.trans (takeBack_qItems (h.stage hw (.withdraw σ)))

/-- After `transfer_offloading` the core is to work off its ring if there was something in `q`. -/
theorem transferOffloading_myown : ((transferOffloading cfg w σ).worker w).myown =
    ((σ.worker w).myown || decide (σ.qItems w ≠ [])) := by
  have hd := withdraw_desk (w := w) (σ := σ)
  refine adopt_desk.myown.trans ((takeBack_myown (h.stage hw (.withdraw σ))).trans ?_)
  rw [hd.myown, hd.q]

/-- `transfer_offloading` moves no packets if there are none in `q`. -/
theorem transferOffloading_desk (hq : σ.qItems w = []) :
    SameDesk w σ (transferOffloading cfg w σ) := by
  have hd := withdraw_desk (w := w) (σ := σ)
  have hwired := h.stage hw (.withdraw σ)
  refine ⟨?_, ?_, ?_, ?_⟩
  · rw [transferOffloading_myown h hw, hq]
    simp
  · rw [transferOffloading_qItems h hw, hq]
  · refine adopt_desk.mine.trans ((takeBack_myItems hwired).trans ?_)
    rw [hd.q, hq, Fifo.enqueueBurst_nil, ← Sys.myItems, hd.mine]
  · refine adopt_desk.rx.trans ?_
    rw [takeBack_rx hwired, hd.rx]

/-- `transfer_shard` leaves nothing in `q`. -/
theorem collect_qItems (drains : List ℕ) : (collect cfg w drains σ).qItems w = [] :=
  announce_desk.q.trans
    (takeBack_qItems ((h.stage hw (.withdraw σ)).stage hw (.receiveAll _ drains)))

/-- After `transfer_shard` the core is to work off its ring if there was something in `q` or in the
NIC queue. -/
theorem collect_myown (drains : List ℕ) : ((collect cfg w drains σ).worker w).myown =
    ((σ.worker w).myown || decide (σ.rx w ≠ []) || decide (σ.qItems w ≠ [])) := by
  have hd := withdraw_desk (w := w) (σ := σ)
  have hwired := h.stage hw (.withdraw σ)
  refine announce_desk.myown.trans
    ((takeBack_myown (hwired.stage hw (.receiveAll _ drains))).trans ?_)
  rw [receiveAll_myown, receiveAll_qItems hwired, hd.myown, hd.q, hd.rx]

/-- `transfer_shard` moves no packets if there are none in `q` and in the NIC queue. -/
theorem collect_desk (drains : List ℕ) (hrx : σ.rx w = []) (hq : σ.qItems w = []) :
    SameDesk w σ (collect cfg w drains σ) := by
  have hd := withdraw_desk (w := w) (σ := σ)
  have hwired := h.stage hw (.withdraw σ)
  have hwired' := hwired.stage hw (.receiveAll _ drains)
  have hnil : rxPrefix cfg w drains (withdraw w σ) = [] :=
    rxPrefix_of_nil drains (by rw [hd.rx, hrx])
  refine ⟨?_, ?_, ?_, ?_⟩
  · rw [collect_myown h hw, hrx, hq]
    simp
  · rw [collect_qItems h hw, hq]
  · refine announce_desk.mine.trans ((takeBack_myItems hwired').trans ?_)
    rw [receiveAll_qItems hwired, hd.q, hq, Fifo.enqueueBurst_nil, ← Sys.myItems,
      receiveAll_myItems, hnil, Fifo.enqueueBurst_nil, ← Sys.myItems, hd.mine]
  · refine announce_desk.rx.trans ?_
    rw [takeBack_rx hwired', receiveAll_rx, hnil, hd.rx]
    rfl

end

end WorkingCore

namespace Calm

open WorkingCore

variable [Double D]

omit [Double D] in
/-- `transfer_r` keeps a core calm: it takes packets back together with `myown`. -/
theorem transferR (hc : Calm w σ) : Calm w (transferR cfg w σ) := by
  by_cases hq : σ.qItems w = []
  · exact hc.of_sameDesk (transferR_desk hq)
  · obtain ⟨hown, hq', -, -⟩ := @transferR_of_ne _ cfg _ _ hq
    have hidle : (σ.worker w).myown = false :=
      Bool.eq_false_iff.mpr fun hm => hq (hc.queue hm)
    refine ⟨fun hm => ?_, fun _ => ?_⟩
    · rw [hown] at hm
      cases hm
    · rw [hq', hc.mine hidle]

/-- `transfer_offloading` keeps a core calm. -/
theorem transferOffloading (hc : Calm w σ) (h : Wired cfg σ) (hw : w < cfg.W) :
    Calm w (transferOffloading cfg w σ) := by
  refine ⟨fun hm => ?_, fun _ => transferOffloading_qItems h hw⟩
  rw [transferOffloading_myown h hw] at hm
  simp only [Bool.or_eq_false_iff, decide_eq_false_iff_not, not_not, ne_eq] at hm
  rw [(transferOffloading_desk h hw hm.2).mine]
  exact hc.mine hm.1

/-- `transfer_shard` keeps a core calm. -/
theorem transferShard (hc : Calm w σ) (h : Wired cfg σ) (hw : w < cfg.W) (drains : List ℕ) :
    Calm w (transferShard cfg w drains σ) := by
  refine Calm.of_sameDesk ⟨fun hm => ?_, fun _ => collect_qItems h hw drains⟩
    (transferShard_desk drains)
  rw [collect_myown h hw] at hm
  simp only [Bool.or_eq_false_iff, decide_eq_false_iff_not, not_not, ne_eq] at hm
  rw [(collect_desk h hw drains hm.1.2 hm.2).mine]
  exact hc.mine hm.1.1

end Calm

/-! ## The signal

`Kept` says that a piece releases no shard and gives no news, `Released` what the loop over the
shards does. Both can be put together with pieces that come before or behind.
-/

/-- Serving the signal will find something to take back. -/
def raises (w : ℕ) (σ : Sys D) : Bool :=
  σ.controllerSignal w &&
    (σ.transferR w && decide (σ.qItems w ≠ []) ||
      σ.transferOffloading w && decide (σ.qItems w ≠ []) ||
      σ.transferShard w && (decide (σ.rx w ≠ []) || decide (σ.qItems w ≠ [])))

/-- Shards of core `w` on their way are released, and their new owners told. -/
structure Released (cfg : Cfg) (w : ℕ) (σ σ' : Sys D) : Prop where
  /-- owners stay -/
  owner : ∀ s, (σ'.shards s).owner = (σ.shards s).owner
  /-- new owners stay -/
  ownerNew : ∀ s, (σ'.shards s).ownerNew = (σ.shards s).ownerNew
  /-- the pause of the shards on their way ends -/
  pause : ∀ s, (σ'.shards s).pause = true ↔ (σ.shards s).pause = true ∧
    ¬ (s < cfg.totalShards ∧ (σ.shards s).owner = w ∧ (σ.shards s).ownerNew ≠ uint32Max)
  /-- their new owners are told -/
  hadChanges : ∀ v, σ'.hadChanges v = true ↔ σ.hadChanges v = true ∨
    ∃ s < cfg.totalShards, ((σ.shards s).owner = w ∧ (σ.shards s).ownerNew ≠ uint32Max) ∧
      (σ.shards s).ownerNew = v

/-- The hand-over state and the news of it are left alone. -/
structure Kept (σ σ' : Sys D) : Prop where
  /-- the hand-over state -/
  handover : SameHandover σ σ'
  /-- `had_changes` -/
  hadChanges : σ'.hadChanges = σ.hadChanges

theorem Kept.refl (σ : Sys D) : Kept σ σ := ⟨.refl σ, rfl⟩

theorem Kept.trans {σ₁ σ₂ σ₃ : Sys D} (h : Kept σ₁ σ₂) (h' : Kept σ₂ σ₃) : Kept σ₁ σ₃ :=
  ⟨h.handover.trans h'.handover, h'.hadChanges.trans h.hadChanges⟩

/-- What has been kept depends on the shards and on the news only. -/
theorem Kept.congr {σ₁ σ₂ : Sys D} (h : Kept σ σ₁) (hs : σ₂.shards = σ₁.shards)
    (hc : σ₂.hadChanges = σ₁.hadChanges) : Kept σ σ₂ :=
  h.trans ⟨.of_shards hs, hc⟩

theorem Released.congr {σ₁ σ₂ : Sys D} (h : Released cfg w σ σ₁) (hs : σ₂.shards = σ₁.shards)
    (hc : σ₂.hadChanges = σ₁.hadChanges) : Released cfg w σ σ₂ where
  owner := by rw [hs]; exact h.owner
  ownerNew := by rw [hs]; exact h.ownerNew
  pause := by rw [hs]; exact h.pause
  hadChanges := by rw [hc]; exact h.hadChanges

theorem Released.of_kept {σ₁ σ₂ : Sys D} (h : Kept σ σ₁) (hr : Released cfg w σ₁ σ₂) :
    Released cfg w σ σ₂ where
  owner s := (hr.owner s).trans (h.handover.owner s)
  ownerNew s := (hr.ownerNew s).trans (h.handover.ownerNew s)
  pause s := by rw [hr.pause, h.handover.pause, h.handover.owner, h.handover.ownerNew]
  hadChanges v := by
    rw [hr.hadChanges, h.hadChanges]
    simp only [h.handover.owner, h.handover.ownerNew]

namespace WorkingCore

/-- **The loop over the shards releases** those that somebody waits for, and tells the cores. -/
theorem releaseAll_released : Released cfg w σ (releaseAll cfg w σ) := by
  obtain ⟨hshards, hchanges⟩ := @releaseAll_spec _ cfg σ w
  refine ⟨fun s => ?_, fun s => ?_, fun s => ?_, hchanges⟩
  all_goals
    rw [hshards]
    simp only [releasedShard]
    split_ifs with hs hrel <;> simp_all

theorem Repointed.kept {σ' : Sys D} (h : Repointed σ σ') : Kept σ σ' :=
  ⟨.of_shards h.shards, h.hadChanges⟩

theorem takeBack_kept : Kept σ (takeBack cfg w σ) := by
  simp only [takeBack]
  split <;> exact ⟨.of_shards rfl, rfl⟩

theorem receiveAll_kept (drains : List ℕ) : Kept σ (receiveAll cfg w drains σ) :=
  ⟨.of_shards rfl, rfl⟩

/-- `transfer_r` releases no shard. -/
theorem transferR_kept : Kept σ (transferR cfg w σ) := by
  have h : Kept σ (takeRatios cfg w (exchange w σ)) :=
    exchange_repointed.kept.trans ⟨takeRatios_sameHandover, rfl⟩
  exact h.congr rfl rfl

/-- `transfer_offloading` releases no shard. -/
theorem transferOffloading_kept : Kept σ (transferOffloading cfg w σ) := by
  have h : Kept σ (adopt w (takeBack cfg w (withdraw w σ))) :=
    withdraw_repointed.kept.trans (takeBack_kept.trans adopt_repointed.kept)
  exact h.congr rfl rfl

theorem collect_kept (drains : List ℕ) : Kept σ (collect cfg w drains σ) :=
  withdraw_repointed.kept.trans
    ((receiveAll_kept drains).trans (takeBack_kept.trans announce_repointed.kept))

/-! ### The flags of the three routines -/

/-- `transfer_r` leaves the other flags as they are. -/
theorem transferR_flags : (transferR cfg w σ).transferOffloading = σ.transferOffloading ∧
    (transferR cfg w σ).transferShard = σ.transferShard ∧
      (transferR cfg w σ).controllerSignal = σ.controllerSignal :=
  ⟨exchange_repointed.transferOffloading, exchange_repointed.transferShard,
    exchange_repointed.controllerSignal⟩

theorem takeBack_transferShard : (takeBack cfg w σ).transferShard = σ.transferShard := by
  simp only [takeBack]
  split <;> rfl

/-- `transfer_offloading` leaves the flag of `transfer_shard` as it is. -/
theorem transferOffloading_transferShard :
    (transferOffloading cfg w σ).transferShard = σ.transferShard :=
  adopt_repointed.transferShard.trans
    (takeBack_transferShard.trans withdraw_repointed.transferShard)

/-! ### Serving the signal

A signal block serves the flags one after the other. `Serves` says of a part of it what it leaves
behind if it has taken packets back, and if it has not; the parts add up.
-/

/-- `transfer_shard` releases the shards of the core if and only if it found
nothing to take back. -/
theorem transferShard_cases (drains : List ℕ) :
    (((transferShard cfg w drains σ).worker w).myown = true ∧
        Kept σ (transferShard cfg w drains σ)) ∨
      ((transferShard cfg w drains σ).worker w).myown = false ∧
        Released cfg w σ (transferShard cfg w drains σ) := by
  have hk : Kept σ (collect cfg w drains σ) := collect_kept drains
  rw [(transferShard_desk drains).myown]
  simp only [transferShard]
  by_cases hm : ((collect cfg w drains σ).worker w).myown = true
  · rw [if_pos hm]
    exact Or.inl ⟨hm, hk.congr rfl rfl⟩
  · have hr : Released cfg w σ (releaseAll cfg w (collect cfg w drains σ)) :=
      .of_kept hk releaseAll_released
    rw [if_neg hm]
    exact Or.inr ⟨Bool.eq_false_iff.mpr hm, hr.congr rfl rfl⟩

/-- A routine that is optional: it raises `myown` if `b` holds, and leaves the
desk alone if not. -/
structure Serves (cfg : Cfg) (w : ℕ) (b : Bool) (σ σ' : Sys D) : Prop where
  /-- the wiring is kept -/
  wired : Wired cfg σ'
  /-- `myown` -/
  myown : (σ'.worker w).myown = ((σ.worker w).myown || b)
  /-- without anything to take back nothing happens -/
  desk : b = false → SameDesk w σ σ'

theorem serves_skip (h : Wired cfg σ) : Serves cfg w false σ σ :=
  ⟨h, by rw [Bool.or_false], fun _ => SameDesk.refl w σ⟩

/-- One routine after another; `b'` is what the second would find in `σ`. -/
theorem Serves.trans {b b' b₁ : Bool} {σ₁ σ₂ : Sys D} (h : Serves cfg w b σ σ₁)
    (h' : Serves cfg w b₁ σ₁ σ₂) (hb : SameDesk w σ σ₁ → b₁ = b') :
    Serves cfg w (b || b') σ σ₂ := by
  refine ⟨h'.wired, ?_, fun hor => ?_⟩
  · cases hbb : b with
    | true => rw [h'.myown, h.myown, hbb, Bool.or_true, Bool.true_or, Bool.true_or, Bool.or_true]
    | false => rw [h'.myown, h.myown, hb (h.desk hbb), hbb, Bool.or_false, Bool.false_or]
  · rw [Bool.or_eq_false_iff] at hor
    have hd := h.desk hor.1
    exact hd.trans (h'.desk (by rw [hb hd, hor.2]))

/-- A routine behind a flag. -/
theorem Serves.opt {b : Bool} {σ' : Sys D} (c : Bool) (h : Wired cfg σ)
    (hs : Serves cfg w b σ σ') : Serves cfg w (c && b) σ (if c then σ' else σ) := by
  cases c with
  | true => exact hs
  | false => exact serves_skip h

/-- Serving the first flag releases no shard. -/
theorem serveR_kept : Kept σ (serveR cfg w σ) ∧
    (serveR cfg w σ).transferOffloading = σ.transferOffloading ∧
      (serveR cfg w σ).transferShard = σ.transferShard := by
  simp only [serveR]
  split
  · exact ⟨transferR_kept, transferR_flags.1, transferR_flags.2.1⟩
  · exact ⟨.refl σ, rfl, rfl⟩

/-- Serving the second flag releases no shard. -/
theorem serveOffloading_kept : Kept σ (serveOffloading cfg w σ) ∧
    (serveOffloading cfg w σ).transferShard = σ.transferShard := by
  simp only [serveOffloading]
  split
  · exact ⟨transferOffloading_kept, transferOffloading_transferShard⟩
  · exact ⟨.refl σ, rfl⟩

/-- The state in which the signal reaches `transfer_shard`. -/
def beforeShard (cfg : Cfg) (w : ℕ) (σ : Sys D) : Sys D := serveOffloading cfg w (serveR cfg w σ)

/-- What comes before `transfer_shard` in a signal block releases no shard. -/
theorem beforeShard_kept : Kept σ (beforeShard cfg w σ) ∧
    (beforeShard cfg w σ).transferShard = σ.transferShard :=
  ⟨serveR_kept.1.trans serveOffloading_kept.1,
    serveOffloading_kept.2.trans serveR_kept.2.2⟩

/-- The test of `transfer_shard`: the hand-over state is kept, or released
because there was nothing to take back. -/
theorem serveShard_cases (drains : List ℕ) :
    (Kept σ (serveShard cfg w drains σ) ∧
        ((serveShard cfg w drains σ).transferShard = σ.transferShard ∨
          ((serveShard cfg w drains σ).worker w).myown = true)) ∨
      σ.transferShard w = true ∧ ((serveShard cfg w drains σ).worker w).myown = false ∧
        Released cfg w σ (serveShard cfg w drains σ) := by
  simp only [serveShard]
  cases σ.transferShard w with
  | false => exact Or.inl ⟨.refl σ, Or.inl rfl⟩
  | true =>
    rcases @transferShard_cases _ cfg σ w drains with ⟨hm, hk⟩ | ⟨hm, hr⟩
    · exact Or.inl ⟨hk, Or.inr hm⟩
    · exact Or.inr ⟨rfl, hm, hr⟩

variable [Double D]

/-- `transfer_r`, as a part of a signal block. -/
theorem transferR_serves (h : Wired cfg σ) (hw : w < cfg.W) :
    Serves cfg w (decide (σ.qItems w ≠ [])) σ (transferR cfg w σ) := by
  refine ⟨?_, ?_, fun hb => transferR_desk (by simpa using hb)⟩
  · exact h.stages hw transferR_stages
  · by_cases hq : σ.qItems w = []
    · rw [(transferR_desk hq).myown, hq]
      simp
    · rw [(transferR_of_ne hq).1]
      simp [hq]

/-- `transfer_offloading`, as a part of a signal block. -/
theorem transferOffloading_serves (h : Wired cfg σ) (hw : w < cfg.W) :
    Serves cfg w (decide (σ.qItems w ≠ [])) σ (transferOffloading cfg w σ) :=
  ⟨h.stages hw transferOffloading_stages, transferOffloading_myown h hw,
    fun hb => transferOffloading_desk h hw (by simpa using hb)⟩

/-- `transfer_shard`, as a part of a signal block. -/
theorem transferShard_serves (h : Wired cfg σ) (hw : w < cfg.W) (drains : List ℕ) :
    Serves cfg w (decide (σ.rx w ≠ []) || decide (σ.qItems w ≠ [])) σ
      (transferShard cfg w drains σ) := by
  refine ⟨h.stages hw (transferShard_stages drains), ?_, ?_⟩
  · rw [(transferShard_desk drains).myown, collect_myown h hw, Bool.or_assoc]
  · intro hb
    simp only [Bool.or_eq_false_iff, decide_eq_false_iff_not, not_not, ne_eq] at hb
    exact (collect_desk h hw drains hb.1 hb.2).trans (transferShard_desk drains)

/-- The first two flags together, as a part of a signal block. -/
theorem beforeShard_serves (h : Wired cfg σ) (hw : w < cfg.W) :
    Serves cfg w (σ.transferR w && decide (σ.qItems w ≠ []) ||
      σ.transferOffloading w && decide (σ.qItems w ≠ [])) σ (beforeShard cfg w σ) := by
  have hR := (transferR_serves h hw).opt (σ.transferR w) h
  have hO := (transferOffloading_serves hR.wired hw).opt
    ((serveR cfg w σ).transferOffloading w) hR.wired
  refine hR.trans hO fun hd => ?_
  rw [serveR_kept.2.1, hd.q]

theorem serveShard_serves (h : Wired cfg σ) (hw : w < cfg.W) (drains : List ℕ) :
    Serves cfg w (σ.transferShard w && (decide (σ.rx w ≠ []) || decide (σ.qItems w ≠ []))) σ
      (serveShard cfg w drains σ) :=
  (transferShard_serves h hw drains).opt (σ.transferShard w) h

/-- What the three routines of the signal find and do to the desk. -/
theorem serveSignal_serves (h : Wired cfg σ) (hw : w < cfg.W) (drains : List ℕ) :
    Serves cfg w (raises w σ) σ (serveSignal cfg w drains σ) := by
  have hB := beforeShard_serves h hw
  have hall : Serves cfg w _ σ (serveShard cfg w drains (beforeShard cfg w σ)) :=
    hB.trans (serveShard_serves hB.wired hw drains) fun hd => by
      rw [beforeShard_kept.2, hd.q, hd.rx]
  simp only [serveSignal, raises]
  cases σ.controllerSignal w with
  | false => exact serves_skip h
  | true =>
    exact ⟨hall.wired.stage hw (.doneSignal _), hall.myown, fun hb =>
      ⟨(hall.desk hb).myown, (hall.desk hb).q, (hall.desk hb).mine, (hall.desk hb).rx⟩⟩

/-- **Serving the signal.** Either the hand-over state is kept, and then
`transfer_shard` is still to be served or the core has packets to work off; or
nothing was left to take back, and the shards of the core are released. -/
theorem serveSignal_cases (h : Wired cfg σ) (hw : w < cfg.W) (drains : List ℕ)
    (hm : (σ.worker w).myown = false) :
    Kept σ (serveSignal cfg w drains σ) ∧
        ((serveSignal cfg w drains σ).transferShard = σ.transferShard ∨ raises w σ = true) ∨
      Released cfg w σ (serveSignal cfg w drains σ) ∧ raises w σ = false ∧
        σ.rx w = [] ∧ σ.qItems w = [] := by
  have hown := (serveSignal_serves h hw drains).myown
  obtain ⟨hkept, hflag⟩ := @beforeShard_kept _ cfg σ w
  unfold serveSignal at hown ⊢
  cases hsig : σ.controllerSignal w with
  | false => exact Or.inl ⟨.refl σ, Or.inl rfl⟩
  | true =>
    rw [hsig, if_pos rfl, hm, Bool.false_or] at hown
    change ((serveShard cfg w drains (beforeShard cfg w σ)).worker w).myown = raises w σ at hown
    rw [if_pos rfl]
    rcases @serveShard_cases _ cfg (beforeShard cfg w σ) w drains with
      ⟨hk, hf⟩ | ⟨ht, hmy, hr⟩
    · refine Or.inl ⟨(hkept.trans hk).congr rfl rfl, ?_⟩
      rcases hf with hf | hmy
      · exact Or.inl (hf.trans hflag)
      · exact Or.inr (hown.symm.trans hmy)
    · rw [hmy] at hown
      rw [hflag] at ht
      refine Or.inr ⟨(Released.of_kept hkept hr).congr rfl rfl, hown.symm, ?_⟩
      have hno := hown.symm
      simp only [raises, hsig, ht, Bool.true_and, Bool.or_eq_false_iff, decide_eq_false_iff_not,
        ne_eq, not_not] at hno
      exact hno.2

end WorkingCore
end Fajita
