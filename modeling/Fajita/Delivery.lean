import Fajita.Counting
import Fajita.Ledger
import Fajita.Rest
import Fajita.Turns

/-!
# Every packet leaves the router

A packet that has arrived waits in the NIC queue of its core, then in `q` or in `myring`. Nothing
there can hold it for ever, whatever the controller asks for meanwhile (`every_packet_leaves`):

* the NIC queue is read at the latest after `myring` has been worked off twice (`read_by_core`);
* `q` is polled by the offloading core, or taken back (`Waits.leaves`);
* what is in `myring` is pushed by the next tasks (`worked_off`).

A packet that waits nowhere has been sent, or a queue or a driver had no room for it, since the
accounts are in balance.
-/

namespace Fajita

variable {D : Type} {cfg : Cfg} {σ σ' : Sys D} {v w : ℕ} {p : Packet}

open WorkingCore

/-! ## The NIC queue

A packet in a NIC queue comes nearer to the front with every task that reads from it. With drivers
that hand out what waits, the tasks that do not read are those that work off the ring of the core,
and there is a bound on these.
-/

/-- The drivers hand out at least one of the buffers that wait. -/
def TaskInput.ready (inp : TaskInput) : Bool := 0 < inp.rx ∧ 0 < inp.drains.headD 0

namespace WorkingCore

/-- If the driver hands out what is there, a task reads something from a NIC queue that is not
empty. -/
theorem rxPrefix_ne_nil {drains : List ℕ} (hburst : 0 < cfg.burst w)
    (hready : 0 < drains.headD 0) (hrx : σ.rx w ≠ []) : rxPrefix cfg w drains σ ≠ [] := by
  cases drains with
  | nil => exact absurd hready (Nat.lt_irrefl 0)
  | cons ready drains =>
    have hlen := List.length_pos_iff.mpr hrx
    have hn : 0 < (rxBurst (cfg.burst w) ready (σ.rx w)).length := by
      rw [rxBurst, List.length_take]
      exact lt_min (lt_min hready hburst) hlen
    rw [rxPrefix, ← List.length_pos_iff, List.length_take, rxTaken,
      if_neg (by rw [rxCount_eq_zero]; exact not_or.mpr ⟨hrx, Nat.ne_of_gt hn⟩)]
    exact lt_min (Nat.add_pos_left hn _) hlen

variable [Double D] (h : Wired cfg σ) (hw : w < cfg.W)

include h hw

/-- Serving the signal reads from the NIC queue only in `transfer_shard`. -/
theorem serveSignal_rx (drains : List ℕ) : (serveSignal cfg w drains σ).rx w =
    if σ.controllerSignal w && σ.transferShard w then
      (σ.rx w).drop (rxPrefix cfg w drains σ).length
    else σ.rx w := by
  cases hflag : σ.controllerSignal w && σ.transferShard w with
  | false => exact (serveSignal_moves (p := Small.packet 0 0) h hw drains).2.2 hflag
  | true =>
    obtain ⟨hsignal, hshard⟩ := Bool.and_eq_true_iff.mp hflag
    have hrx := (beforeShard_moves (p := Small.packet 0 0) h hw).2
    have hwired := (beforeShard_serves h hw).wired.stage hw (.withdraw _)
    rw [serveSignal, if_pos hsignal, if_pos rfl]
    change (serveShard cfg w drains (beforeShard cfg w σ)).rx w = _
    rw [serveShard, (@beforeShard_kept _ cfg σ w).2, if_pos hshard, (transferShard_desk drains).rx,
      collect, announce_desk.rx, takeBack_rx (hwired.stage hw (.receiveAll _ drains)),
      receiveAll_rx, withdraw_desk.rx, rxPrefix_congr drains withdraw_desk.rx,
      rxPrefix_congr drains hrx, hrx]

/-- **What a task leaves in the NIC queue.** -/
theorem runTask_rx (inp : TaskInput) (hstrand : ¬ Strands cfg w σ) :
    (runTask cfg w inp σ).1.rx w = (σ.rx w).drop (taken cfg w inp σ).length := by
  cases hm : (σ.worker w).myown with
  | true =>
    rw [runTask, taken, if_pos hm, if_pos hm]
    split <;> rfl
  | false =>
    have hs := serveSignal_serves h hw inp.drains
    have hown := Calm.afterProcess_myown h hw inp.drains hm hstrand
    obtain ⟨-, -, hrx⟩ := processChanges_desk (w := w) hs.wired
    have hserved := serveSignal_rx h hw inp.drains
    have hnot : ¬ (σ.worker w).myown = true := by rw [hm]; exact Bool.false_ne_true
    rw [runTask, if_neg hnot, forward_rx, processBatch, hown, hrx, hserved, taken, if_neg hnot]
    cases hflag : σ.controllerSignal w && σ.transferShard w with
    | false => cases raises w σ <;> rfl
    | true =>
      cases hraise : raises w σ with
      | true => rfl
      | false =>
        -- nothing was raised, so the NIC queue is empty
        obtain ⟨hsignal, hshard⟩ := Bool.and_eq_true_iff.mp hflag
        have hnil : σ.rx w = [] := by
          simp only [raises, hsignal, hshard, Bool.true_and, Bool.or_eq_false_iff,
            decide_eq_false_iff_not, ne_eq, not_not] at hraise
          exact hraise.2.1
        simp [hnil, rxBurst]

omit [Double D] h hw in
/-- A task that is not held up by packets in `q` reads the NIC queue. -/
theorem taken_or_raises {inp : TaskInput} (hburst : 0 < cfg.burst w) (hready : inp.ready = true)
    (hm : (σ.worker w).myown = false) (hrx : σ.rx w ≠ []) :
    taken cfg w inp σ ≠ [] ∨
      taken cfg w inp σ = [] ∧ raises w σ = true ∧ σ.qItems w ≠ [] := by
  obtain ⟨hrx₀, hdrains⟩ := of_decide_eq_true hready
  rw [taken, if_neg (by rw [hm]; exact Bool.false_ne_true)]
  cases hflag : σ.controllerSignal w && σ.transferShard w with
  | true => exact Or.inl (rxPrefix_ne_nil hburst hdrains hrx)
  | false =>
    cases hraise : raises w σ with
    | true =>
      refine Or.inr ⟨rfl, rfl, fun hq => ?_⟩
      obtain ⟨hsignal, hwhat⟩ := Bool.and_eq_true_iff.mp hraise
      rw [hsignal, Bool.true_and] at hflag
      simp [hq, hflag] at hwhat
    | false =>
      refine Or.inl (List.length_pos_iff.mp ?_)
      simp only [Bool.false_eq_true, if_false, rxBurst, List.length_take]
      exact lt_min (lt_min hrx₀ hburst) (List.length_pos_iff.mpr hrx)

end WorkingCore

section

/-- How many tasks core `w` needs at most until the packet is gone from its NIC queue: each packet
up to it may cost a round of work on `myring`, after a task that takes back what is in `q`. -/
def toRead (cfg : Cfg) (p : Packet) (w : ℕ) (σ : Sys D) : ℕ :=
  depth p (σ.rx w) * (fullRounds cfg w + 3) +
    if (σ.worker w).myown then toWorkOff cfg w σ
    else if σ.qItems w = [] then 0 else fullRounds cfg w + 2

/-- The measure is bounded by the place of the packet in the queue. -/
theorem toRead_lt (h : Sized σ) (p : Packet) (w : ℕ) :
    toRead cfg p w σ < (depth p (σ.rx w) + 1) * (fullRounds cfg w + 3) := by
  have hle := @toWorkOff_le _ cfg σ h w
  rw [toRead, Nat.succ_mul]
  split_ifs <;> omega

variable [Double D]

/-- **A task of the core** brings the packet closer to being read. -/
theorem read_closer (hs : Steady cfg σ) (hw : w < cfg.W) (hburst : 0 < cfg.burst w)
    {inp : TaskInput} (hready : inp.ready = true) (hstrand : ¬ Strands cfg w σ)
    (hp : p ∈ σ.rx w) (hp' : p ∈ (runTask cfg w inp σ).1.rx w) :
    toRead cfg p w (runTask cfg w inp σ).1 < toRead cfg p w σ := by
  have hrx := runTask_rx hs.wired hw inp hstrand
  cases hm : (σ.worker w).myown with
  | true =>
    have hnone : taken cfg w inp σ = [] := by rw [taken, if_pos hm]
    rw [hnone, List.length_nil, List.drop_zero] at hrx
    rw [toRead, toRead, hrx, if_pos hm]
    refine Nat.add_lt_add_left ?_ _
    obtain ⟨hworker, hless⟩ | hdrained := runTask_toWorkOff hs.wired hm inp
    · rw [hworker, if_pos hm]
      exact hless
    · have hoff : ((drained cfg w σ).worker w).myown = false := by simp [drained, Sys.setWorker]
      have hq : (drained cfg w σ).qItems w = [] := by
        rw [← (hs.calm w).queue hm]
        simp [drained, Sys.setWorker, Sys.qItems]
      rw [hdrained, if_neg (by rw [hoff]; exact Bool.false_ne_true), if_pos hq]
      exact Nat.succ_pos _
  | false =>
    have hsize : Sized (step cfg σ (.work w inp)) := Sized.step hs.wired hs.sized hw
    have hnot : ¬ (σ.worker w).myown = true := by rw [hm]; exact Bool.false_ne_true
    obtain hsome | ⟨hnone, hraise, hq⟩ :=
      taken_or_raises hburst hready hm (List.ne_nil_of_mem hp)
    · -- a packet before this one, or the packet itself, has been read
      have hdepth : depth p ((runTask cfg w inp σ).1.rx w) + 1 ≤ depth p (σ.rx w) := by
        have hpos : 0 < depth p ((runTask cfg w inp σ).1.rx w) :=
          Nat.pos_of_ne_zero fun h0 => depth_eq_zero_iff.mp h0 hp'
        have hlen := List.length_pos_iff.mpr hsome
        rw [hrx, depth_drop] at hpos ⊢
        omega
      calc toRead cfg p w (runTask cfg w inp σ).1
          < (depth p ((runTask cfg w inp σ).1.rx w) + 1) * (fullRounds cfg w + 3) :=
            toRead_lt hsize p w
        _ ≤ depth p (σ.rx w) * (fullRounds cfg w + 3) := Nat.mul_le_mul_right _ hdepth
        _ ≤ toRead cfg p w σ := Nat.le_add_right ..
    · -- what was in `q` has been taken back, and `q` is empty
      have hle : toWorkOff cfg w (runTask cfg w inp σ).1 ≤ fullRounds cfg w + 1 :=
        toWorkOff_le hsize w
      rw [hnone, List.length_nil, List.drop_zero] at hrx
      rw [toRead, toRead, hrx, if_neg hnot, if_neg hq,
        runTask_myown hs.wired hw inp hm hstrand, if_pos hraise]
      omega

/-- A step that is no task of core `w` takes packets off its rings at most. -/
theorem apart_rings (h : Wired cfg σ) {a : Act D} (ha : Possible cfg σ a)
    (hmine : a.isTaskOf w = false) :
    (∃ n, (step cfg σ a).qItems w = (σ.qItems w).drop n) ∧
      ∃ n, (step cfg σ a).myItems w = (σ.myItems w).drop n := by
  cases a with
  | arrive p => exact ⟨⟨0, rfl⟩, 0, rfl⟩
  | epoch ans vec =>
    have hf := Controller.updateShortEpoch_frame cfg σ ans vec
    refine ⟨⟨0, ?_⟩, 0, ?_⟩
    · rw [step, Sys.qItems, hf.worker, hf.traffic.ring, List.drop_zero, Sys.qItems]
    · rw [step, Sys.myItems, hf.worker, hf.traffic.ring, List.drop_zero, Sys.myItems]
  | work v inp =>
    have hv : w ≠ v := fun h => of_decide_eq_false hmine h.symm
    have hd := SameDesk.of_localTo h (h.runTask_localTo ha inp) hv
    exact ⟨⟨0, hd.q⟩, 0, hd.mine⟩
  | offload e accept =>
    obtain ⟨core, ring, transmitted, lost, heq, hring⟩ := OffloadingCore.runTask_eq cfg e accept σ
    rw [step, heq]
    exact ⟨hring _, hring _⟩

/-- A step of another party puts packets behind those in the NIC queue at most. -/
theorem apart_rx (h : Wired cfg σ) {a : Act D} (ha : Possible cfg σ a)
    (hmine : a.isTaskOf w = false) (honce : a ≠ .arrive p) :
    ∃ new, p ∉ new ∧ (step cfg σ a).rx w = σ.rx w ++ new := by
  cases a with
  | arrive p' =>
    have hne : p ∉ [p'] := fun hmem => honce (by rw [List.mem_singleton.mp hmem])
    rw [step, arrive_rx]
    split
    · exact ⟨[p'], hne, rfl⟩
    · exact ⟨[], List.not_mem_nil, (List.append_nil _).symm⟩
  | epoch ans vec =>
    refine ⟨[], List.not_mem_nil, ?_⟩
    rw [step, (Controller.updateShortEpoch_frame cfg σ ans vec).traffic.rx, List.append_nil]
  | work v inp =>
    have hv : w ≠ v := fun h => of_decide_eq_false hmine h.symm
    refine ⟨[], List.not_mem_nil, ?_⟩
    rw [step, (h.runTask_localTo ha inp).rx w hv, List.append_nil]
  | offload e accept =>
    obtain ⟨core, ring, transmitted, lost, heq, -⟩ := OffloadingCore.runTask_eq cfg e accept σ
    rw [step, heq]
    exact ⟨[], List.not_mem_nil, (List.append_nil _).symm⟩

/-- No other step puts the packet off. -/
theorem read_no_further (hs : Steady cfg σ) {a : Act D} (ha : Possible cfg σ a)
    (hmine : a.isTaskOf w = false) (honce : a ≠ .arrive p) :
    toRead cfg p w (step cfg σ a) ≤ toRead cfg p w σ := by
  have hap := apart_step hs ha hmine
  obtain ⟨⟨n, hq⟩, -⟩ := apart_rings hs.wired ha hmine
  obtain ⟨new, hnew, hrx⟩ := apart_rx hs.wired ha hmine honce
  rw [toRead, toRead, hrx, depth_append hnew, hap.worker, hq]
  refine Nat.add_le_add_left ?_ _
  split
  · exact Nat.succ_le_succ (rounds_mono _ hap.mine)
  · by_cases hnil : σ.qItems w = []
    · rw [hnil, List.drop_nil]
    · rw [if_neg hnil]
      split
      · exact Nat.zero_le _
      · exact Nat.le_refl _

/-- A label with ready drivers. -/
def Act.ready : Act D → Bool
  | .work _ inp => inp.ready
  | _ => true

/-- **The NIC queue is read**: after so many tasks of its core, in which the drivers hand out what
is there, a packet is not in it any more, whatever the controller asks for meanwhile. -/
theorem read_by_core {acts : List (Act D)} (hs : Steady cfg σ) (hw : w < cfg.W)
    (hburst : 0 < cfg.burst w)
    (hC : Along (step cfg) (fun σ a => (Possible cfg σ a ∧ NoStrand cfg σ a) ∧
      a ≠ .arrive p ∧ a.ready = true) σ acts)
    (hmany : ((σ.rx w).length + 1) * (fullRounds cfg w + 3) ≤ acts.countP (Act.isTaskOf w)) :
    p ∉ (runFrom (step cfg) σ acts).rx w := by
  have hkeep : ∀ (σ : Sys D) a, Steady cfg σ → ((Possible cfg σ a ∧ NoStrand cfg σ a) ∧
      a ≠ .arrive p ∧ a.ready = true) → Steady cfg (step cfg σ a) := fun _ _ hs ha => hs.step ha.1
  refine Meets.kept (G := fun σ => p ∉ σ.rx w) hkeep
    (fun _ _ hs ha hp => not_mem_rx_step hs.wired ha.1 ha.2.1 hp) hs hC ?_
  by_cases hp : p ∈ σ.rx w
  · refine .of_rank (P := fun σ => p ∈ σ.rx w) (Act.isTaskOf w) (toRead cfg p w) hkeep ?_ ?_ hs hp
      hC ?_
    · rintro σ a hs ⟨ha, -, hready⟩ hp hmine
      by_cases hstay : p ∈ (step cfg σ a).rx w
      · cases a with
        | work v inp =>
          obtain rfl : v = w := of_decide_eq_true hmine
          exact Or.inr ⟨hstay, read_closer hs hw hburst hready ha.2 hp hstay⟩
        | arrive | epoch | offload => cases hmine
      · exact Or.inl hstay
    · rintro σ a hs ⟨ha, honce, -⟩ - hmine
      by_cases hstay : p ∈ (step cfg σ a).rx w
      · exact Or.inr ⟨hstay, read_no_further hs ha.1 hmine honce⟩
      · exact Or.inl hstay
    · calc toRead cfg p w σ
          < (depth p (σ.rx w) + 1) * (fullRounds cfg w + 3) := toRead_lt hs.sized p w
        _ ≤ ((σ.rx w).length + 1) * (fullRounds cfg w + 3) :=
          Nat.mul_le_mul_right _ (Nat.succ_le_succ (depth_le ..))
        _ ≤ _ := hmany
  · exact .now hp

/-! ## The rings

From the NIC queue a packet is pushed, or put into `q`. In `q` it waits until its offloading core
polls the ring, and `Turns` says how long that takes.
-/

/-- The tasks of its offloading core in which the ring of core `w` is polled. -/
def pollRound (cfg : Cfg) (w : ℕ) : ℕ :=
  2 * (users cfg (Init.offloadingFromWorking cfg w)).card *
    (users cfg (Init.offloadingFromWorking cfg w)).card

/-- A packet that is neither in the NIC queue nor in `q` does not come to `q`. -/
theorem not_mem_q_step (h : Wired cfg σ) (hc : Calm w σ) {a : Act D}
    (ha : Possible cfg σ a ∧ NoStrand cfg σ a) (hrx : p ∉ σ.rx w) (hq : p ∉ σ.qItems w) :
    p ∉ (step cfg σ a).qItems w := by
  intro hmem
  cases hmine : a.isTaskOf w with
  | false =>
    obtain ⟨⟨n, hn⟩, -⟩ := apart_rings h ha.1 hmine
    rw [hn] at hmem
    exact hq (List.mem_of_mem_drop hmem)
  | true =>
    cases a with
    | arrive | epoch | offload => cases hmine
    | work v inp =>
      obtain rfl : v = w := of_decide_eq_true hmine
      cases hm : (σ.worker v).myown with
      | true =>
        have hsame : (step cfg σ (.work v inp)).qItems v = σ.qItems v := by
          rw [step, runTask, if_pos hm]
          split
          · simp [drained, Sys.setWorker, Sys.qItems]
          · exact workOff_qItems h inp.accept
        rw [hsame] at hmem
        exact hq hmem
      | false =>
        rcases (taskMoves h ha.1 inp ha.2).rings p (Or.inl hmem) with (hin | hin) | hin
        · exact hq hin
        · rw [hc.mine hm] at hin
          cases hin
        · exact hrx (mem_taken hin)

/-- A packet that does not wait at a core does not come to its rings. -/
theorem not_inRings_step (h : Wired cfg σ) {a : Act D} (ha : Possible cfg σ a ∧ NoStrand cfg σ a)
    (hrx : p ∉ σ.rx w) (hp : ¬ InRings σ w p) : ¬ InRings (step cfg σ a) w p := by
  intro hin
  cases hmine : a.isTaskOf w with
  | false =>
    obtain ⟨⟨n, hn⟩, m, hm⟩ := apart_rings h ha.1 hmine
    rw [InRings, hn, hm] at hin
    exact hp (hin.imp List.mem_of_mem_drop List.mem_of_mem_drop)
  | true =>
    cases a with
    | arrive | epoch | offload => cases hmine
    | work v inp =>
      obtain rfl : v = w := of_decide_eq_true hmine
      rcases (taskMoves h ha.1 inp ha.2).rings p hin with hin | hin
      · exact hp hin
      · exact hrx (mem_taken hin)

/-- **`myring` is worked off**: after so many tasks of its core, a packet that is in neither of the
queues before it waits nowhere at the core. -/
theorem worked_off {acts : List (Act D)} (hs : Steady cfg σ) (hrx : p ∉ σ.rx w)
    (hq : p ∉ σ.qItems w)
    (hC : Along (step cfg) (fun σ a => (Possible cfg σ a ∧ NoStrand cfg σ a) ∧ a ≠ .arrive p) σ
      acts)
    (hmany : fullRounds cfg w + 2 ≤ acts.countP (Act.isTaskOf w)) :
    p ∉ (runFrom (step cfg) σ acts).rx w ∧ ¬ InRings (runFrom (step cfg) σ acts) w p := by
  have hkeep : ∀ (σ : Sys D) a, (Steady cfg σ ∧ p ∉ σ.rx w ∧ p ∉ σ.qItems w) →
      ((Possible cfg σ a ∧ NoStrand cfg σ a) ∧ a ≠ .arrive p) →
      Steady cfg (step cfg σ a) ∧ p ∉ (step cfg σ a).rx w ∧ p ∉ (step cfg σ a).qItems w :=
    fun _ _ ⟨hs, hrx, hq⟩ ha => ⟨hs.step ha.1, not_mem_rx_step hs.wired ha.1 ha.2 hrx,
      not_mem_q_step hs.wired (hs.calm w) ha.1 hrx hq⟩
  have hend := hC.inv hkeep ⟨hs, hrx, hq⟩
  refine ⟨hend.2.1, Meets.kept (G := fun σ => ¬ InRings σ w p) hkeep
    (fun _ _ h ha hp => not_inRings_step h.1.wired ha.1 h.2.1 hp) ⟨hs, hrx, hq⟩ hC ?_⟩
  by_cases hp : p ∈ σ.myItems w
  · refine .of_rank (P := fun σ => p ∈ σ.myItems w) (Act.isTaskOf w) (toWorkOff cfg w) hkeep ?_ ?_
      ⟨hs, hrx, hq⟩ hp hC (lt_of_lt_of_le (Nat.lt_succ_of_le (toWorkOff_le hs.sized w)) hmany)
    · rintro σ a ⟨hs, hrx, hq⟩ ⟨ha, -⟩ hp hmine
      by_cases hstay : InRings (step cfg σ a) w p
      · right
        cases a with
        | work v inp =>
          obtain rfl : v = w := of_decide_eq_true hmine
          have hm : (σ.worker v).myown = true := by
            refine Bool.eq_true_of_not_eq_false fun hm => ?_
            rw [(hs.calm v).mine hm] at hp
            cases hp
          exact ⟨hstay.resolve_left (not_mem_q_step hs.wired (hs.calm v) ha hrx hq),
            (runTask_worksOff hs.wired hm (List.ne_nil_of_mem hp) inp).2⟩
        | arrive | epoch | offload => cases hmine
      · exact Or.inl hstay
    · rintro σ a ⟨hs, hrx, hq⟩ ⟨ha, -⟩ - hmine
      by_cases hstay : InRings (step cfg σ a) w p
      · exact Or.inr ⟨hstay.resolve_left (not_mem_q_step hs.wired (hs.calm w) ha hrx hq),
          Nat.succ_le_succ (rounds_mono _ (apart_step hs ha.1 hmine).mine)⟩
      · exact Or.inl hstay
  · exact .now (not_or.mpr ⟨hq, hp⟩)

end

/-! ## What has arrived

To say that a packet has gone somewhere one has to count packets: `Arrived` says that what has
arrived is, as a multiset, what waits in the NIC queues and what has been received, and `Accounted`
that what has been received is in the rings, has been sent or is lost.
-/

theorem arrivals_cons (a : Act D) (acts : List (Act D)) :
    arrivals (a :: acts) = arrivals [a] ++ arrivals acts := by
  cases a <;> rfl

/-- The arrivals of a run, and then of another. -/
theorem arrivals_append (acts acts' : List (Act D)) :
    arrivals (acts ++ acts') = arrivals acts ++ arrivals acts' := by
  induction acts with
  | nil => rfl
  | cons a acts ih =>
    rw [List.cons_append, arrivals_cons, ih, ← List.append_assoc, ← arrivals_cons]

/-- A packet that has arrived has arrived in some step. -/
theorem arrive_mem {acts : List (Act D)} (hp : p ∈ arrivals acts) : .arrive p ∈ acts := by
  induction acts with
  | nil => cases hp
  | cons a acts ih =>
    cases a with
    | arrive p' =>
      obtain rfl | hp := List.mem_cons.mp hp
      · exact List.mem_cons_self ..
      · exact List.mem_cons_of_mem _ (ih hp)
    | epoch | work | offload => exact List.mem_cons_of_mem _ (ih hp)

/-- What waits in the NIC queues of the working cores. -/
def nicItems (cfg : Cfg) (rx : ℕ → List Packet) : Multiset Packet :=
  ∑ w ∈ Finset.range cfg.W, ↑(rx w)

/-- Exchanging the contents of one NIC queue. -/
theorem nicItems_update (rx : ℕ → List Packet) (hw : w < cfg.W) (xs : List Packet) :
    nicItems cfg (Function.update rx w xs) + ↑(rx w) = nicItems cfg rx + ↑xs := by
  have hother : ∀ v ∈ (Finset.range cfg.W).erase w,
      (↑(Function.update rx w xs v) : Multiset Packet) = ↑(rx v) := fun v hv => by
    rw [Function.update_of_ne (Finset.mem_erase.mp hv).1]
  rw [nicItems, nicItems, ← Finset.add_sum_erase _ _ (Finset.mem_range.mpr hw),
    ← Finset.add_sum_erase _ (fun w => (↑(rx w) : Multiset Packet)) (Finset.mem_range.mpr hw),
    Finset.sum_congr rfl hother, Function.update_self]
  abel

/-- What has arrived waits in a NIC queue or has been handed out. -/
def Arrived (cfg : Cfg) (ps : List Packet) (σ : Sys D) : Prop :=
  (↑ps : Multiset Packet) = nicItems cfg σ.rx + ↑σ.received

namespace Arrived

variable {ps : List Packet}

/-- What is read from a NIC queue is handed out. -/
theorem of_read (h : Arrived cfg ps σ) (hw : w < cfg.W) (new : List Packet)
    (hread : new ++ (σ.rx w).drop new.length = σ.rx w)
    (hrx : σ'.rx = Function.update σ.rx w ((σ.rx w).drop new.length))
    (hreceived : σ'.received = σ.received ++ new) : Arrived cfg ps σ' := by
  have hupdate := nicItems_update σ.rx hw ((σ.rx w).drop new.length)
  rw [← hrx] at hupdate
  have hsplit : (↑(σ.rx w) : Multiset Packet) = ↑new + ↑((σ.rx w).drop new.length) := by
    rw [Multiset.coe_add, hread]
  rw [Arrived, h, hreceived, ← Multiset.coe_add]
  refine add_right_cancel (b := (↑(σ.rx w) : Multiset Packet)) ?_
  calc nicItems cfg σ.rx + ↑σ.received + ↑(σ.rx w)
      = nicItems cfg σ.rx + ↑((σ.rx w).drop new.length) + (↑σ.received + ↑new) := by
        rw [hsplit]
        abel
    _ = nicItems cfg σ'.rx + (↑σ.received + ↑new) + ↑(σ.rx w) := by
        rw [← hupdate]
        abel

/-- A step that neither reads nor fills a NIC queue. -/
theorem of_same (h : Arrived cfg ps σ) (hrx : σ'.rx = σ.rx)
    (hreceived : σ'.received = σ.received) : Arrived cfg ps σ' := by
  rw [Arrived, hrx, hreceived]
  exact h

variable [Double D]

/-- The stages of a task move packets from the NIC queue to what has been received. -/
theorem stage (h : Arrived cfg ps σ) (hwired : Wired cfg σ) (hw : w < cfg.W)
    (hs : Stage cfg w σ σ') : Arrived cfg ps σ' := by
  cases hs with
  | receiveAll drains =>
    rw [receiveAll_eq]
    exact h.of_read hw _ (rxPrefix_append drains) rfl rfl
  | forward ready accept =>
    refine h.of_read hw _ ?_ rfl rfl
    rw [processBatch]
    split
    · rfl
    · nth_rewrite 1 [rxBurst_eq_take]
      exact List.take_append_drop ..
  | takeBack =>
    rw [takeBack_eq hwired]
    exact h.of_same rfl rfl
  | processChanges =>
    rw [processChanges_eq hwired.noLocal]
    exact h.of_same rfl rfl
  | exchange => exact h.of_same exchange_repointed.rx exchange_repointed.received
  | withdraw => exact h.of_same withdraw_repointed.rx withdraw_repointed.received
  | announce => exact h.of_same announce_repointed.rx announce_repointed.received
  | adopt => exact h.of_same adopt_repointed.rx adopt_repointed.received
  | takeRatios | releaseAll | doneR | doneOffloading | doneShard | doneSignal | drained
  | workOff => exact h.of_same rfl rfl

/-- **Every step keeps track of what has arrived.** -/
theorem step (h : Arrived cfg ps σ) (hwired : Wired cfg σ) (hs : Steered cfg σ) {a : Act D}
    (ha : Possible cfg σ a) : Arrived cfg (ps ++ arrivals [a]) (step cfg σ a) := by
  cases a with
  | arrive p =>
    have hlt : σ.rxQueue cfg p < cfg.W :=
      (hs.follows (p.rss % cfg.retaSize) (Nat.mod_lt _ cfg.retaSize_pos)).1
    have hupdate := nicItems_update σ.rx hlt (σ.rx (σ.rxQueue cfg p) ++ [p])
    have hrx : (Fajita.step cfg σ (.arrive p)).rx =
        Function.update σ.rx (σ.rxQueue cfg p) (σ.rx (σ.rxQueue cfg p) ++ [p]) := rfl
    have hreceived : (Fajita.step cfg σ (.arrive p)).received = σ.received := rfl
    rw [Arrived, hrx, hreceived, arrivals, arrivals, ← Multiset.coe_add, h]
    rw [← Multiset.coe_add, ← add_assoc, add_right_comm] at hupdate
    rw [add_right_cancel hupdate]
    abel
  | epoch ans vec =>
    have hf := Controller.updateShortEpoch_frame cfg σ ans vec
    change Arrived cfg (ps ++ []) _
    rw [List.append_nil]
    exact h.of_same hf.traffic.rx hf.traffic.received
  | work w inp =>
    change Arrived cfg (ps ++ []) _
    rw [List.append_nil]
    exact (hwired.runTask_inv (P := Arrived cfg ps) ha
      (fun _ _ hσ h hs => h.stage hσ ha hs) h inp).2
  | offload e accept =>
    change Arrived cfg (ps ++ []) _
    rw [List.append_nil]
    simp only [Fajita.step, OffloadingCore.runTask, OffloadingCore.poll]
    split
    · exact h.of_same rfl rfl
    · exact h.of_same rfl rfl

end Arrived

/-! ## Every packet

The bounds are put together for one packet, whichever way it goes. What the run has to keep is
collected in one invariant.
-/

variable [Double D]

/-- The condition on the steps of a run: the controller keeps the relation between the cores, the
shards are assigned to cores, and the requests are carried out in order. -/
def Delivers (cfg : Cfg) (σ : Sys D) (a : Act D) : Prop := InTurn cfg σ a ∧ AssignsShards cfg a

/-- What such runs keep. -/
structure Delivering (cfg : Cfg) (ps : List Packet) (σ : Sys D) : Prop extends
    Steady cfg σ, Sharing cfg σ where
  /-- the NIC follows the assignment -/
  steered : Steered cfg σ
  /-- what has arrived is in the NIC queues or has been handed out -/
  arrived : Arrived cfg ps σ
  /-- what has been handed out is in the rings, has been sent or is lost -/
  accounted : Accounted cfg σ

namespace Delivering

variable {ps : List Packet}

/-- At first nothing has arrived. -/
theorem init (hE : 0 < cfg.E) : Delivering cfg [] (init D cfg) where
  toSteady := steady_init
  mailed := (Sharing.init hE).mailed
  polled := (Sharing.init hE).polled
  standing := (Sharing.init hE).standing
  ties := (Sharing.init hE).ties
  cores := (Sharing.init hE).cores
  steered := Steered.init_steered
  arrived := by simp [Arrived, nicItems, Fajita.init]
  accounted := accounted_init

/-- **Every step keeps** the invariant of such runs. -/
theorem step (h : Delivering cfg ps σ) (hE : 0 < cfg.E) {a : Act D} (ha : Delivers cfg σ a) :
    Delivering cfg (ps ++ arrivals [a]) (step cfg σ a) :=
  have hs := h.toSharing.step hE ha.1
  { h.toSteady.step ha.1.1, hs with
    steered := h.steered.step h.wired ha.1.1.1 ha.2
    arrived := h.arrived.step h.wired h.steered ha.1.1.1
    accounted := h.accounted.step h.wired ha.1.1.1 }

/-- Every run that delivers keeps the invariant. -/
theorem run (hE : 0 < cfg.E) {acts : List (Act D)} (h : Delivering cfg ps σ)
    (hC : Along (Fajita.step cfg) (Delivers cfg) σ acts) :
    Delivering cfg (ps ++ arrivals acts) (runFrom (Fajita.step cfg) σ acts) := by
  induction acts generalizing σ ps with
  | nil => rwa [arrivals, List.append_nil]
  | cons a acts ih =>
    obtain ⟨ha, hrest⟩ := hC
    rw [arrivals_cons, ← List.append_assoc]
    exact ih (h.step hE ha) hrest

/-- **`q` is emptied** of what was there: after so many tasks of its offloading core, a packet that
was read by its core is not in `q` any more. -/
theorem off_q (h : Delivering cfg ps σ) (hE : 0 < cfg.E) (hcore : ∀ e < cfg.E, 0 < cfg.coreBurst e)
    (hw : w < cfg.W) (hrx : p ∉ σ.rx w) {acts : List (Act D)}
    (hC : Along (Fajita.step cfg) (fun σ a => Delivers cfg σ a ∧ a ≠ .arrive p) σ acts)
    (hmany : ((σ.qItems w).length + 1) * pollRound cfg w ≤
      acts.countP (Act.isOffloadOf (Init.offloadingFromWorking cfg w))) :
    p ∉ (runFrom (Fajita.step cfg) σ acts).rx w ∧
      p ∉ (runFrom (Fajita.step cfg) σ acts).qItems w := by
  have hkeep : ∀ (σ : Sys D) a, (Sharing cfg σ ∧ p ∉ σ.rx w) →
      (Delivers cfg σ a ∧ a ≠ .arrive p) →
      Sharing cfg (Fajita.step cfg σ a) ∧ p ∉ (Fajita.step cfg σ a).rx w :=
    fun _ _ ⟨hs, hrx⟩ ha => ⟨hs.step hE ha.1.1, not_mem_rx_step hs.wired ha.1.1.1 ha.2 hrx⟩
  refine ⟨(hC.inv hkeep ⟨h.toSharing, hrx⟩).2, Meets.kept (G := fun σ => p ∉ σ.qItems w) hkeep
    (fun _ _ hs ha hq => not_mem_q_step hs.1.wired (hs.1.calm w) ha.1.1.1 hs.2 hq)
    ⟨h.toSharing, hrx⟩ hC ?_⟩
  by_cases hq : p ∈ σ.qItems w
  · exact Waits.leaves ⟨hq, hrx⟩ h.toSharing hE (mem_users.mpr ⟨hw, rfl⟩)
      (hcore _ (offloadingFromWorking_lt hE hw)) (hC.imp fun _ _ ha => ⟨ha.1.1, ha.2⟩) hmany
  · exact .now hq

omit [Double D] in
/-- A packet that waits nowhere has been sent or lost as often as it has arrived. -/
theorem count_eq (h : Delivering cfg ps σ)
    (hnone : ∀ w < cfg.W, p ∉ σ.rx w ∧ ¬ InRings σ w p) :
    σ.transmitted.count p + σ.lost.count p = ps.count p := by
  have hnic : (nicItems cfg σ.rx).count p = 0 := by
    rw [nicItems, Multiset.count_sum', Finset.sum_eq_zero]
    intro w hw
    rw [Multiset.coe_count, List.count_eq_zero]
    exact (hnone w (Finset.mem_range.mp hw)).1
  have hrings : (ringItems cfg σ.ring).count p = 0 := by
    rw [ringItems, Multiset.count_sum', Finset.sum_eq_zero]
    intro w hw
    obtain ⟨hq, hmine⟩ := not_or.mp (hnone w (Finset.mem_range.mp hw)).2
    rw [Sys.qItems, ← List.count_eq_zero] at hq
    rw [Sys.myItems, ← List.count_eq_zero] at hmine
    rw [pairItems, Multiset.count_add, Multiset.coe_count, Multiset.coe_count]
    obtain ⟨heq, heq'⟩ | ⟨heq, heq'⟩ := h.wired.pair w
    · rw [← heq, ← heq', hq, hmine, add_zero]
    · rw [← heq, ← heq', hq, hmine, add_zero]
  have hlocal : (localItems cfg σ).count p = 0 := by
    rw [localItems, Multiset.count_sum', Finset.sum_eq_zero]
    intro s _
    rw [h.wired.noLocal s, Multiset.coe_count, List.count_nil]
  have harrived := congrArg (Multiset.count p) h.arrived
  have haccounted := congrArg (Multiset.count p) h.accounted
  simp only [places, Multiset.count_add, Multiset.coe_count, hnic, hrings, hlocal, zero_add]
    at harrived haccounted
  rw [harrived, haccounted]

end Delivering

/-- The schedule goes on long enough: the working cores read what waits, then the offloading cores
poll `q`, and then the working cores work off `myring`. -/
structure Serves (cfg : Cfg) (σ : Sys D) (acts₁ acts₂ acts₃ : List (Act D)) : Prop where
  /-- each packet in a NIC queue may have to wait for a round of work on `myring` -/
  read : ∀ w < cfg.W,
    ((σ.rx w).length + 1) * (fullRounds cfg w + 3) ≤ acts₁.countP (Act.isTaskOf w)
  /-- each packet in `q` may have to wait for the other rings -/
  polled : ∀ w < cfg.W, (((runFrom (step cfg) σ acts₁).qItems w).length + 1) * pollRound cfg w ≤
    acts₂.countP (Act.isOffloadOf (Init.offloadingFromWorking cfg w))
  /-- a full `myring` is pushed -/
  workedOff : ∀ w < cfg.W, fullRounds cfg w + 2 ≤ acts₃.countP (Act.isTaskOf w)

/-- **Every packet leaves the router.** In every run in which the controller keeps the relation
between the cores and no task strands packets: when all cores have had so many tasks, a packet that
had arrived before, and has not again, waits nowhere, and has been sent, or lost to a full queue, as
often as it had arrived; whatever ratios and assignments the controller asked for meanwhile. -/
theorem every_packet_leaves {acts acts₁ acts₂ acts₃ : List (Act D)} (hE : 0 < cfg.E)
    (hburst : ∀ w < cfg.W, 0 < cfg.burst w) (hcore : ∀ e < cfg.E, 0 < cfg.coreBurst e)
    (hC : Along (step cfg) (Delivers cfg) (init D cfg) (acts ++ (acts₁ ++ (acts₂ ++ acts₃))))
    (hready : ∀ a ∈ acts₁, a.ready = true)
    (honce : ∀ a ∈ acts₁ ++ (acts₂ ++ acts₃), a ≠ .arrive p)
    (hmany : Serves cfg (runFrom (step cfg) (init D cfg) acts) acts₁ acts₂ acts₃) :
    (∀ w < cfg.W,
      p ∉ (runFrom (step cfg) (init D cfg) (acts ++ (acts₁ ++ (acts₂ ++ acts₃)))).rx w ∧
        ¬ InRings (runFrom (step cfg) (init D cfg) (acts ++ (acts₁ ++ (acts₂ ++ acts₃)))) w p) ∧
      (runFrom (step cfg) (init D cfg) (acts ++ (acts₁ ++ (acts₂ ++ acts₃)))).transmitted.count p +
        (runFrom (step cfg) (init D cfg) (acts ++ (acts₁ ++ (acts₂ ++ acts₃)))).lost.count p =
      (arrivals acts).count p := by
  have hfinal := (Delivering.init hE).run hE hC
  obtain ⟨hbefore, hafter⟩ := along_append.mp hC
  have h₀ := (Delivering.init hE).run hE hbefore
  obtain ⟨σ, hσ⟩ : ∃ σ, σ = runFrom (step cfg) (init D cfg) acts := ⟨_, rfl⟩
  rw [runFrom_append, ← hσ] at hfinal ⊢
  rw [← hσ] at hafter h₀ hmany
  have hafter' := hafter.and (.of_forall honce)
  obtain ⟨hC₁, hC₂₃⟩ := along_append.mp hafter'
  obtain ⟨hC₂, hC₃⟩ := along_append.mp hC₂₃
  have h₁ := h₀.run hE (along_append.mp hafter).1
  have h₂ := h₁.run hE (along_append.mp (along_append.mp hafter).2).1
  have hnone : ∀ w < cfg.W, p ∉ (runFrom (step cfg) σ (acts₁ ++ (acts₂ ++ acts₃))).rx w ∧
      ¬ InRings (runFrom (step cfg) σ (acts₁ ++ (acts₂ ++ acts₃))) w p := by
    intro w hw
    have hread : p ∉ (runFrom (step cfg) σ acts₁).rx w :=
      read_by_core h₀.toSteady hw (hburst w hw)
        ((hC₁.and (.of_forall hready)).imp fun _ _ ha => ⟨ha.1.1.1.1, ha.1.2, ha.2⟩)
        (hmany.read w hw)
    obtain ⟨hrx, hq⟩ := h₁.off_q hE hcore hw hread hC₂ (hmany.polled w hw)
    rw [runFrom_append, runFrom_append]
    exact worked_off h₂.toSteady hrx hq (hC₃.imp fun _ _ ha => ⟨ha.1.1.1, ha.2⟩)
      (hmany.workedOff w hw)
  refine ⟨hnone, (hfinal.count_eq hnone).trans ?_⟩
  have hnot : p ∉ arrivals (acts₁ ++ (acts₂ ++ acts₃)) := fun hp =>
    honce _ (arrive_mem hp) rfl
  rw [List.nil_append, arrivals_append, List.count_append, List.count_eq_zero.mpr hnot, add_zero]

/-! ## A run -/

instance (σ : Sys D) : DecidablePred (Delivers cfg σ) := fun _ =>
  inferInstanceAs (Decidable (_ ∧ _))

namespace Small

/-- A packet arrives when its shard is to be offloaded. -/
def arriving : List (Act ℚ) :=
  [.offload 0 1, .epoch (some (answer id (fun _ => 0) fun _ => 1 / 2)) fun _ => [],
    .arrive (packet 1 0)]

/-- The cores read, while the controller asks for another ratio. -/
def reading : List (Act ℚ) :=
  .work 0 (task 1) :: .epoch (some (answer id (fun _ => 0) fun _ => 1 / 3)) (fun _ => []) ::
    (List.replicate 8 [.work 1 (task 1), .work 0 (task 1)]).flatten

/-- The offloading core polls. -/
def polling : List (Act ℚ) := List.replicate 16 (.offload 0 1)

/-- The cores work off what they have taken back. -/
def workingOff : List (Act ℚ) := (List.replicate 3 [.work 0 (task 1), .work 1 (task 1)]).flatten

theorem arriving_leaves :
    (runFrom (step (quick 1)) (init ℚ (quick 1))
          (arriving ++ (reading ++ (polling ++ workingOff)))).transmitted.count (packet 1 0) +
        (runFrom (step (quick 1)) (init ℚ (quick 1))
          (arriving ++ (reading ++ (polling ++ workingOff)))).lost.count (packet 1 0) =
      (arrivals arriving).count (packet 1 0) :=
  (every_packet_leaves (by decide) (by decide) (by decide) (by decide +kernel) (by decide)
    (by simp [reading, polling, workingOff])
    ⟨by decide +kernel, by decide +kernel, by decide⟩).2

end Small

end Fajita
