import Fajita.Ledger
import Fajita.Lookups

/-!
# Counting packets

`extract_state` looks a packet up and counts it, and a working core calls it in two
places: when it classifies what it has received, and when it works off its own ring.
A packet that is classified for the offloading core, waits in `q` and is taken back to
`myring` passes both.

What a core has ahead of it is its own ring and its NIC queue (`ahead`). As long as no
transfer routine finds packets in `q`, a task takes out of that what it counts
(`runTask_ahead`), and so every packet is counted once (`countedOnce_of_findsNone`).
-/

namespace Fajita

open ShardInfo WorkingCore

variable {D : Type} [Double D] {cfg : Cfg} {σ σ' : Sys D} {w s : ℕ}

/-! ## The counters

The counters are words and wrap around. Sums of lengths are taken of natural numbers, and only the
total is cut off.
-/

/-- A batch adds its bytes and its packets to the counters of the shard. -/
theorem ShardInfo.lookups_counters {solver : Bool} {e : UInt32} (ps : List Packet)
    (sh : ShardInfo D) :
    (sh.lookups solver e s ps).bytes =
        sh.bytes + (if solver then UInt32.ofNat (ps.map Packet.ipLen).sum else 0) ∧
      (sh.lookups solver e s ps).packets =
        sh.packets + (if solver then UInt32.ofNat ps.length else 0) := by
  induction ps generalizing sh with
  | nil =>
    rw [lookups_nil]
    cases solver <;> exact ⟨(UInt32.add_zero _).symm, (UInt32.add_zero _).symm⟩
  | cons p ps ih =>
    obtain ⟨hbytes, hpackets⟩ := ih (sh.extractState solver e s p)
    obtain ⟨hb, hp⟩ := @extractState_counters _ _ s solver e p sh
    rw [lookups_cons, hbytes, hpackets, hb, hp]
    cases solver with
    | true =>
      simp only [if_true, List.map_cons, List.sum_cons, List.length_cons]
      rw [UInt32.ofNat_add, UInt32.ofNat_add, UInt32.add_assoc, UInt32.add_assoc,
        UInt32.add_comm (UInt32.ofNat ps.length)]
      exact ⟨rfl, rfl⟩
    | false => exact ⟨rfl, rfl⟩

/-- The shard when `extract_state` has found or made the state of a packet. -/
def ShardInfo.located (solver : Bool) (e : UInt32) (s : ℕ) (p : Packet) (sh : ShardInfo D) :
    ShardInfo D :=
  match sh.table p.flow with
  | some st => touchFlow solver e p st sh
  | none => createFlow solver e s p sh

/-- `state->bytes` of a flow. -/
def ShardInfo.flowBytes (sh : ShardInfo D) (k : FlowKey) : UInt64 :=
  (sh.table k).elim 0 DyssectState.bytes

/-- What lookups add to `state->bytes` of a flow. -/
def ShardInfo.gain (solver : Bool) (e : UInt32) (s : ℕ) (k : FlowKey) :
    List Packet → ShardInfo D → UInt64
  | [], _ => 0
  | p :: ps, sh =>
    ((sh.extractState solver e s p).flowBytes k - (sh.located solver e s p).flowBytes k) +
      gain solver e s k ps (sh.extractState solver e s p)

/-- The packets of a flow. -/
def ofFlow (k : FlowKey) (ps : List Packet) : List Packet := ps.filter fun p => p.flow = k

/-- After the lookup the flow has a state. -/
theorem ShardInfo.located_isSome (solver : Bool) (e : UInt32) (p : Packet) (sh : ShardInfo D) :
    ((sh.located solver e s p).table p.flow).isSome = true := by
  simp only [located]
  cases hst : sh.table p.flow with
  | some st =>
    dsimp only [touchFlow]
    split
    · simp only [Function.update_self, Option.isSome_some]
    · rw [hst]
      rfl
  | none => simp only [createFlow, Function.update_self, Option.isSome_some]

/-- A lookup adds the length of the packet to its flow and nothing to any other. -/
theorem ShardInfo.extractState_gain (solver : Bool) (e : UInt32) (p : Packet) (sh : ShardInfo D)
    (k : FlowKey) :
    (sh.extractState solver e s p).flowBytes k - (sh.located solver e s p).flowBytes k =
      if p.flow = k then UInt64.ofNat p.ipLen else 0 := by
  have htable : (sh.extractState solver e s p).table =
      Function.update (sh.located solver e s p).table p.flow
        (((sh.located solver e s p).table p.flow).map fun st =>
          { st with bytes := st.bytes + UInt64.ofNat p.ipLen }) := rfl
  rw [flowBytes, flowBytes, htable]
  by_cases hk : p.flow = k
  · subst hk
    obtain ⟨st, hst⟩ := Option.isSome_iff_exists.mp (located_isSome (s := s) solver e p sh)
    rw [if_pos rfl, Function.update_self, hst]
    rw [Option.map_some, Option.elim_some, Option.elim_some, UInt64.add_comm]
    exact UInt64.add_sub_cancel _ _
  · rw [if_neg hk, Function.update_of_ne (Ne.symm hk)]
    exact UInt64.sub_self _

/-- A batch adds to the state of a flow the bytes of its packets of this flow. -/
theorem ShardInfo.gain_eq {solver : Bool} {e : UInt32} (k : FlowKey) (ps : List Packet)
    (sh : ShardInfo D) :
    sh.gain solver e s k ps = UInt64.ofNat ((ofFlow k ps).map Packet.ipLen).sum := by
  induction ps generalizing sh with
  | nil => rfl
  | cons p ps ih =>
    rw [gain, ih, extractState_gain, ofFlow, ofFlow, List.filter_cons]
    by_cases hk : p.flow = k
    · rw [if_pos hk, if_pos (decide_eq_true hk), List.map_cons, List.sum_cons, UInt64.ofNat_add]
    · rw [if_neg hk, if_neg (by simpa using hk), UInt64.zero_add]

/-- What the tasks of a run add to a counter of shard `s`; the controller resets it. -/
def added (cfg : Cfg) (s : ℕ) (counter : ShardInfo D → UInt32) : Sys D → List (Act D) → UInt32
  | _, [] => 0
  | σ, a :: acts =>
    (match a with
      | .work _ _ => counter ((step cfg σ a).shards s) - counter (σ.shards s)
      | _ => 0) + added cfg s counter (step cfg σ a) acts

/-- What tasks with the solver option on add to `state->bytes` of a flow of shard `s`
during a run. -/
def addedToFlow (cfg : Cfg) (s : ℕ) (k : FlowKey) : Sys D → List (Act D) → UInt64
  | _, [] => 0
  | σ, a :: acts =>
    (match a with
      | .work w _ =>
        if cfg.workerSolver w then (σ.shards s).gain true σ.epoch s k (lookedUp cfg s σ a) else 0
      | _ => 0) + addedToFlow cfg s k (step cfg σ a) acts

/-- The packets a task looks up with the solver option on. -/
def counted (cfg : Cfg) (σ : Sys D) : Act D → List Packet
  | .work w inp => if cfg.workerSolver w then (runTask cfg w inp σ).2.extracted else []
  | _ => []

/-- The packets a task with the solver option on processes or offloads. -/
def handled (cfg : Cfg) (σ : Sys D) : Act D → List Packet
  | .work w inp =>
    if cfg.workerSolver w then
      (runTask cfg w inp σ).2.pushed ++ (runTask cfg w inp σ).2.off
    else []
  | _ => []

/-- A task processes or offloads the packets it looks up. -/
theorem runTask_perm (inp : TaskInput) :
    ((runTask cfg w inp σ).2.pushed ++ (runTask cfg w inp σ).2.off).Perm
      (runTask cfg w inp σ).2.extracted := by
  simp only [runTask]
  split
  · split
    · exact .refl _
    · exact .of_eq (List.append_nil _)
  · exact Multiset.coe_eq_coe.mp (classify_split cfg w _ _ _)

/-- What the tasks look up is what is counted, in another order. -/
theorem handled_perm (a : Act D) : (handled cfg σ a).Perm (counted cfg σ a) := by
  cases a with
  | work w inp =>
    dsimp only [handled, counted]
    split
    · exact runTask_perm inp
    · exact .refl _
  | _ => exact .refl _

/-- What a run looks up is what is counted, in another order. -/
theorem history_perm (acts : List (Act D)) :
    (history (step cfg) (handled cfg) σ acts).Perm (history (step cfg) (counted cfg) σ acts) := by
  induction acts generalizing σ with
  | nil => exact .refl _
  | cons a acts ih => exact (handled_perm a).append ih

/-- The packets of a shard among those of two batches. -/
theorem ofShard_append (ps ps' : List Packet) :
    ofShard cfg s (ps ++ ps') = ofShard cfg s ps ++ ofShard cfg s ps' := List.filter_append ..

omit [Double D] in
theorem add_sub_self (m n : UInt32) : m + n - m = n := by grind

/-- **The counters follow the lookups.** -/
theorem added_eq {acts : List (Act D)} (hwired : Wired cfg σ)
    (hrun : Along (step cfg) (Possible cfg) σ acts) :
    added cfg s ShardInfo.bytes σ acts = UInt32.ofNat
        ((ofShard cfg s (history (step cfg) (counted cfg) σ acts)).map Packet.ipLen).sum ∧
      added cfg s ShardInfo.packets σ acts =
        UInt32.ofNat (ofShard cfg s (history (step cfg) (counted cfg) σ acts)).length := by
  induction acts generalizing σ with
  | nil => exact ⟨rfl, rfl⟩
  | cons a acts ih =>
    obtain ⟨ha, hrun⟩ := hrun
    obtain ⟨hbytes, hpackets⟩ := ih (hwired.step ha) hrun
    cases a with
    | work w inp =>
      rw [added, added, history, ofShard_append, List.map_append, List.sum_append,
        List.length_append, UInt32.ofNat_add, UInt32.ofNat_add, hbytes, hpackets]
      obtain ⟨-, -, hb, hp, -⟩ := book_fields (runTask_book (s := s) hwired ha inp)
      obtain ⟨hb', hp'⟩ := @lookups_counters _ _ s (cfg.workerSolver w) σ.epoch
        (ofShard cfg s (runTask cfg w inp σ).2.extracted) (σ.shards s)
      dsimp only [step, counted]
      rw [hb, hb', hp, hp', add_sub_self, add_sub_self]
      split <;> exact ⟨rfl, rfl⟩
    | _ => exact ⟨(UInt32.zero_add _).trans hbytes, (UInt32.zero_add _).trans hpackets⟩

/-- What a run adds to the bytes of a flow is what its packets have. -/
theorem addedToFlow_eq (k : FlowKey) (acts : List (Act D)) :
    addedToFlow cfg s k σ acts = UInt64.ofNat
      ((ofFlow k (ofShard cfg s (history (step cfg) (counted cfg) σ acts))).map
        Packet.ipLen).sum := by
  induction acts generalizing σ with
  | nil => rfl
  | cons a acts ih =>
    cases a with
    | work w inp =>
      rw [addedToFlow, history, ofShard_append, ofFlow, List.filter_append, List.map_append,
        List.sum_append, UInt64.ofNat_add, ih]
      dsimp only [counted]
      split
      · rw [gain_eq]
        rfl
      · rfl
    | _ => exact (UInt64.zero_add _).trans ih

/-! ## What is ahead of a core

A packet that is ahead of a core is in its ring or in its NIC queue. A task takes packets out of
there and puts those of offloaded flows into `q`. The transfer routines bring packets of `q` back:
this is how a packet may be looked up twice.
-/

/-- The packets a core has still to look up. -/
def ahead (σ : Sys D) (w : ℕ) : Multiset Packet := ↑(σ.myItems w) + ↑(σ.rx w)

omit [Double D] in
/-- What is ahead of a core is on its desk. -/
theorem SameDesk.ahead (h : SameDesk w σ σ') : ahead σ' w = ahead σ w := by
  rw [Fajita.ahead, Fajita.ahead, h.mine, h.rx]

omit [Double D] in
/-- A prefix of a queue and what is behind it. -/
theorem coe_prefix_add_drop {ps qs : List Packet} (h : ps <+: qs) :
    (↑ps + ↑(qs.drop ps.length) : Multiset Packet) = ↑qs := by
  rw [Multiset.coe_add, List.prefix_iff_eq_append.mp h]

omit [Double D] in
/-- A ring takes no more than it is offered. -/
theorem enqueueBurst_le (Q : Fifo Packet) (ps : List Packet) :
    (↑(Q.enqueueBurst ps).items : Multiset Packet) ≤ ↑Q.items + ↑ps := by
  rw [Fifo.enqueueBurst_items, ← Multiset.coe_add]
  exact add_le_add_right (Multiset.coe_le.mpr (List.take_sublist ..).subperm) _

namespace WorkingCore

section

variable (h : Wired cfg σ) (hw : w < cfg.W) (hq : σ.qItems w = [])

include h hw hq

/-- `transfer_shard` moves packets from the NIC queue to `myring`. -/
theorem transferShard_ahead (drains : List ℕ) :
    ahead (transferShard cfg w drains σ) w ≤ ahead σ w := by
  have hd := withdraw_desk (w := w) (σ := σ)
  have hwired := h.stage hw (.withdraw σ)
  have hwired' := hwired.stage hw (.receiveAll _ drains)
  have hmine : (collect cfg w drains σ).myItems w =
      (((withdraw w σ).ring ((withdraw w σ).worker w).myring).enqueueBurst
        (rxPrefix cfg w drains (withdraw w σ))).items := by
    refine announce_desk.mine.trans ((takeBack_myItems hwired').trans ?_)
    rw [receiveAll_qItems hwired, hd.q, hq, Fifo.enqueueBurst_nil]
    exact receiveAll_myItems drains
  have hrx : (collect cfg w drains σ).rx w =
      ((withdraw w σ).rx w).drop (rxPrefix cfg w drains (withdraw w σ)).length := by
    refine announce_desk.rx.trans ?_
    rw [takeBack_rx hwired', receiveAll_rx]
  rw [(transferShard_desk drains).ahead, ← hd.ahead, ahead, ahead, hmine, hrx,
    ← coe_prefix_add_drop (show rxPrefix cfg w drains (withdraw w σ) <+: (withdraw w σ).rx w from
      List.take_prefix ..), ← add_assoc]
  exact add_le_add_left (enqueueBurst_le ..) _

end

/-- The transfer routine a core is about to run, if any. -/
def transfers (σ : Sys D) (w : ℕ) : Bool :=
  σ.controllerSignal w && (σ.transferR w || σ.transferOffloading w || σ.transferShard w)

section

variable (h : Wired cfg σ) (hw : w < cfg.W)

include h hw

/-- **The signal** moves no packet out of `q` if there is none. -/
theorem serveSignal_ahead (drains : List ℕ) (hret : transfers σ w = true → σ.qItems w = []) :
    ahead (serveSignal cfg w drains σ) w ≤ ahead σ w := by
  simp only [serveSignal]
  unfold transfers at hret
  cases hsig : σ.controllerSignal w with
  | false => exact le_refl _
  | true =>
    rw [hsig, Bool.true_and, Bool.or_assoc, Bool.or_eq_true_iff] at hret
    rw [if_pos rfl]
    -- the first two routines find `q` empty and leave the desk alone; `transfer_shard` receives
    have hR : SameDesk w σ (serveR cfg w σ) := by
      simp only [serveR]
      split
      · next hflag => exact transferR_desk (hret (Or.inl hflag))
      · exact SameDesk.refl w σ
    have hwiredR := ((transferR_serves h hw).opt (σ.transferR w) h).wired
    have hO : SameDesk w σ (beforeShard cfg w σ) := by
      refine hR.trans ?_
      simp only [beforeShard, serveOffloading]
      split
      · next hflag =>
        rw [serveR_kept.2.1] at hflag
        refine transferOffloading_desk hwiredR hw ?_
        rw [hR.q]
        exact hret (Or.inr (Bool.or_eq_true_iff.mpr (Or.inl hflag)))
      · exact SameDesk.refl w _
    have hwiredO := (beforeShard_serves h hw).wired
    have hflags := (@beforeShard_kept _ cfg σ w).2
    have hS : ahead (serveShard cfg w drains (beforeShard cfg w σ)) w ≤ ahead σ w := by
      simp only [serveShard]
      rw [← hO.ahead]
      split
      · next hflag =>
        rw [hflags] at hflag
        refine transferShard_ahead hwiredO hw ?_ drains
        rw [hO.q]
        exact hret (Or.inr (Bool.or_eq_true_iff.mpr (Or.inr hflag)))
      · exact le_refl _
    exact hS

omit [Double D] h hw in
/-- A core works off the first packets of its own ring. -/
theorem workOff_split [Double D] (accept : ℕ) :
    (workOff cfg w accept σ).2.extracted ++ (workOff cfg w accept σ).1.myItems w =
      σ.myItems w := by
  simp [workOff, pushBatch, Sys.myItems]

/-- **A task takes what it looks up out of what is ahead of the core**, unless a transfer
routine finds packets in `q`. -/
theorem runTask_ahead (inp : TaskInput)
    (hret : (σ.worker w).myown = false → transfers σ w = true → σ.qItems w = []) :
    ↑(runTask cfg w inp σ).2.extracted + ahead (runTask cfg w inp σ).1 w ≤ ahead σ w := by
  simp only [runTask]
  cases hm : (σ.worker w).myown with
  | true =>
    rw [if_pos rfl]
    split
    · refine le_of_eq ((zero_add _).trans ?_)
      -- `myring` was found empty, so nothing is counted and nothing is left ahead
      simp [ahead, drained, Sys.myItems, Sys.setWorker]
    · have hrx : (workOff cfg w inp.accept σ).1.rx w = σ.rx w := rfl
      rw [ahead, ahead, ← add_assoc, Multiset.coe_add, workOff_split inp.accept, hrx]
  | false =>
    rw [if_neg Bool.false_ne_true]
    have hdesk := processChanges_desk (w := w) (serveSignal_serves h hw inp.drains).wired
    have hbefore : ahead (beforeReceive cfg w inp σ) w ≤ ahead σ w := by
      rw [beforeReceive, ahead, hdesk.2.1, hdesk.2.2]
      exact serveSignal_ahead h hw inp.drains (hret hm)
    refine le_trans (le_of_eq ?_) hbefore
    have hwired := beforeReceive_wired h hw inp
    -- what is counted leaves the front of the receive queue: the sum stays the same
    have hbatch : processBatch cfg w inp.rx (beforeReceive cfg w inp σ) <+:
        (beforeReceive cfg w inp σ).rx w := by
      rw [processBatch_take inp.rx]
      exact List.take_prefix ..
    change ↑(processBatch cfg w inp.rx (beforeReceive cfg w inp σ)) +
      ahead (forward cfg w inp.accept (processBatch cfg w inp.rx (beforeReceive cfg w inp σ))
        (beforeReceive cfg w inp σ)).1 w = _
    rw [ahead, forward_myItems hwired, forward_rx, add_left_comm, coe_prefix_add_drop hbatch, ahead]

end

end WorkingCore

/-! ## Runs -/

/-- What is ahead of the cores with the solver option on. -/
def allAhead (cfg : Cfg) (σ : Sys D) : Multiset Packet :=
  ∑ w ∈ Finset.range cfg.W, if cfg.workerSolver w then ahead σ w else 0

/-- The packets that arrive during a run. -/
def arrivals : List (Act D) → List Packet
  | [] => []
  | .arrive p :: acts => p :: arrivals acts
  | _ :: acts => arrivals acts

/-- No transfer routine of a core with the solver option on finds packets waiting for the
offloading core. -/
def FindsNone (cfg : Cfg) (σ : Sys D) : Act D → Prop
  | .work w _ =>
    cfg.workerSolver w = true → (σ.worker w).myown = false → transfers σ w = true →
      σ.qItems w = []
  | _ => True

omit [Double D] in
/-- The arrival of a packet puts it ahead of one core. -/
theorem arrive_ahead (p : Packet) (v : ℕ) :
    ahead (arrive cfg p σ) v = ahead σ v + if v = σ.rxQueue cfg p then {p} else 0 := by
  have hmine : (arrive cfg p σ).myItems v = σ.myItems v := rfl
  have hrx : (arrive cfg p σ).rx =
      Function.update σ.rx (σ.rxQueue cfg p) (σ.rx (σ.rxQueue cfg p) ++ [p]) := rfl
  rw [ahead, ahead, hmine, hrx]
  by_cases hv : v = σ.rxQueue cfg p
  · rw [if_pos hv, ← hv, Function.update_self, ← Multiset.coe_add, add_assoc]
    rfl
  · rw [if_neg hv, Function.update_of_ne hv, add_zero]

omit [Double D] in
/-- A task of an offloading core puts nothing ahead of a working core. -/
theorem offload_ahead (e accept v : ℕ) :
    ahead (OffloadingCore.runTask cfg e accept σ).1 v ≤ ahead σ v := by
  obtain ⟨core, ring, transmitted, lost, heq, hring⟩ := OffloadingCore.runTask_eq cfg e accept σ
  rw [heq]
  obtain ⟨n, hn⟩ := hring (σ.worker v).myring
  have hsub : (ring (σ.worker v).myring).items.Sublist (σ.myItems v) := by
    rw [hn]
    exact List.drop_sublist ..
  exact add_le_add_left (Multiset.coe_le.mpr hsub.subperm) _

/-- **A step** counts packets that were ahead of the cores, and only arrivals are added. -/
theorem step_allAhead (h : Wired cfg σ) {a : Act D} (ha : Possible cfg σ a)
    (hret : FindsNone cfg σ a) :
    ↑(counted cfg σ a) + allAhead cfg (step cfg σ a) ≤ ↑(arrivals [a]) + allAhead cfg σ := by
  cases a with
  | arrive p =>
    refine (zero_add _).trans_le ?_
    rw [add_comm, allAhead, allAhead]
    -- the packet is ahead of one core, and of none in the sum if that core has the option off
    refine sum_le_of_update (j := σ.rxQueue cfg p) (Multiset.zero_le _) (fun v => ?_) _
    split
    · exact (arrive_ahead p v).le
    · exact Multiset.zero_le _
  | epoch ans vec =>
    have hframe := Controller.updateShortEpoch_frame cfg σ ans vec
    refine (zero_add _).trans_le (le_of_eq ((Finset.sum_congr rfl fun v _ => ?_).trans
      (zero_add _).symm))
    have hv : ahead (step cfg σ (.epoch ans vec)) v = ahead σ v := by
      rw [ahead, ahead, Sys.myItems, Sys.myItems, step, hframe.worker, hframe.traffic.ring,
        hframe.traffic.rx]
    rw [hv]
  | work w inp =>
    refine le_of_le_of_eq ?_ (zero_add _).symm
    have hw := Finset.mem_range.mpr (show w < cfg.W from ha)
    -- a task touches the desk of its own core only: split its term off the sum
    have hrest : ∑ v ∈ (Finset.range cfg.W).erase w,
        (if cfg.workerSolver v then ahead (step cfg σ (.work w inp)) v else 0) =
        ∑ v ∈ (Finset.range cfg.W).erase w, if cfg.workerSolver v then ahead σ v else 0 :=
      Finset.sum_congr rfl fun v hv => by
        rw [step, (SameDesk.of_localTo h (h.runTask_localTo ha inp)
          (Finset.ne_of_mem_erase hv)).ahead]
    rw [allAhead, allAhead, ← Finset.add_sum_erase _ _ hw, ← Finset.add_sum_erase _ _ hw, hrest,
      ← add_assoc]
    refine add_le_add_left ?_ _
    dsimp only [counted]
    by_cases hsolver : cfg.workerSolver w = true
    · simp only [if_pos hsolver]
      exact runTask_ahead h ha inp (hret hsolver)
    · simp only [if_neg hsolver]
      exact le_refl _
  | offload e accept =>
    refine (zero_add _).trans_le (le_of_le_of_eq (Finset.sum_le_sum fun v _ => ?_)
      (zero_add _).symm)
    split
    · exact offload_ahead e accept v
    · exact le_refl _

/-- **No packet is counted twice** in a run in which no packets are found again: what has been
counted and what is still ahead has arrived. -/
theorem run_allAhead {acts : List (Act D)} (h : Wired cfg σ)
    (hrun : Along (step cfg) (fun σ a => Possible cfg σ a ∧ FindsNone cfg σ a) σ acts) :
    ↑(history (step cfg) (counted cfg) σ acts) + allAhead cfg (runFrom (step cfg) σ acts) ≤
      ↑(arrivals acts) + allAhead cfg σ := by
  induction acts generalizing σ with
  | nil => exact le_refl _
  | cons a acts ih =>
    obtain ⟨⟨ha, hret⟩, hrun⟩ := hrun
    have hstep := step_allAhead h ha hret
    have hrest := ih (h.step ha) hrun
    have harr : (↑(arrivals (a :: acts)) : Multiset Packet) =
        ↑(arrivals acts) + ↑(arrivals [a]) := by
      cases a with
      | arrive p => rw [add_comm]; rfl
      | _ => exact (add_zero _).symm
    calc (↑(history (step cfg) (counted cfg) σ (a :: acts)) +
          allAhead cfg (runFrom (step cfg) σ (a :: acts)) : Multiset Packet)
        = ↑(counted cfg σ a) + (↑(history (step cfg) (counted cfg) (step cfg σ a) acts) +
            allAhead cfg (runFrom (step cfg) (step cfg σ a) acts)) := by
          rw [history, ← Multiset.coe_add, add_assoc, runFrom_cons]
      _ ≤ ↑(counted cfg σ a) + (↑(arrivals acts) + allAhead cfg (step cfg σ a)) :=
          add_le_add_right hrest _
      _ = ↑(arrivals acts) + (↑(counted cfg σ a) + allAhead cfg (step cfg σ a)) :=
          add_left_comm ..
      _ ≤ ↑(arrivals acts) + (↑(arrivals [a]) + allAhead cfg σ) := add_le_add_right hstep _
      _ = ↑(arrivals (a :: acts)) + allAhead cfg σ := by rw [harr, add_assoc]

/-- At first nothing is ahead of any core. -/
theorem allAhead_init : allAhead cfg (init D cfg) = 0 :=
  Finset.sum_eq_zero fun w _ => by
    split
    · rfl
    · rfl

/-! ## Once

To be counted once is to be looked up once. What is looked up again has been brought back from `q`.
-/

/-- The packets of shard `s` received and dealt with: tasks with the solver option on
have processed or offloaded them. However often they did, a packet is in it as often as
it arrived. -/
def dealtWith (cfg : Cfg) (s : ℕ) (acts : List (Act D)) : Multiset Packet :=
  ↑(arrivals acts) ∩ ↑(ofShard cfg s (history (step cfg) (handled cfg) (init D cfg) acts))

/-- The packets of shard `s` are counted once. -/
structure CountedOnce (cfg : Cfg) (s : ℕ) (acts : List (Act D)) : Prop where
  /-- `shards[s].bytes` -/
  bytes : added cfg s ShardInfo.bytes (init D cfg) acts =
    UInt32.ofNat ((dealtWith cfg s acts).map Packet.ipLen).sum
  /-- `shards[s].packets` -/
  packets : added cfg s ShardInfo.packets (init D cfg) acts =
    UInt32.ofNat (dealtWith cfg s acts).card
  /-- `state->bytes` of every flow -/
  flows : ∀ k, addedToFlow cfg s k (init D cfg) acts =
    UInt64.ofNat (((dealtWith cfg s acts).filter fun p => p.flow = k).map Packet.ipLen).sum

/-- The packets looked up are those dealt with. -/
theorem dealtWith_eq {acts : List (Act D)}
    (hC : Along (step cfg) (fun σ a => Possible cfg σ a ∧ FindsNone cfg σ a) (init D cfg) acts) :
    dealtWith cfg s acts =
      ↑(ofShard cfg s (history (step cfg) (counted cfg) (init D cfg) acts)) := by
  have hrun := run_allAhead wired_init hC
  rw [allAhead_init, add_zero] at hrun
  have hperm : (ofShard cfg s (history (step cfg) (handled cfg) (init D cfg) acts)).Perm
      (ofShard cfg s (history (step cfg) (counted cfg) (init D cfg) acts)) :=
    (history_perm acts).filter _
  have hsub : (↑(ofShard cfg s (history (step cfg) (counted cfg) (init D cfg) acts)) :
      Multiset Packet) ≤ ↑(history (step cfg) (counted cfg) (init D cfg) acts) :=
    Multiset.coe_le.mpr (List.filter_sublist ..).subperm
  rw [dealtWith, Multiset.coe_eq_coe.mpr hperm]
  exact inf_eq_right.mpr (hsub.trans (le_self_add.trans hrun))

/-- **Counting.** In every run in which no transfer routine of a core with the solver
option on finds packets in `q`, the packets of every shard are counted once. -/
theorem countedOnce_of_findsNone {acts : List (Act D)}
    (hC : Along (step cfg) (fun σ a => Possible cfg σ a ∧ FindsNone cfg σ a) (init D cfg) acts) :
    CountedOnce cfg s acts := by
  obtain ⟨hbytes, hpackets⟩ := added_eq (s := s) wired_init (hC.imp fun _ _ h => h.1)
  have hdealt := dealtWith_eq (s := s) hC
  refine ⟨?_, ?_, fun k => ?_⟩
  · rw [hbytes, hdealt]
    rfl
  · rw [hpackets, hdealt]
    rfl
  · rw [addedToFlow_eq, hdealt]
    rfl

instance (cfg : Cfg) (σ : Sys D) : DecidablePred (FindsNone cfg σ)
  | .work w _ => inferInstanceAs (Decidable (cfg.workerSolver w = true → _ → _ → _))
  | .arrive _ => inferInstanceAs (Decidable True)
  | .epoch _ _ => inferInstanceAs (Decidable True)
  | .offload _ _ => inferInstanceAs (Decidable True)

namespace Small

/-- Half of shard 0 is offloaded and a packet waits in `q`; after the steps `acts` the
share of the shard changes. -/
def reclassified (acts : List (Act ℚ)) : List (Act ℚ) :=
  [.epoch (some (answer id (fun _ => 0) fun _ => 1 / 2)) fun _ => [], .work 0 (task 1),
    .arrive (packet 1 0), .work 0 (task 1)] ++ acts ++
  [.epoch (some (answer id (fun _ => 0) fun _ => 1 / 4)) fun _ => [],
    .work 0 (task 1), .work 0 (task 1)]

/-- **A packet that comes back.** `transfer_r` makes `q` the own ring of the core, and
the packet in it is counted a second time. -/
theorem comesBack_not_countedOnce :
    Along (step (router 1)) (Possible (router 1)) (init ℚ (router 1)) (reclassified []) ∧
      ¬ CountedOnce (router 1) 0 (reclassified []) := by
  refine ⟨by decide +kernel, fun h => ?_⟩
  have hpackets := h.packets
  revert hpackets
  decide +kernel

/-- The offloading core has taken the packet before. -/
theorem sent_countedOnce : CountedOnce (router 1) 0 (reclassified [.offload 0 1]) :=
  countedOnce_of_findsNone (by decide +kernel)

end Small

end Fajita
