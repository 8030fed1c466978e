import Fajita.Affinity
import Fajita.Lines

/-!
# The order of a flow through the router

The packets of a flow take many ways to the output: its core pushes them itself, an offloading core
polls them from `q`, and after a request they come back to `myring`. Still they are sent in the
order of their arrival, by whichever core, as long as

* they arrive at one core;
* epochs and ratios leave waiting packets on their side, and no task strands packets, that is,
  clears `myown` through `had_changes` right after it has taken them back (`KeepsAside`);
* `transfer_shard` finds no packets of the flow both in `q` and in the NIC queue, which it would
  put in the wrong order (`Overtakes`).

What carries this is that all of them stand in one line: `myring`, behind it `q`, behind it the NIC
queue.
-/

namespace Fajita

variable {D : Type} {cfg : Cfg} {σ σ' : Sys D} {v w : ℕ}

open WorkingCore

/-- A flow: the key of its packets, and the hash the NIC computes of them. -/
structure Flow where
  /-- addresses and ports -/
  key : FlowKey
  /-- `hash.rss` -/
  rss : ℕ
  deriving DecidableEq

namespace Flow

variable (f : Flow)

/-- The packet is of the flow. -/
def has (p : Packet) : Bool := p.flow = f.key ∧ p.rss = f.rss

/-- The packets of the flow. -/
def among (ps : List Packet) : List Packet := ps.filter f.has

/-- The packets of the flow, in one list after another. -/
theorem among_append (ps ps' : List Packet) : f.among (ps ++ ps') = f.among ps ++ f.among ps' :=
  List.filter_append ..

theorem among_sublist {ps ps' : List Packet} (h : ps.Sublist ps') :
    (f.among ps).Sublist (f.among ps') := h.filter _

/-- The shard of the flow. -/
def shard (cfg : Cfg) : ℕ :=
  (if cfg.W = 1 then cfg.rteHashCrc f.key else f.rss) % cfg.totalShards

variable {f}

/-- The packets of the flow are all of one shard. -/
theorem shardOf_eq_shard {p : Packet} (h : f.has p = true) : cfg.shardOf p = f.shard cfg := by
  obtain ⟨hkey, hrss⟩ := of_decide_eq_true h
  rw [Cfg.shardOf, Cfg.hashValue, hkey, hrss, shard]

/-- A list has no packets of the flow exactly if none of its packets is of the flow. -/
theorem among_eq_nil {ps : List Packet} : f.among ps = [] ↔ ∀ p ∈ ps, f.has p = false :=
  List.filter_eq_nil_iff.trans (by simp only [Bool.not_eq_true])

/-- All packets of a flow are looked up in one shard. -/
theorem shardOf_eq {p p' : Packet} (h : f.has p = true) (h' : f.has p' = true) :
    cfg.shardOf p = cfg.shardOf p' ∧ p.flow = p'.flow :=
  ⟨(shardOf_eq_shard h).trans (shardOf_eq_shard h').symm,
    (of_decide_eq_true h).1.trans (of_decide_eq_true h').1.symm⟩

end Flow

variable {f : Flow}

/-- The line of a flow at core `w`: `myring`, then `q`, then the NIC queue. -/
def Sys.line (f : Flow) (w : ℕ) (σ : Sys D) : List Packet :=
  f.among (σ.myItems w ++ σ.qItems w ++ σ.rx w)

/-- The packets of the flow that have been sent. -/
def Sys.sent (f : Flow) (σ : Sys D) : List Packet := f.among σ.transmitted

/-- The packets of the flow that arrive with a step. -/
def Flow.arriving (f : Flow) : Act D → List Packet
  | .arrive p => f.among [p]
  | _ => []

/-- What a step that pushes `out` does to the line of the flow. -/
def Sys.LetsPass (f : Flow) (w : ℕ) (new out : List Packet) (σ σ' : Sys D) : Prop :=
  Passes (σ.line f w) new (f.among out) (σ'.line f w)

/-- One piece of a task after another. -/
theorem Sys.LetsPass.trans {σ₁ σ₂ σ₃ : Sys D} {out : List Packet} (h : σ₁.LetsPass f w [] [] σ₂)
    (h' : σ₂.LetsPass f w [] out σ₃) : σ₁.LetsPass f w [] out σ₃ := Passes.trans h h'

/-- A step that pushes nothing. -/
theorem Sys.LetsPass.of_sublist {new : List Packet}
    (h : (σ'.line f w).Sublist (σ.line f w ++ new)) : σ.LetsPass f w new [] σ' := h

/-- A piece that moves no packets lets them stand in line. -/
theorem Sys.LetsPass.of_desk (h : SameDesk w σ σ') : σ.LetsPass f w [] [] σ' := by
  rw [LetsPass, line, line, h.q, h.mine, h.rx]
  exact .refl ..

/-! ## The pieces of a task

`LetsPass` says of a piece of a task which packets of the flow join the line at its end and which
leave it at the front; in between nobody passes. The pieces of a task are put together by
`LetsPass.trans`.
-/

namespace WorkingCore

/-- The transfer routines send nothing. -/
theorem transferR_transmitted : (transferR cfg w σ).transmitted = σ.transmitted :=
  exchange_repointed.transmitted

/-- **`transfer_r`** keeps the line: it exchanges the rings only when `myring` is empty, so that
what was in `q` is at the front then. -/
theorem transferR_letsPass (hc : Calm w σ) (hm : (σ.worker w).myown = false) :
    σ.LetsPass f w [] [] (transferR cfg w σ) := by
  by_cases hq : σ.qItems w = []
  · exact .of_desk (transferR_desk hq)
  · obtain ⟨-, hq', hmine, hrx⟩ := @transferR_of_ne _ cfg σ w hq
    rw [Sys.LetsPass, Sys.line, Sys.line, hq', hmine, hrx, hc.mine hm, List.append_nil,
      List.nil_append]
    exact .refl ..

theorem takeBack_transmitted : (takeBack cfg w σ).transmitted = σ.transmitted := by
  simp only [takeBack]
  split <;> rfl

theorem transferOffloading_transmitted :
    (transferOffloading cfg w σ).transmitted = σ.transmitted :=
  adopt_repointed.transmitted.trans (takeBack_transmitted.trans withdraw_repointed.transmitted)

theorem collect_transmitted (drains : List ℕ) :
    (collect cfg w drains σ).transmitted = σ.transmitted :=
  announce_repointed.transmitted.trans (takeBack_transmitted.trans withdraw_repointed.transmitted)

theorem transferShard_transmitted (drains : List ℕ) :
    (transferShard cfg w drains σ).transmitted = σ.transmitted := by
  have h := @collect_transmitted _ cfg σ w drains
  simp only [transferShard]
  split <;> exact h

/-- Serving the signal sends nothing. -/
theorem serveSignal_transmitted (drains : List ℕ) :
    (serveSignal cfg w drains σ).transmitted = σ.transmitted :=
  serveSignal_rule (P := fun σ' => σ'.transmitted = σ.transmitted) drains
    (fun _ hσ => transferR_transmitted.trans hσ)
    (fun _ hσ _ => transferOffloading_transmitted.trans hσ)
    (fun _ hσ => (transferShard_transmitted drains).trans hσ) (fun _ hσ => hσ) rfl

theorem processChanges_transmitted : (processChanges cfg w σ).transmitted = σ.transmitted := by
  simp only [processChanges]
  split <;> rfl

variable [Double D] (h : Wired cfg σ) (hw : w < cfg.W)

include h hw

/-- **`transfer_offloading`** appends `q` to `myring`, which is where it stands. -/
theorem transferOffloading_letsPass : σ.LetsPass f w [] [] (transferOffloading cfg w σ) := by
  have hd := withdraw_desk (w := w) (σ := σ)
  have hwired := h.stage hw (.withdraw σ)
  have hmine : (transferOffloading cfg w σ).myItems w =
      ((withdraw w σ).ring ((withdraw w σ).worker w).myring).items ++
        (σ.qItems w).take ((withdraw w σ).ring ((withdraw w σ).worker w).myring).free := by
    refine adopt_desk.mine.trans ((takeBack_myItems hwired).trans ?_)
    rw [Fifo.enqueueBurst_items, hd.q]
  rw [← Sys.myItems, hd.mine] at hmine
  refine .of_sublist ?_
  rw [Sys.line, Sys.line, hmine, transferOffloading_qItems h hw, transferOffloading_rx h hw,
    List.append_nil, List.append_nil]
  exact f.among_sublist (((List.take_sublist ..).append_left _).append_right _)

/-- `transfer_shard` puts what it takes from the NIC queue before what was in `q`. -/
theorem transferShard_line (drains : List ℕ) :
    ∃ n n', (transferShard cfg w drains σ).line f w =
      f.among (σ.myItems w) ++ f.among ((rxPrefix cfg w drains σ).take n) ++
        f.among ((σ.qItems w).take n') ++
          f.among ((σ.rx w).drop (rxPrefix cfg w drains σ).length) := by
  have hd := withdraw_desk (w := w) (σ := σ)
  have hwired := h.stage hw (.withdraw σ)
  have hwired' := hwired.stage hw (.receiveAll _ drains)
  have hpre : rxPrefix cfg w drains (withdraw w σ) = rxPrefix cfg w drains σ :=
    rxPrefix_congr drains hd.rx
  have hcollect := announce_desk (w := w)
    (σ := takeBack cfg w (receiveAll cfg w drains (withdraw w σ)))
  have hrx : (transferShard cfg w drains σ).rx w =
      (σ.rx w).drop (rxPrefix cfg w drains σ).length := by
    refine (transferShard_desk drains).rx.trans (hcollect.rx.trans ?_)
    rw [takeBack_rx hwired', receiveAll_rx, hpre, hd.rx]
  have hq : (transferShard cfg w drains σ).qItems w = [] :=
    (transferShard_desk drains).q.trans (collect_qItems h hw drains)
  have hmine := (@transferShard_desk D cfg σ w drains).mine.trans
    (hcollect.mine.trans (takeBack_myItems hwired'))
  rw [Fifo.enqueueBurst_items, ← Sys.myItems, receiveAll_myItems, Fifo.enqueueBurst_items,
    ← Sys.myItems, receiveAll_qItems hwired, hd.mine, hd.q, hpre] at hmine
  obtain ⟨n, n', hmine⟩ : ∃ n n', (transferShard cfg w drains σ).myItems w =
      σ.myItems w ++ (rxPrefix cfg w drains σ).take n ++ (σ.qItems w).take n' := ⟨_, _, hmine⟩
  refine ⟨n, n', ?_⟩
  rw [Sys.line, hmine, hq, hrx, List.append_nil, f.among_append, f.among_append, f.among_append]

omit [Double D] h hw in
/-- What is read of a NIC queue is its front. -/
theorem rxPrefix_append (drains : List ℕ) : rxPrefix cfg w drains σ ++
    (σ.rx w).drop (rxPrefix cfg w drains σ).length = σ.rx w := by
  have hpre : rxPrefix cfg w drains σ <+: σ.rx w := List.take_prefix ..
  exact (congrArg (· ++ _) (List.prefix_iff_eq_take.mp hpre)).trans (List.take_append_drop ..)

/-- `transfer_shard` lets the line pass unless the flow has packets in both places. -/
theorem transferShard_letsPass (drains : List ℕ)
    (hone : f.among (σ.qItems w) = [] ∨ f.among (rxPrefix cfg w drains σ) = []) :
    σ.LetsPass f w [] [] (transferShard cfg w drains σ) := by
  obtain ⟨n, n', hline⟩ := transferShard_line (f := f) h hw drains
  have hold : σ.line f w = f.among (σ.myItems w) ++ f.among (σ.qItems w) ++
      (f.among (rxPrefix cfg w drains σ) ++
        f.among ((σ.rx w).drop (rxPrefix cfg w drains σ).length)) := by
    rw [← f.among_append (rxPrefix cfg w drains σ), rxPrefix_append, Sys.line, f.among_append,
      f.among_append]
  have hfew : (f.among ((rxPrefix cfg w drains σ).take n)).Sublist
      (f.among (rxPrefix cfg w drains σ)) := f.among_sublist (List.take_sublist ..)
  have hfew' : (f.among ((σ.qItems w).take n')).Sublist (f.among (σ.qItems w)) :=
    f.among_sublist (List.take_sublist ..)
  refine .of_sublist ?_
  rw [hline, hold, List.append_nil, List.append_assoc, List.append_assoc, List.append_assoc]
  refine List.Sublist.append_left ?_ _
  rcases hone with hq | hrx
  · rw [hq] at hfew' ⊢
    rw [List.sublist_nil.mp hfew', List.nil_append, List.nil_append]
    exact hfew.append_right _
  · rw [hrx] at hfew ⊢
    rw [List.sublist_nil.mp hfew, List.nil_append, List.nil_append]
    exact hfew'.append_right _

omit h hw in
/-- Serving `transfer_shard` turns packets of the flow around: it puts what it takes from the NIC
queue before the older packets in `q`. -/
def Overtakes (cfg : Cfg) (f : Flow) (w : ℕ) (drains : List ℕ) (σ : Sys D) : Prop :=
  (σ.worker w).myown = false ∧ (σ.controllerSignal w && σ.transferShard w) = true ∧
    σ.transferR w = false ∧ σ.transferOffloading w = false ∧
      f.among (σ.qItems w) ≠ [] ∧ f.among (rxPrefix cfg w drains σ) ≠ []

/-- Before `transfer_shard` runs, the other two routines have emptied `q`, or neither ran. -/
theorem beforeShard_qItems (hc : Calm w σ) (hm : (σ.worker w).myown = false) :
    (beforeShard cfg w σ).qItems w = [] ∨
      σ.transferR w = false ∧ σ.transferOffloading w = false ∧ beforeShard cfg w σ = σ := by
  have hwiredR := ((transferR_serves h hw).opt (σ.transferR w) h).wired
  have hflag : (serveR cfg w σ).transferOffloading w = σ.transferOffloading w :=
    congrFun serveR_kept.2.1 w
  rw [beforeShard, serveOffloading, hflag]
  cases hO : σ.transferOffloading w with
  | true => exact Or.inl (transferOffloading_qItems hwiredR hw)
  | false =>
    rw [if_neg Bool.false_ne_true, serveR]
    cases hR : σ.transferR w with
    | true => exact Or.inl (Fajita.transferR_qItems hc hm)
    | false => exact Or.inr ⟨rfl, rfl, rfl⟩

/-- **Serving the signal** lets the line pass. -/
theorem serveSignal_letsPass (hc : Calm w σ) (hm : (σ.worker w).myown = false) (drains : List ℕ)
    (hno : ¬ Overtakes cfg f w drains σ) : σ.LetsPass f w [] [] (serveSignal cfg w drains σ) := by
  simp only [serveSignal]
  cases hsig : σ.controllerSignal w with
  | false => exact Passes.refl ..
  | true =>
    have hwiredR := ((transferR_serves h hw).opt (σ.transferR w) h).wired
    have hR : σ.LetsPass f w [] [] (serveR cfg w σ) := by
      simp only [serveR]
      split
      · exact transferR_letsPass hc hm
      · exact Passes.refl ..
    have hO : (serveR cfg w σ).LetsPass f w [] [] (beforeShard cfg w σ) := by
      rw [beforeShard, serveOffloading]
      split
      · exact transferOffloading_letsPass hwiredR hw
      · exact Passes.refl ..
    have hS : (beforeShard cfg w σ).LetsPass f w [] []
        (serveShard cfg w drains (beforeShard cfg w σ)) := by
      rw [serveShard, beforeShard_kept.2]
      split
      · next hshard =>
        refine transferShard_letsPass (beforeShard_serves h hw).wired hw drains ?_
        rcases beforeShard_qItems h hw hc hm with hq | ⟨hR, hO, hsame⟩
        · rw [hq]
          exact Or.inl rfl
        · rw [hsame]
          by_contra hboth
          obtain ⟨hq, hrx⟩ := not_or.mp hboth
          exact hno ⟨hm, by rw [hsig, hshard]; rfl, hR, hO, hq, hrx⟩
      · exact Passes.refl ..
    exact (hR.trans hO).trans hS

omit h hw in
/-- The two parts of a batch are in the order of the batch. -/
theorem classify_sublist (cfg : Cfg) (w : ℕ) (epoch : UInt32) (ps : List Packet) :
    ∀ shards : ℕ → ShardInfo D, (classify cfg w epoch ps shards).2.1.Sublist ps ∧
      (classify cfg w epoch ps shards).2.2.Sublist ps := by
  induction ps with
  | nil => exact fun _ => ⟨.refl _, .refl _⟩
  | cons p ps ih =>
    intro shards
    obtain ⟨hout, hoff⟩ := ih (extractState cfg w epoch p shards)
    simp only [classify]
    split
    · exact ⟨hout.cons p, hoff.cons_cons p⟩
    · exact ⟨hout.cons_cons p, hoff.cons p⟩

omit hw in
/-- **A batch** goes one way as far as a flow is concerned: to the output past an empty `q`, or
behind what waits in it. -/
theorem forward_letsPass (hc : Calm w σ) (ready accept : ℕ)
    (hside : Sided cfg (forward cfg w accept (processBatch cfg w ready σ) σ).1) :
    σ.LetsPass f w [] (forward cfg w accept (processBatch cfg w ready σ) σ).2.pushed
      (forward cfg w accept (processBatch cfg w ready σ) σ).1 := by
  cases hm : (σ.worker w).myown with
  | true =>
    rw [processBatch_of_myown ready hm]
    simp only [forward, classify, pushBatch, Sys.enqueueRing, List.take_nil, List.append_nil,
      Fifo.enqueueBurst_nil, Function.update_eq_self, List.length_nil, List.drop_zero]
    exact Passes.refl ..
  | false =>
    obtain ⟨batch, hbatch⟩ : ∃ batch, batch = processBatch cfg w ready σ := ⟨_, rfl⟩
    have hrx : σ.rx w = batch ++ (σ.rx w).drop batch.length := by
      conv_lhs => rw [← List.take_append_drop batch.length (σ.rx w)]
      rw [hbatch, ← processBatch_take]
    rw [← hbatch] at hside ⊢
    obtain ⟨hout, hoff⟩ := classify_sublist cfg w σ.epoch batch σ.shards
    obtain ⟨hsideOut, -⟩ := classify_side cfg w σ.epoch batch σ.shards
    have hq' := @forward_qItems _ cfg σ w _ accept batch
    rw [Fifo.enqueueBurst_items, ← Sys.qItems] at hq'
    have hmine : (forward cfg w accept batch σ).1.myItems w = [] := by
      rw [forward_myItems h, hc.mine hm]
    have hrx' : (forward cfg w accept batch σ).1.rx w = (σ.rx w).drop batch.length :=
      forward_rx accept batch
    have hold : σ.line f w = f.among (σ.qItems w) ++ (f.among batch ++
        f.among ((σ.rx w).drop batch.length)) := by
      rw [← f.among_append batch, ← hrx, Sys.line, hc.mine hm, List.nil_append, f.among_append]
    have hnew : (forward cfg w accept batch σ).1.line f w =
        f.among ((forward cfg w accept batch σ).1.qItems w) ++
          f.among ((σ.rx w).drop batch.length) := by
      rw [Sys.line, hmine, hrx', List.nil_append, f.among_append]
    have hpushed : (forward cfg w accept batch σ).2.pushed =
        (classify cfg w σ.epoch batch σ.shards).2.1 := rfl
    rw [Sys.LetsPass, Passes, hpushed, hold, hnew, List.append_nil]
    by_cases hkept : f.among (classify cfg w σ.epoch batch σ.shards).2.1 = []
    · -- the flow is offloaded
      rw [hkept, List.nil_append, hq', f.among_append, List.append_assoc]
      exact ((f.among_sublist ((List.take_sublist ..).trans hoff)).append_right _).append_left _
    · -- the flow is not offloaded, so it has no packet in `q`
      have hnone : f.among ((forward cfg w accept batch σ).1.qItems w) = [] := by
        obtain ⟨p, hp⟩ := List.exists_mem_of_ne_nil _ hkept
        obtain ⟨hmem, hhas⟩ := List.mem_filter.mp hp
        refine Flow.among_eq_nil.mpr fun p' hp' => Bool.eq_false_iff.mpr fun hhas' => ?_
        obtain ⟨hshard, hflow⟩ := @Flow.shardOf_eq cfg f p' p hhas' hhas
        have hoffloaded := hside w p' hp'
        rw [hshard, hflow] at hoffloaded
        exact absurd (hoffloaded.symm.trans (hsideOut p hmem)) (by decide)
      rw [hnone, List.nil_append]
      exact ((f.among_sublist hout).append_right _).trans (List.sublist_append_right ..)

omit h hw in
/-- A task pushes packets it has looked up. -/
theorem runTask_pushed (inp : TaskInput) :
    (runTask cfg w inp σ).2.pushed.Sublist (runTask cfg w inp σ).2.extracted := by
  simp only [runTask]
  split
  · split
    · exact .refl _
    · exact .refl _
  · exact (classify_sublist ..).1

omit h hw in
/-- What is sent is some of what is pushed. -/
theorem runTask_sent (inp : TaskInput) :
    ∃ sent, (runTask cfg w inp σ).1.transmitted = σ.transmitted ++ sent ∧
      sent.Sublist (runTask cfg w inp σ).2.pushed := by
  have hpart : ∀ batch : List Packet,
      ((batch.take (cfg.outBurst w)).take inp.accept).Sublist batch :=
    fun batch => (List.take_sublist ..).trans (List.take_sublist ..)
  simp only [runTask]
  split
  · split
    · exact ⟨[], (List.append_nil _).symm, .refl _⟩
    · exact ⟨_, rfl, hpart _⟩
  · refine ⟨_, congrArg (· ++ _) ?_, hpart _⟩
    exact processChanges_transmitted.trans (serveSignal_transmitted inp.drains)

end WorkingCore

/-! ## The steps -/

variable [Double D]

/-- Every packet in the rings and in the NIC queue of a core is one that `P` allows there. -/
structure Holding (P : ℕ → Packet → Prop) (σ : Sys D) : Prop where
  /-- in its rings -/
  rings : ∀ v p, InRings σ v p → P v p
  /-- in its NIC queue -/
  rx : ∀ v, ∀ p ∈ σ.rx v, P v p

omit [Double D] in
/-- A packet is put at the end of one NIC queue. -/
theorem arrive_rx (p : Packet) (v : ℕ) : (arrive cfg p σ).rx v =
    if v = σ.rxQueue cfg p then σ.rx v ++ [p] else σ.rx v := by
  by_cases hv : v = σ.rxQueue cfg p
  · rw [if_pos hv, hv]
    exact Function.update_self ..
  · rw [if_neg hv]
    exact Function.update_of_ne hv ..

namespace Holding

variable {P : ℕ → Packet → Prop}

/-- At first there is nothing. -/
theorem init : Holding P (init D cfg) where
  rings _ _ hp := by rcases hp with hp | hp <;> cases hp
  rx _ _ hp := by cases hp

/-- A task moves, and looks up, packets of its core only. -/
theorem runTask (h : Holding P σ) (hwired : Wired cfg σ) (hv : v < cfg.W) {inp : TaskInput}
    (hstrand : ¬ Strands cfg v σ) :
    ∀ p, InRings (runTask cfg v inp σ).1 v p ∨ p ∈ (runTask cfg v inp σ).1.rx v ∨
      p ∈ (runTask cfg v inp σ).2.extracted → P v p := by
  have hmoves := taskMoves hwired hv inp hstrand
  have hhere : ∀ p, InRings σ v p ∨ p ∈ taken cfg v inp σ → P v p := fun p hp =>
    hp.elim (h.rings v p) fun ht => h.rx v p (mem_taken ht)
  rintro p (hp | hp | hp)
  · exact hhere p (hmoves.rings p hp)
  · exact h.rx v p (hmoves.rx p hp)
  · exact hhere p (hmoves.extracted p hp)

/-- **Packets do not change places**: what arrives where it is allowed stays where it is. -/
theorem step (h : Holding P σ) (hwired : Wired cfg σ) {a : Act D}
    (ha : Possible cfg σ a ∧ NoStrand cfg σ a)
    (harrive : ∀ p, a = .arrive p → P (σ.rxQueue cfg p) p) : Holding P (step cfg σ a) := by
  cases a with
  | arrive p =>
    refine ⟨h.rings, fun v p' hp' => ?_⟩
    rw [Fajita.step, arrive_rx] at hp'
    split at hp'
    · next hat =>
      rcases List.mem_append.mp hp' with hp' | hp'
      · exact h.rx v p' hp'
      · rw [List.mem_singleton.mp hp', hat]
        exact harrive p rfl
    · exact h.rx v p' hp'
  | epoch ans vec =>
    have hf := Controller.updateShortEpoch_frame cfg σ ans vec
    refine ⟨fun v p hp => h.rings v p ?_, fun v p hp => h.rx v p ?_⟩
    · rwa [Fajita.step, InRings, Sys.qItems, Sys.myItems, hf.worker, hf.traffic.ring] at hp
    · rwa [Fajita.step, hf.traffic.rx] at hp
  | work v inp =>
    have hl := hwired.runTask_localTo ha.1 inp
    refine ⟨fun u p hp => ?_, fun u p hp => ?_⟩
    · by_cases huv : u = v
      · subst huv
        exact h.runTask hwired ha.1 ha.2 p (Or.inl hp)
      · exact h.rings u p ((hl.inRings hwired huv).mp hp)
    · by_cases huv : u = v
      · subst huv
        exact h.runTask hwired ha.1 ha.2 p (Or.inr (Or.inl hp))
      · rw [Fajita.step, hl.rx u huv] at hp
        exact h.rx u p hp
  | offload e accept =>
    obtain ⟨core, ring, transmitted, lost, heq, hring⟩ := OffloadingCore.runTask_eq cfg e accept σ
    rw [Fajita.step, heq]
    have hsub : ∀ r, ∀ p ∈ (ring r).items, p ∈ (σ.ring r).items := by
      intro r p hp
      obtain ⟨n, hn⟩ := hring r
      rw [hn] at hp
      exact List.mem_of_mem_drop hp
    exact ⟨fun v p hp => h.rings v p (hp.imp (hsub _ p) (hsub _ p)), h.rx⟩

end Holding

/-- The flow is at core `w` only. -/
def OnlyAt (f : Flow) (w : ℕ) (σ : Sys D) : Prop := Holding (fun v p => v ≠ w → f.has p = false) σ

/-- The step keeps the flow at core `w`, and in order. -/
def Keeps (cfg : Cfg) (f : Flow) (w : ℕ) (σ : Sys D) : Act D → Prop
  | .arrive p => f.has p = true → σ.rxQueue cfg p = w
  | .work v inp => v = w → ¬ Overtakes cfg f w inp.drains σ
  | _ => True

/-- **The flow stays with its core**: no step brings one of its packets to another. -/
theorem OnlyAt.step (h : OnlyAt f w σ) (hwired : Wired cfg σ) {a : Act D}
    (ha : Possible cfg σ a ∧ NoStrand cfg σ a) (hk : Keeps cfg f w σ a) :
    OnlyAt f w (step cfg σ a) := by
  refine Holding.step h hwired ha fun p hp hne => ?_
  subst hp
  exact Bool.eq_false_iff.mpr fun hhas => hne (hk hhas)

omit [Double D] in
/-- The rings of a core are `q` and `myring`. -/
theorem Worker.Paired.eq_or {me : Worker} (h : me.Paired w) {r : RingId} (hr : r.core = w) :
    r = me.q ∨ r = me.myring := by
  cases r with
  | ring i =>
    obtain rfl : i = w := hr
    rcases h with ⟨-, hmine⟩ | ⟨hq, -⟩
    · exact Or.inr hmine.symm
    · exact Or.inl hq.symm
  | queue i =>
    obtain rfl : i = w := hr
    rcases h with ⟨hq, -⟩ | ⟨-, hmine⟩
    · exact Or.inl hq.symm
    · exact Or.inr hmine.symm

omit [Double D] in
/-- What is polled from a ring of the core is the front of the line, and in the other rings the
flow is not. -/
theorem OnlyAt.polled (h : OnlyAt f w σ) (hwired : Wired cfg σ) (hc : Calm w σ) {r : RingId} {n : ℕ}
    (hworker : σ'.worker = σ.worker) (hrx : σ'.rx = σ.rx)
    (hring : σ'.ring = Function.update σ.ring r ((σ.ring r).dequeueBurst n).2) :
    (f.among ((σ.ring r).items.take n) ++ σ'.line f w).Sublist (σ.line f w) := by
  have hne := (hwired.pair w).q_ne_myring
  rw [Sys.line, Sys.line, hrx, ← f.among_append]
  by_cases hmine : r = (σ.worker w).myring
  · have hq' : σ'.qItems w = σ.qItems w := by
      rw [Sys.qItems, hworker, hring, hmine, Function.update_of_ne hne, Sys.qItems]
    have hmine' : σ'.myItems w = (σ.myItems w).drop n := by
      rw [Sys.myItems, hworker, hring, hmine, Function.update_self, Fifo.dequeueBurst_items,
        Sys.myItems]
    rw [hq', hmine', hmine, ← Sys.myItems, ← List.append_assoc, ← List.append_assoc,
      List.take_append_drop]
  · have hmine' : σ'.myItems w = σ.myItems w := by
      rw [Sys.myItems, hworker, hring, Function.update_of_ne (Ne.symm hmine), Sys.myItems]
    rw [hmine']
    by_cases hq : r = (σ.worker w).q
    · have hq' : σ'.qItems w = (σ.qItems w).drop n := by
        rw [Sys.qItems, hworker, hring, hq, Function.update_self, Fifo.dequeueBurst_items,
          Sys.qItems]
      rw [hq', hq, ← Sys.qItems]
      cases hm : (σ.worker w).myown with
      | true =>
        rw [hc.queue hm, List.take_nil, List.drop_nil, List.nil_append]
      | false =>
        rw [hc.mine hm, List.nil_append, List.nil_append, ← List.append_assoc,
          List.take_append_drop]
    · have hq' : σ'.qItems w = σ.qItems w := by
        rw [Sys.qItems, hworker, hring, Function.update_of_ne (Ne.symm hq), Sys.qItems]
      have hcore : r.core ≠ w := fun hr =>
        ((hwired.pair w).eq_or hr).elim hq hmine
      have hnone : f.among ((σ.ring r).items.take n) = [] := by
        refine Flow.among_eq_nil.mpr fun p hp => h.rings r.core p ?_ hcore
        have hp' := List.mem_of_mem_take hp
        rcases (hwired.pair r.core).eq_or rfl with hr | hr
        · rw [hr] at hp'
          exact Or.inl hp'
        · rw [hr] at hp'
          exact Or.inr hp'
      rw [hq', f.among_append, hnone, List.nil_append]

omit [Double D] in
/-- A task of an offloading core. -/
theorem OnlyAt.offload (h : OnlyAt f w σ) (hwired : Wired cfg σ) (hc : Calm w σ)
    (e accept : ℕ) : σ.LetsPass f w [] (OffloadingCore.runTask cfg e accept σ).2.pushed
      (OffloadingCore.runTask cfg e accept σ).1 := by
  simp only [OffloadingCore.runTask, OffloadingCore.poll]
  rw [Sys.LetsPass, Passes, List.append_nil]
  split
  · exact .refl _
  · exact h.polled hwired hc rfl rfl rfl

/-- A task on the own ring. -/
theorem OnlyAt.onRing (h : OnlyAt f w σ) (hwired : Wired cfg σ) (hc : Calm w σ) (inp : TaskInput)
    (hm : (σ.worker w).myown = true) :
    σ.LetsPass f w [] (runTask cfg w inp σ).2.pushed (runTask cfg w inp σ).1 := by
  rw [runTask, if_pos hm, Sys.LetsPass, Passes, List.append_nil]
  split
  · have hline : (drained cfg w σ).line f w = σ.line f w := by
      simp [drained, Sys.setWorker, Sys.line, Sys.qItems, Sys.myItems]
    rw [hline]
    exact .refl _
  · exact h.polled hwired hc rfl rfl rfl

/-- **A task of the core itself.** -/
theorem OnlyAt.here (h : OnlyAt f w σ) (hwired : Wired cfg σ) (hw : w < cfg.W) (hc : Calm w σ)
    (hs : Sided cfg σ) (inp : TaskInput) (hk : KeepsAside cfg σ (.work w inp))
    (hno : ¬ Overtakes cfg f w inp.drains σ) :
    σ.LetsPass f w [] (runTask cfg w inp σ).2.pushed (runTask cfg w inp σ).1 := by
  have hside := hs.runTask hwired hw hc inp hk
  cases hm : (σ.worker w).myown with
  | true => exact h.onRing hwired hc inp hm
  | false =>
    have hserves := serveSignal_serves hwired hw inp.drains
    have hsignal := serveSignal_letsPass hwired hw hc hm inp.drains hno
    obtain ⟨hq, hmine, hrx⟩ := processChanges_desk (w := w) hserves.wired
    have hchanges : (serveSignal cfg w inp.drains σ).LetsPass f w [] []
        (beforeReceive cfg w inp σ) := by
      rw [Sys.LetsPass, beforeReceive, Sys.line, Sys.line, hq, hmine, hrx]
      exact .refl ..
    have hcalm : Calm w (beforeReceive cfg w inp σ) := by
      refine (hc.serveSignal hwired hw inp.drains).processChanges hserves.wired fun hm' hslip => ?_
      have hown := Calm.afterProcess_myown hwired hw inp.drains hm hk.1
      rw [processChanges_myown hserves.wired, hm', hslip.1, hslip.2] at hown
      rw [hserves.myown, hm, Bool.false_or, ← hown] at hm'
      cases hm'
    rw [runTask, if_neg (by rw [hm]; exact Bool.false_ne_true)] at hside ⊢
    exact (hsignal.trans hchanges).trans
      (forward_letsPass (beforeReceive_wired hwired hw inp) hcalm inp.rx inp.accept hside)

/-- **Every step lets the line of the flow pass.** -/
theorem OnlyAt.letsPass_step (h : OnlyAt f w σ) (hwired : Wired cfg σ) (hw : w < cfg.W)
    (hc : ∀ v, Calm v σ) (hs : Sided cfg σ) {a : Act D} (hp : Possible cfg σ a)
    (ha : KeepsAside cfg σ a ∧ NoStrand cfg σ a) (hk : Keeps cfg f w σ a) :
    σ.LetsPass f w (f.arriving a) (taskLog cfg σ a).pushed (Fajita.step cfg σ a) := by
  cases a with
  | arrive p =>
    refine .of_sublist ?_
    rw [Flow.arriving, Sys.line, Sys.line, ← f.among_append]
    change (f.among (σ.myItems w ++ σ.qItems w ++ (arrive cfg p σ).rx w)).Sublist _
    rw [arrive_rx]
    split
    · rw [List.append_assoc _ _ [p]]
    · exact f.among_sublist (List.sublist_append_left ..)
  | epoch ans vec =>
    have hf := Controller.updateShortEpoch_frame cfg σ ans vec
    rw [Sys.LetsPass, Fajita.step, Sys.line, Sys.line, Sys.qItems, Sys.qItems, Sys.myItems,
      Sys.myItems, hf.worker, hf.traffic.ring, hf.traffic.rx]
    exact .refl ..
  | work v inp =>
    by_cases hv : v = w
    · subst hv
      exact h.here hwired hw (hc v) hs inp ha.1 (hk rfl)
    · have hl := hwired.runTask_localTo hp inp
      have hnone : f.among (runTask cfg v inp σ).2.pushed = [] :=
        Flow.among_eq_nil.mpr fun p hps => Holding.runTask h hwired hp ha.2 p
          (Or.inr (Or.inr ((runTask_pushed inp).subset hps))) hv
      have hwv : w ≠ v := fun h => hv h.symm
      rw [Sys.LetsPass, taskLog, hnone, Fajita.step, Sys.line, Sys.line,
        hl.qItems hwv (hwired.pair w), hl.myItems hwv (hwired.pair w), hl.rx w hwv]
      exact .refl ..
  | offload e accept => exact h.offload hwired (hc w) e accept

/-! ## Runs -/

/-- At first nothing waits. -/
theorem sided_init : Sided cfg (init D cfg) := fun _ _ hp => by cases hp

/-- The packets of the flow that arrive in a run. -/
def Flow.arrived (f : Flow) (acts : List (Act D)) : List Packet := acts.flatMap f.arriving

/-- The condition on the steps of a run. -/
def InLine (cfg : Cfg) (f : Flow) (w : ℕ) (σ : Sys D) (a : Act D) : Prop :=
  (Possible cfg σ a ∧ KeepsAside cfg σ a) ∧ Keeps cfg f w σ a

/-- The condition contains that no task strands packets. -/
theorem InLine.noStrand {a : Act D} (h : InLine cfg f w σ a) : NoStrand cfg σ a := by
  obtain ⟨⟨-, hk⟩, -⟩ := h
  cases a with
  | work v inp => exact hk.1
  | arrive | epoch | offload => trivial

omit [Double D] in
/-- The arrivals of a run, as a history. -/
theorem history_arriving (step : Sys D → Act D → Sys D) (acts : List (Act D)) :
    ∀ σ, history step (fun _ a => f.arriving a) σ acts = f.arrived acts := by
  induction acts with
  | nil => exact fun _ => rfl
  | cons a acts ih => exact fun σ => congrArg (f.arriving a ++ ·) (ih _)

/-- The packets of the flow that are pushed in a run. -/
def Flow.pushed (cfg : Cfg) (f : Flow) : Sys D → List (Act D) → List Packet :=
  history (step cfg) fun σ a => f.among (taskLog cfg σ a).pushed

/-- What has been sent has been pushed. -/
theorem sent_sublist (cfg : Cfg) (f : Flow) (acts : List (Act D)) : ∀ σ : Sys D,
    ∃ sent, (runFrom (step cfg) σ acts).sent f = σ.sent f ++ sent ∧
      sent.Sublist (f.pushed cfg σ acts) := by
  induction acts with
  | nil => exact fun σ => ⟨[], (List.append_nil _).symm, .refl _⟩
  | cons a acts ih =>
    intro σ
    obtain ⟨sent, hsent, hsub⟩ : ∃ sent, (step cfg σ a).transmitted = σ.transmitted ++ sent ∧
        sent.Sublist (taskLog cfg σ a).pushed := by
      cases a with
      | arrive p => exact ⟨[], (List.append_nil _).symm, .refl _⟩
      | epoch ans vec =>
        have hf := Controller.updateShortEpoch_frame cfg σ ans vec
        exact ⟨[], hf.traffic.transmitted.trans (List.append_nil _).symm, .refl _⟩
      | work v inp => exact runTask_sent inp
      | offload e accept =>
        simp only [step, taskLog, OffloadingCore.runTask, OffloadingCore.poll]
        split
        · exact ⟨[], (List.append_nil _).symm, .refl _⟩
        · exact ⟨_, rfl, (List.take_sublist ..).trans (List.take_sublist ..)⟩
    obtain ⟨sent', hsent', hsub'⟩ := ih (step cfg σ a)
    refine ⟨f.among sent ++ sent', ?_, (f.among_sublist hsub).append hsub'⟩
    rw [runFrom_cons, hsent', Sys.sent, Sys.sent, hsent, f.among_append, List.append_assoc]

/-- What is pushed of a flow, and behind it what waits, is in the order of arrival. -/
theorem pushes_in_order {acts : List (Act D)} (hw : w < cfg.W)
    (hC : Along (step cfg) (InLine cfg f w) (init D cfg) acts) :
    (f.pushed cfg (init D cfg) acts ++
      (runFrom (step cfg) (init D cfg) acts).line f w).Sublist (f.arrived acts) := by
  have hrun := @Passes.run _ _ _ (step cfg)
    (fun σ => Wired cfg σ ∧ (∀ v, Calm v σ) ∧ Sided cfg σ ∧ OnlyAt f w σ) (InLine cfg f w)
    (Sys.line f w) (fun _ a => f.arriving a) (fun σ a => f.among (taskLog cfg σ a).pushed)
    (fun σ a ⟨hwired, hc, hs, h⟩ ha => ⟨hwired.step ha.1.1, Calm.step hc hwired ha.1.1 ha.noStrand,
      hs.step hwired hc ha.1.1 ha.1.2, h.step hwired ⟨ha.1.1, ha.noStrand⟩ ha.2⟩)
    (fun σ a ⟨hwired, hc, hs, h⟩ ha =>
      h.letsPass_step hwired hw hc hs ha.1.1 ⟨ha.1.2, ha.noStrand⟩ ha.2)
    (init D cfg) acts ⟨wired_init, fun _ => ⟨fun _ => rfl, fun _ => rfl⟩, sided_init, Holding.init⟩
    hC
  rw [history_arriving] at hrun
  exact hrun

/-- **A flow stays in order.** In every run in which the packets of a flow arrive at core `w`,
epochs and ratios leave waiting packets on their side, and `transfer_shard` does not turn the flow
around: what has been sent of the flow, by its core or by offloading cores, and behind it what waits
in `myring`, in `q` and in the NIC queue, is in the order of arrival, each packet at most once. -/
theorem flow_in_order {acts : List (Act D)} (hw : w < cfg.W)
    (hC : Along (step cfg) (InLine cfg f w) (init D cfg) acts) :
    ((runFrom (step cfg) (init D cfg) acts).sent f ++
      (runFrom (step cfg) (init D cfg) acts).line f w).Sublist (f.arrived acts) := by
  obtain ⟨sent, hsent, hsub⟩ := sent_sublist cfg f acts (init D cfg)
  have hnil : (init D cfg).sent f = [] := rfl
  rw [hsent, hnil, List.nil_append]
  exact (hsub.append_right _).trans (pushes_in_order hw hC)

/-! ## A run -/

omit [Double D] in
instance (drains : List ℕ) (σ : Sys D) : Decidable (Overtakes cfg f w drains σ) :=
  inferInstanceAs (Decidable (_ ∧ _ ∧ _ ∧ _ ∧ _ ≠ _ ∧ _ ≠ _))

omit [Double D] in
instance (σ : Sys D) : DecidablePred (Keeps cfg f w σ)
  | .arrive p => inferInstanceAs (Decidable (f.has p = true → σ.rxQueue cfg p = w))
  | .work v inp => inferInstanceAs (Decidable (v = w → ¬ Overtakes cfg f w inp.drains σ))
  | .epoch _ _ => isTrue trivial
  | .offload _ _ => isTrue trivial

instance (σ : Sys D) : DecidablePred (InLine cfg f w σ) := fun _ =>
  inferInstanceAs (Decidable ((_ ∧ _) ∧ _))

namespace Small

/-- The flow of the packets with hash 0. -/
def flowZero : Flow := ⟨(packet 0 0).flow, 0⟩

/-- Half of shard 0 is offloaded: the offloading core sends a packet; then nothing is to be
offloaded any more, and a second packet comes back and is sent by its own core before a third. -/
def offloadAndBack : List (Act ℚ) :=
  [.epoch (some (answer id (fun _ => 0) fun _ => 1 / 2)) fun _ => [], .work 0 (task 1),
    .arrive (packet 1 0), .work 0 (task 1), .offload 0 1, .arrive (packet 2 0), .work 0 (task 1),
    .epoch (some (answer id (fun _ => 0) fun _ => 0))
      fun s => if s = 0 then [(packet 1 0).flow] else [],
    .arrive (packet 3 0), .work 0 (task 1), .work 0 (task 1), .work 0 (task 1), .work 0 (task 1)]

theorem offloadAndBack_in_order :
    ((runFrom (step (router 1)) (init ℚ (router 1)) offloadAndBack).sent flowZero ++
      (runFrom (step (router 1)) (init ℚ (router 1)) offloadAndBack).line flowZero 0).Sublist
        [packet 1 0, packet 2 0, packet 3 0] :=
  flow_in_order (w := 0) (by decide) (by decide +kernel)

example : (runFrom (step (router 1)) (init ℚ (router 1)) offloadAndBack).sent flowZero =
    [packet 1 0, packet 2 0, packet 3 0] := by decide +kernel

end Small

end Fajita
