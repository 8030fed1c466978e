import Fajita.FlowOrder
import Fajita.Relation
import Fajita.RoundRobin
import Fajita.Standing

/-!
# Offloaded packets do not starve

An offloading core polls its rings in turn, one a task, with a counter that wraps. Meanwhile its
working cores swap their rings for others, which go to the end of its list, and put more packets
into them. Still no packet waits for ever (`offloaded_leaves`): while the relation between the cores
stays as it is, a packet in `q` is polled, or brought home by its core, before the offloading core
has done `2 * n * n` tasks for each packet in `q` and once more, `n` being the number of working
cores that share it.

What carries this is a score of three counts. The packets up to this one only get fewer; the place
of its ring in the list only moves to the front; and the counter comes by.
-/

namespace Fajita

open Finset (range)

variable {D : Type} {cfg : Cfg} {σ σ' : Sys D} {w e : ℕ} {p : Packet}

open WorkingCore

/-- The working cores that share an offloading core from the start. -/
def users (cfg : Cfg) (e : ℕ) : Finset ℕ :=
  (range cfg.W).filter fun w => Init.offloadingFromWorking cfg w = e

/-- The users of an offloading core are the working cores that start with it. -/
theorem mem_users : w ∈ users cfg e ↔ w < cfg.W ∧ Init.offloadingFromWorking cfg w = e := by
  rw [users, Finset.mem_filter, Finset.mem_range]

theorem offloadingFromWorking_lt (hE : 0 < cfg.E) (hw : w < cfg.W) :
    Init.offloadingFromWorking cfg w < cfg.E := by
  rw [Init.offloadingFromWorking, if_pos hw, if_pos (Nat.ne_of_gt hE)]
  exact Nat.mod_lt w hE

theorem users_lt (hw : w ∈ users cfg e) (hE : 0 < cfg.E) : w < cfg.W ∧ e < cfg.E := by
  obtain ⟨hlt, rfl⟩ := mem_users.mp hw
  exact ⟨hlt, offloadingFromWorking_lt hE hlt⟩

/-- An offloading core has no more users than the counter can count. -/
theorem users_card_le (cfg : Cfg) (e : ℕ) : (users cfg e).card ≤ 2 ^ 32 := by
  have hle : (users cfg e).card ≤ cfg.W :=
    (Finset.card_filter_le ..).trans_eq (Finset.card_range cfg.W)
  have hcores := cfg.cores_le
  omega

/-! ## What a task does to the requests

A task of a working core takes its ring out of the list of its offloading core and puts one of its
rings at the end. The other rings keep their order and move to the front.
-/

/-- The requests of core `w` bring its own rings to the end of the lists, and the others nearer to
the front. -/
structure Reposts (w : ℕ) (σ σ' : Sys D) : Prop where
  /-- only its own rings are added -/
  added : ∀ e, ∀ r ∈ σ'.pending e, r ∈ σ.pending e ∨ r.core = w
  /-- the rings of the others stay -/
  kept : ∀ e r, r.core ≠ w → r ∈ σ.pending e → r ∈ σ'.pending e
  /-- and get no later turn -/
  nearer : ∀ e r, r.core ≠ w → r ∈ σ.pending e →
    (σ'.pending e).idxOf r ≤ (σ.pending e).idxOf r

namespace Reposts

variable {σ₁ σ₂ σ₃ : Sys D}

/-- Where no pending ring changes, all rings keep their places. -/
theorem of_pending (h : ∀ e, σ'.pending e = σ.pending e) : Reposts w σ σ' where
  added e r hr := Or.inl (by rwa [h] at hr)
  kept e r _ hr := by rwa [h]
  nearer e r _ _ := by rw [h]

theorem of_mail (h : SameMail σ σ') : Reposts w σ σ' := of_pending h.pending

/-- Two stretches of a task, one after the other. -/
theorem trans (h : Reposts w σ₁ σ₂) (h' : Reposts w σ₂ σ₃) : Reposts w σ₁ σ₃ where
  added e r hr := (h'.added e r hr).elim (h.added e r) Or.inr
  kept e r hw hr := h'.kept e r hw (h.kept e r hw hr)
  nearer e r hw hr := (h'.nearer e r hw (h.kept e r hw hr)).trans (h.nearer e r hw hr)

/-- A core may post a removal of one of its own rings. -/
theorem postRemove (i : ℕ) {r' : RingId} (hr' : r'.core = w) : Reposts w σ (σ.postRemove i r') := by
  refine ⟨fun e r hr => ?_, fun e r hw hr => mem_pending_postRemove hr fun h => hw (h ▸ hr'),
    fun e r hw hr => ?_⟩
  · rw [pending_postRemove] at hr
    split at hr
    · exact Or.inl (List.mem_of_mem_filter hr)
    · exact Or.inl hr
  · rw [pending_postRemove]
    split
    · exact idxOf_filter_le fun h => hw (h ▸ hr')
    · exact le_refl _

/-- A core may post an addition of one of its own rings. -/
theorem postAdd (i : ℕ) {r' : RingId} (hr' : r'.core = w) : Reposts w σ (σ.postAdd i r') := by
  refine ⟨fun e r hr => ?_, fun e r _ hr => mem_pending_postAdd hr, fun e r _ hr => ?_⟩
  · rw [pending_postAdd] at hr
    split at hr
    · rcases List.mem_append.mp hr with hr | hr
      · exact Or.inl hr
      · exact Or.inr (by rw [List.mem_singleton.mp hr, hr'])
    · exact Or.inl hr
  · rw [pending_postAdd]
    split
    · rw [List.idxOf_append_of_mem hr]
    · exact le_refl _

/-- Every stage of a task posts requests for the core's own rings only. -/
theorem stage [Double D] (h : Wired cfg σ) (hs : Stage cfg w σ σ') : Reposts w σ σ' := by
  have hq : (σ.worker w).q.core = w := (h.pair w).q_core
  have hmine : (σ.worker w).myring.core = w := (h.pair w).myring_core
  cases hs with
  | takeBack => exact of_mail takeBack_sameMail
  | receiveAll drains => exact of_mail (receiveAll_sameMail drains)
  | processChanges => exact of_mail processChanges_sameMail
  | drained => exact of_mail drained_sameMail
  | exchange =>
    simp only [WorkingCore.exchange]
    split
    · exact ((postRemove (σ.worker w).offloadingIdx hq).trans
        (postAdd (σ.worker w).offloadingIdx hmine)).trans (of_pending fun _ => rfl)
    · exact of_pending fun _ => rfl
  | withdraw =>
    simp only [WorkingCore.withdraw]
    split
    · exact postRemove _ hq
    · exact of_pending fun _ => rfl
  | announce =>
    simp only [WorkingCore.announce]
    split
    · exact postAdd _ hq
    · exact of_pending fun _ => rfl
  | adopt =>
    simp only [WorkingCore.adopt]
    split
    · exact (postAdd (σ.newOffloadingFromWorking w) hq).trans (of_pending fun _ => rfl)
    · exact of_pending fun _ => rfl
  | takeRatios | releaseAll | doneR | doneOffloading | doneShard | doneSignal | forward
  | workOff => exact of_pending fun _ => rfl

/-- A task posts requests for the core's own rings only. -/
theorem runTask [Double D] (h : Wired cfg σ) (hw : w < cfg.W) (inp : TaskInput) :
    Reposts w σ (runTask cfg w inp σ).1 :=
  (h.runTask_inv (P := Reposts w σ) hw (fun _ _ hσ hr hs => hr.trans (stage hσ hs))
    (of_pending fun _ => rfl) inp).2

end Reposts

/-! ## Who shares an offloading core

As long as the relation stays, the rings pending at an offloading core are one for each working core
that shares it. So the length of the list, which the counter is taken modulo, is constant whenever
it is polled after a drain.
-/

variable [Double D]

/-- The epoch asks for the relation in force. -/
def KeepsRelation (cfg : Cfg) (σ : Sys D) : Act D → Prop
  | .epoch ans _ => ∀ e < cfg.totalCores, ∀ w < cfg.totalCores,
    σ.O e w = Controller.askedO cfg ans σ e w
  | _ => True

/-- The condition on the steps of a run. -/
def InTurn (cfg : Cfg) (σ : Sys D) (a : Act D) : Prop :=
  (Possible cfg σ a ∧ NoStrand cfg σ a) ∧ (Roomy σ a ∧ KeepsOrder σ a) ∧ KeepsRelation cfg σ a

/-- Each offloading core is left with the rings of the working cores that share it. -/
structure Sharing (cfg : Cfg) (σ : Sys D) : Prop where
  /-- the rings are wired -/
  wired : Wired cfg σ
  /-- the cores are calm -/
  calm : ∀ v, Calm v σ
  /-- the requests are in the control rings -/
  mailed : Mailed σ
  /-- the offloading cores poll rings in use -/
  polled : Polled cfg σ
  /-- the relation has not changed -/
  standing : Standing cfg σ
  /-- the working cores are tied to their offloading cores -/
  ties : ∀ w < cfg.W, Ties w (Init.offloadingFromWorking cfg w) σ
  /-- only working cores have rings there -/
  cores : ∀ e < cfg.E, ∀ r ∈ σ.pending e, r.core < cfg.W

namespace Sharing

/-- At the start the pending rings are those of the users. -/
theorem init (hE : 0 < cfg.E) : Sharing cfg (Fajita.init D cfg) where
  wired := wired_init
  calm _ := ⟨fun _ => rfl, fun _ => rfl⟩
  mailed := .init
  polled := .init
  standing := .init
  ties w hw := by
    obtain ⟨e, -, ht⟩ := (@tied_init D cfg _ hE).ties w hw
    obtain rfl : Init.offloadingFromWorking cfg w = e := (ht.settled rfl).1
    exact ht
  cores e _ r hr := by
    obtain ⟨i, hi, -, rfl⟩ := ((Polled.init_pending (Nat.ne_of_gt hE) e).2 r).mp hr
    exact hi

variable (h : Sharing cfg σ)

include h

omit [Double D] in
/-- The ring of a working core is with its offloading core. -/
theorem q_mem (hw : w < cfg.W) :
    (σ.worker w).q ∈ σ.pending (Init.offloadingFromWorking cfg w) :=
  ((h.ties w hw).settled (h.standing.told w)).2

omit [Double D] in
/-- The pending rings are the rings in use of the users. -/
theorem mem_pending_iff (he : e < cfg.E) {r : RingId} :
    r ∈ σ.pending e ↔ ∃ w ∈ users cfg e, (σ.worker w).q = r := by
  constructor
  · intro hr
    obtain ⟨w, rfl, hidx⟩ := h.polled.inUse e he r hr
    have hw := h.cores e he _ hr
    rw [(h.wired.pair w).q_core] at hw
    exact ⟨w, mem_users.mpr ⟨hw, (h.standing.offloadingIdx w).symm.trans hidx⟩, rfl⟩
  · rintro ⟨w, hw, rfl⟩
    obtain ⟨hlt, rfl⟩ := mem_users.mp hw
    exact h.q_mem hlt

omit [Double D] in
/-- An offloading core has as many rings as working cores share it. -/
theorem length_pending (he : e < cfg.E) : (σ.pending e).length = (users cfg e).card := by
  have himage : (σ.pending e).toFinset = (users cfg e).image fun w => (σ.worker w).q := by
    ext r
    rw [List.mem_toFinset, h.mem_pending_iff he, Finset.mem_image]
  rw [← List.toFinset_card_of_nodup (h.polled.nodup e he), himage,
    Finset.card_image_of_injOn fun w _ v _ hq => h.wired.q_inj hq]

omit [Double D] h in
variable (cfg) in
/-- A drain in order leaves the requests as they are. -/
theorem pending_offload (hm : Mailed σ) {e' accept : ℕ} (hr : Roomy σ (.offload e' accept))
    (hk : KeepsOrder σ (.offload e' accept)) (e : ℕ) :
    (OffloadingCore.runTask cfg e' accept σ).1.pending e = σ.pending e := by
  rw [OffloadingCore.runTask_pending]
  split
  · next he => rw [he, (OffloadingCore.control_Q_iff hm hr).mpr hk]
  · rfl

/-- Epochs that keep the relation post nothing about the rings in use. -/
theorem pending_epoch {ans : Option (Answer D)} {vec : ℕ → List FlowKey}
    (hk : KeepsRelation cfg σ (.epoch ans vec)) (he : e < cfg.E) :
    (Controller.updateShortEpoch cfg ans vec σ).pending e = σ.pending e := by
  have hf := Controller.updateShortEpoch_frame cfg σ ans vec
  have hr := Controller.updateShortEpoch_related cfg σ ans vec
  obtain ⟨rs, hrs, hlose⟩ := hr.posted e
  rw [Sys.pending, hf.core, hrs, Request.inOrder_append, Request.inOrder_removes, ← Sys.pending]
  refine List.filter_eq_self.mpr fun r hr => ?_
  rw [decide_eq_true_eq]
  intro hmem
  -- the ring would belong to a core that loses `e`
  obtain ⟨v, ⟨hone, hzero⟩, hq⟩ := hlose r hmem
  have hv := h.cores e he r hr
  rw [hq, h.wired.queues v, (h.wired.pair v).q_core] at hv
  rw [← hk e (Nat.lt_add_left cfg.W he) v (Nat.lt_add_right cfg.E hv), hone] at hzero
  cases hzero

/-- **The sharing of an offloading core** is kept by the steps that leave the relation alone. -/
theorem step (hE : 0 < cfg.E) {a : Act D} (ha : InTurn cfg σ a) : Sharing cfg (step cfg σ a) := by
  obtain ⟨⟨hp, hno⟩, ⟨hr, hk⟩, hkeep⟩ := ha
  have hwired := h.wired.step hp
  have hcalm := Calm.step h.calm h.wired hp hno
  have hmailed := h.mailed.step h.wired hp
  have hpolled := h.polled.step h.wired h.mailed hp hr hk
  cases a with
  | arrive p =>
    have hs := h.standing
    exact ⟨hwired, hcalm, hmailed, hpolled,
      ⟨hs.O, hs.told, hs.newOffloading, hs.offloadingIdx, hs.polled, hs.added⟩,
      fun w hw => (h.ties w hw).of_same (.of_worker rfl rfl rfl rfl rfl rfl) rfl, h.cores⟩
  | epoch ans vec =>
    have hf := Controller.updateShortEpoch_frame cfg σ ans vec
    have hstanding : Standing cfg (Controller.updateShortEpoch cfg ans vec σ) :=
      h.standing.epoch hkeep
    refine ⟨hwired, hcalm, hmailed, hpolled, hstanding, fun w hw => ⟨fun _ => ?_, fun htold => ?_⟩,
      fun e he r hr => ?_⟩
    · refine ⟨hstanding.offloadingIdx w, ?_⟩
      rw [Fajita.step, h.pending_epoch hkeep (offloadingFromWorking_lt hE hw), hf.worker]
      exact h.q_mem hw
    · exact absurd htold (by rw [Fajita.step, hstanding.told w]; exact Bool.false_ne_true)
    · rw [Fajita.step, h.pending_epoch hkeep he] at hr
      exact h.cores e he r hr
  | work v inp =>
    have hreposts := Reposts.runTask h.wired hp inp
    refine ⟨hwired, hcalm, hmailed, hpolled, ?_, fun w hw => ?_, fun e he r hr => ?_⟩
    · exact (h.wired.runTask_inv (P := Standing cfg) hp
        (fun _ _ hwired hσ hs => hσ.stage hwired hp hs) h.standing inp).2
    · by_cases hwv : w = v
      · subst hwv
        exact runTask_ties (h.ties w hw) (offloadingFromWorking_lt hE hw) inp
      · exact runTask_ties_of_ne (h.ties w hw) h.wired hp hwv inp
    · rcases hreposts.added e r hr with hr | hr
      · exact h.cores e he r hr
      · rw [hr]
        exact hp
  | offload e' accept =>
    obtain ⟨core, ring, transmitted, lost, heq, -⟩ := OffloadingCore.runTask_eq cfg e' accept σ
    have hpending := pending_offload cfg h.mailed hr hk
    refine ⟨hwired, hcalm, hmailed, hpolled, h.standing.offload e' accept, fun w hw => ?_,
      fun e he r hr => ?_⟩
    · refine ⟨fun htold => ?_, fun htold => ?_⟩
      · rw [Fajita.step, hpending, heq]
        rw [Fajita.step, heq] at htold
        exact (h.ties w hw).settled htold
      · rw [Fajita.step, heq] at htold ⊢
        exact (h.ties w hw).told htold
    · rw [Fajita.step, hpending] at hr
      exact h.cores e he r hr

end Sharing

/-! ## How the packet moves on

Three numbers, in this order: the packets up to the one in question, the place of its ring, and the
rounds until the counter comes to that place. While the packet waits no step of the system raises
the score, and a task of the offloading core lowers it.
-/

/-- The packet waits in `q` of core `w`, and is not in the NIC queue any more. -/
structure Waits (p : Packet) (w : ℕ) (σ : Sys D) : Prop where
  /-- it is in `q` -/
  q : p ∈ σ.qItems w
  /-- and cannot get there again -/
  rx : p ∉ σ.rx w

/-- The place of the ring of core `w` in the list of the offloading core `e`. -/
def Sys.place (e w : ℕ) (σ : Sys D) : ℕ := (σ.pending e).idxOf (σ.worker w).q

namespace WorkingCore

/-- Serving the signal empties `q`, or leaves the requests as they are. -/
theorem serveSignal_stays (h : Wired cfg σ) (hw : w < cfg.W) (hc : Calm w σ)
    (hm : (σ.worker w).myown = false) (htold : σ.transferOffloading w = false)
    (drains : List ℕ) : (serveSignal cfg w drains σ).qItems w = [] ∨
      SameMail σ (serveSignal cfg w drains σ) ∧
        (serveSignal cfg w drains σ).qItems w = σ.qItems w := by
  have hblock : (serveShard cfg w drains (beforeShard cfg w σ)).qItems w = [] ∨
      SameMail σ (serveShard cfg w drains (beforeShard cfg w σ)) ∧
        (serveShard cfg w drains (beforeShard cfg w σ)).qItems w = σ.qItems w := by
    have hbefore : beforeShard cfg w σ = serveR cfg w σ := by
      have hflag : (serveR cfg w σ).transferOffloading w = σ.transferOffloading w :=
        congrFun serveR_kept.2.1 w
      rw [beforeShard, serveOffloading, hflag, htold, if_neg Bool.false_ne_true]
    have hwired := (beforeShard_serves h hw).wired
    rw [serveShard]
    split
    · exact Or.inl ((transferShard_desk drains).q.trans (collect_qItems hwired hw drains))
    · rw [hbefore, serveR]
      split
      · exact Or.inl (Fajita.transferR_qItems hc hm)
      · exact Or.inr ⟨.refl σ, rfl⟩
  simp only [serveSignal]
  split
  · obtain hnil | ⟨hsame, hq⟩ := hblock
    · exact Or.inl hnil
    · exact Or.inr ⟨hsame.trans (.of_worker rfl rfl rfl rfl rfl rfl), hq⟩
  · exact Or.inr ⟨.refl σ, rfl⟩

end WorkingCore

namespace Sharing

variable (h : Sharing cfg σ)

include h

/-- A packet that a task of its core leaves in `q` is where it was. -/
theorem stays (hw : w < cfg.W) {inp : TaskInput} (hno : ¬ Strands cfg w σ) (hp : Waits p w σ)
    (hp' : p ∈ (runTask cfg w inp σ).1.qItems w) : SameMail σ (runTask cfg w inp σ).1 ∧
      depth p ((runTask cfg w inp σ).1.qItems w) = depth p (σ.qItems w) := by
  have hm : (σ.worker w).myown = false := by
    refine Bool.eq_false_iff.mpr fun hm => ?_
    have hq := hp.q
    rw [(h.calm w).queue hm] at hq
    cases hq
  have hrun : (runTask cfg w inp σ).1 = (forward cfg w inp.accept
      (processBatch cfg w inp.rx (beforeReceive cfg w inp σ)) (beforeReceive cfg w inp σ)).1 := by
    rw [runTask, if_neg (by rw [hm]; exact Bool.false_ne_true)]
    rfl
  have hserves := serveSignal_serves h.wired hw inp.drains
  obtain ⟨hq, -, -⟩ := processChanges_desk (w := w) hserves.wired
  obtain ⟨off, hoff, hnew⟩ : ∃ off, p ∉ off ∧ (runTask cfg w inp σ).1.qItems w =
      (serveSignal cfg w inp.drains σ).qItems w ++ off := by
    rw [hrun, forward_qItems, Fifo.enqueueBurst_items, ← Sys.qItems]
    refine ⟨_, fun hmem => ?_, congrArg (· ++ _) (by rw [beforeReceive, hq])⟩
    -- what is put into `q` comes from the NIC
    have hin := mem_classify_off w _ _ _ (List.mem_of_mem_take hmem)
    exact hp.rx (mem_taken (batch_taken h.wired hw inp hm hno hin))
  rw [hnew] at hp' ⊢
  rcases serveSignal_stays h.wired hw (h.calm w) hm (h.standing.told w) inp.drains with
    hnil | ⟨hsame, hkept⟩
  · rw [hnil, List.nil_append] at hp'
    exact absurd hp' hoff
  · rw [depth_append hoff, hkept, hrun]
    exact ⟨(hsame.trans processChanges_sameMail).trans (.of_worker rfl rfl rfl rfl rfl rfl), rfl⟩

end Sharing

namespace OffloadingCore

omit [Double D] in
/-- An offloading core takes packets from the front of the ring that it chooses, and pushes them. -/
theorem runTask_qItems (cfg : Cfg) (e accept w : ℕ) (σ : Sys D) :
    (choose ((control e σ).core e) = some (σ.worker w).q ∧
      (runTask cfg e accept σ).1.qItems w = (σ.qItems w).drop (cfg.coreBurst e) ∧
        (runTask cfg e accept σ).2.pushed = (σ.qItems w).take (cfg.coreBurst e)) ∨
    choose ((control e σ).core e) ≠ some (σ.worker w).q ∧
      (runTask cfg e accept σ).1.qItems w = σ.qItems w := by
  simp only [runTask, poll]
  split
  · next hnone =>
    refine Or.inr ⟨?_, rfl⟩
    rw [hnone]
    exact (Option.some_ne_none _).symm
  · next r hsome =>
    by_cases hr : r = (σ.worker w).q
    · subst hr
      refine Or.inl ⟨hsome, ?_, rfl⟩
      simp [pushBatch, control, Sys.qItems, Fifo.dequeueBurst_items]
    · refine Or.inr ⟨fun h => hr (Option.some.inj (hsome.symm.trans h)), ?_⟩
      simp [pushBatch, control, Sys.qItems, Function.update_of_ne (Ne.symm hr)]

omit [Double D] in
/-- An offloading core leaves the other offloading cores alone. -/
theorem runTask_core_of_ne {e' accept : ℕ} (hne : e ≠ e') :
    (runTask cfg e' accept σ).1.core e = σ.core e := by
  simp only [runTask, poll]
  split
  · simp [control, Function.update_of_ne hne]
  · simp [pushBatch, control, Function.update_of_ne hne]

end OffloadingCore

namespace Sharing

variable (h : Sharing cfg σ)

include h

omit [Double D] in
/-- The place of a ring is less than the number of users. -/
theorem place_lt (he : e < cfg.E) (hw : w ∈ users cfg e) : σ.place e w < (users cfg e).card := by
  rw [← h.length_pending he]
  exact List.idxOf_lt_length_of_mem ((h.mem_pending_iff he).mpr ⟨w, hw, rfl⟩)

omit [Double D] in
/-- It is the turn of core `w` when the counter is at its place. -/
theorem choose_iff (he : e < cfg.E) (hw : w ∈ users cfg e) {accept : ℕ}
    (hr : Roomy σ (.offload e accept)) (hk : KeepsOrder σ (.offload e accept)) :
    OffloadingCore.choose ((OffloadingCore.control e σ).core e) = some (σ.worker w).q ↔
      (σ.core e).count.toNat % (users cfg e).card = σ.place e w := by
  have hQ := (OffloadingCore.control_Q_iff h.mailed hr).mpr hk
  have hcount : ((OffloadingCore.control e σ).core e).count = (σ.core e).count := by
    simp only [OffloadingCore.control, Function.update_self]
  rw [OffloadingCore.choose, hQ, hcount, h.length_pending he]
  exact getElem?_eq_some_iff_idxOf (h.polled.nodup e he)
    ((h.mem_pending_iff he).mpr ⟨w, hw, rfl⟩)

omit [Double D] in
/-- A core with a ring polls one. -/
theorem count_offload (he : e < cfg.E) (hw : w ∈ users cfg e) {accept : ℕ}
    (hr : Roomy σ (.offload e accept)) (hk : KeepsOrder σ (.offload e accept)) :
    ((OffloadingCore.runTask cfg e accept σ).1.core e).count = (σ.core e).count + 1 := by
  have hQ := (OffloadingCore.control_Q_iff h.mailed hr).mpr hk
  have hpos : 0 < (σ.pending e).length := by
    rw [h.length_pending he]
    exact Finset.card_pos.mpr ⟨w, hw⟩
  simp only [OffloadingCore.runTask, OffloadingCore.poll]
  split
  · next hnone =>
    rw [OffloadingCore.choose, hQ, List.getElem?_eq_none_iff] at hnone
    exact absurd (Nat.mod_lt _ hpos) (Nat.not_lt.mpr hnone)
  · simp [pushBatch, OffloadingCore.control]

end Sharing

/-- How many tasks of `e` it takes at most until the packet is gone from `q` of core `w`. -/
noncomputable def toGo (cfg : Cfg) (p : Packet) (e w : ℕ) (σ : Sys D) : ℕ :=
  score (users cfg e).card (depth p (σ.qItems w)) (σ.place e w)
    (turn (2 ^ 32) (users cfg e).card (σ.place e w) (σ.core e).count.toNat)

/-- The packet stays, unless an offloading core pushes it or its core takes it home. -/
theorem Sharing.leaves_or_stays (h : Sharing cfg σ) (hp : p ∈ σ.qItems w) {a : Act D}
    (ha : InTurn cfg σ a) : p ∈ (Fajita.step cfg σ a).qItems w ∨
      p ∈ (taskLog cfg σ a).pushed ∨ ∃ inp, a = .work w inp := by
  obtain ⟨⟨hpossible, -⟩, -⟩ := ha
  cases a with
  | arrive p' => exact Or.inl hp
  | epoch ans vec =>
    have hf := Controller.updateShortEpoch_frame cfg σ ans vec
    rw [Fajita.step, Sys.qItems, hf.worker, hf.traffic.ring]
    exact Or.inl hp
  | work v inp =>
    by_cases hwv : w = v
    · exact Or.inr (Or.inr ⟨inp, by rw [hwv]⟩)
    · rw [Fajita.step, (h.wired.runTask_localTo hpossible inp).qItems hwv (h.wired.pair w)]
      exact Or.inl hp
  | offload e accept =>
    rw [Fajita.step, taskLog]
    rcases OffloadingCore.runTask_qItems cfg e accept w σ with ⟨-, hq, hpushed⟩ | ⟨-, hq⟩
    · rw [← List.take_append_drop (cfg.coreBurst e) (σ.qItems w), List.mem_append] at hp
      rw [hq, hpushed]
      exact hp.symm.imp_right Or.inl
    · rw [hq]
      exact Or.inl hp

/-- A packet that does not arrive again does not come back to the NIC queue. -/
theorem not_mem_rx_step (h : Wired cfg σ) {a : Act D} (ha : Possible cfg σ a ∧ NoStrand cfg σ a)
    (honce : a ≠ .arrive p) (hp : p ∉ σ.rx w) : p ∉ (step cfg σ a).rx w := by
  intro hmem
  refine hp ?_
  cases a with
  | arrive p' =>
    rw [step, arrive_rx] at hmem
    split at hmem
    · rcases List.mem_append.mp hmem with hmem | hmem
      · exact hmem
      · exact absurd (by rw [List.mem_singleton.mp hmem]) honce
    · exact hmem
  | epoch ans vec =>
    rwa [step, (Controller.updateShortEpoch_frame cfg σ ans vec).traffic.rx] at hmem
  | work v inp =>
    by_cases hwv : w = v
    · subst hwv
      exact (taskMoves h ha.1 inp ha.2).rx p hmem
    · rwa [step, (h.runTask_localTo ha.1 inp).rx w hwv] at hmem
  | offload e accept =>
    obtain ⟨core, ring, transmitted, lost, heq, -⟩ := OffloadingCore.runTask_eq cfg e accept σ
    rwa [step, heq] at hmem

namespace Waits

variable (hp : Waits p w σ) (h : Sharing cfg σ) {a : Act D} (ha : InTurn cfg σ a)

include hp h ha

variable (hE : 0 < cfg.E) (hw : w ∈ users cfg e)

include hE hw

/-- No step of another party puts the packet off. -/
theorem other (hnot : ∀ accept, a ≠ .offload e accept) (hstay : p ∈ (step cfg σ a).qItems w) :
    toGo cfg p e w (step cfg σ a) ≤ toGo cfg p e w σ := by
  obtain ⟨hlt, he⟩ := users_lt hw hE
  have hplace := h.place_lt he hw
  have hcard := users_card_le cfg e
  obtain ⟨hup, hnear, hcount⟩ : depth p ((step cfg σ a).qItems w) ≤ depth p (σ.qItems w) ∧
      (step cfg σ a).place e w ≤ σ.place e w ∧
        ((step cfg σ a).core e).count = (σ.core e).count := by
    obtain ⟨⟨hpossible, hno⟩, ⟨hr, hk⟩, hkeep⟩ := ha
    cases a with
    | arrive p' => exact ⟨le_refl _, le_refl _, rfl⟩
    | epoch ans vec =>
      have hf := Controller.updateShortEpoch_frame cfg σ ans vec
      rw [step, Sys.place, h.pending_epoch hkeep he, Sys.qItems, hf.worker, hf.traffic.ring,
        hf.core]
      exact ⟨le_refl _, le_refl _, rfl⟩
    | work v inp =>
      have hl := h.wired.runTask_localTo hpossible inp
      by_cases hwv : w = v
      · subst hwv
        obtain ⟨hmail, hup⟩ := h.stays hlt hno hp hstay
        refine ⟨hup.le, ?_, by rw [step, hmail.core]⟩
        rw [step, Sys.place, hmail.pending, hmail.q, ← Sys.place]
      · have hcore : (σ.worker w).q.core ≠ v := by
          rw [(h.wired.pair w).q_core]
          exact hwv
        rw [step, hl.qItems hwv (h.wired.pair w), Sys.place, hl.worker w hwv]
        refine ⟨le_refl _, ?_, ?_⟩
        · exact (Reposts.runTask h.wired hpossible inp).nearer e _ hcore
            ((h.mem_pending_iff he).mpr ⟨w, hw, rfl⟩)
        · rw [hl.core]
    | offload e' accept =>
      have hne : e ≠ e' := fun heq => hnot accept (by rw [heq])
      obtain ⟨core, ring, transmitted, lost, heq, -⟩ := OffloadingCore.runTask_eq cfg e' accept σ
      refine ⟨?_, ?_, ?_⟩
      · rcases OffloadingCore.runTask_qItems cfg e' accept w σ with ⟨-, hq, -⟩ | ⟨-, hq⟩
        · rw [step, hq, depth_drop]
          exact Nat.sub_le ..
        · rw [step, hq]
      · rw [step, Sys.place, Sharing.pending_offload cfg h.mailed hr hk, heq]
        exact le_refl _
      · rw [step, OffloadingCore.runTask_core_of_ne hne]
  refine score_le hup hnear hplace (turn_lt hcard (hnear.trans_lt hplace) (UInt32.toNat_lt _))
    fun _ hsame => ?_
  rw [hsame, hcount]

omit hp ha in
/-- Each task of the offloading core brings the packet closer. -/
theorem mine {accept : ℕ} (ha : InTurn cfg σ (.offload e accept)) (hburst : 0 < cfg.coreBurst e)
    (hstay : p ∈ (step cfg σ (.offload e accept)).qItems w) :
    toGo cfg p e w (step cfg σ (.offload e accept)) < toGo cfg p e w σ := by
  obtain ⟨-, he⟩ := users_lt hw hE
  obtain ⟨-, ⟨hr, hk⟩, -⟩ := ha
  have hplace := h.place_lt he hw
  have hcard := users_card_le cfg e
  have hsame : (step cfg σ (.offload e accept)).place e w = σ.place e w := by
    obtain ⟨core, ring, transmitted, lost, heq, -⟩ := OffloadingCore.runTask_eq cfg e accept σ
    rw [step, Sys.place, Sharing.pending_offload cfg h.mailed hr hk, heq]
    rfl
  have hcount : ((step cfg σ (.offload e accept)).core e).count.toNat =
      ((σ.core e).count.toNat + 1) % 2 ^ 32 := by
    rw [step, h.count_offload he hw hr hk, UInt32.toNat_add]
    rfl
  rw [toGo, toGo, hsame, hcount]
  have hlt := turn_lt hcard hplace (Nat.mod_lt ((σ.core e).count.toNat + 1) (by decide))
  rcases OffloadingCore.runTask_qItems cfg e accept w σ with ⟨-, hq, -⟩ | ⟨hnot, hq⟩
  · -- it was the turn of this ring
    rw [step, hq] at hstay
    refine score_lt_of_fewer ?_ hplace hlt
    have hleft : depth p ((σ.qItems w).drop (cfg.coreBurst e)) ≠ 0 := fun h0 =>
      depth_eq_zero_iff.mp h0 hstay
    rw [depth_drop] at hleft
    rw [step, hq, depth_drop]
    omega
  · -- the counter moved on
    rw [ne_eq, h.choose_iff he hw hr hk] at hnot
    have hnext := turn_succ hcard hplace (UInt32.toNat_lt (σ.core e).count) hnot
    rw [step, hq, score, score]
    omega

end Waits

/-- A task of an offloading core. -/
def Act.isOffloadOf (e : ℕ) : Act D → Bool
  | .offload e' _ => e' = e
  | _ => false

/-- The packet is gone from `q` before the offloading core has done so many tasks. -/
theorem Waits.leaves {acts : List (Act D)} (hp : Waits p w σ) (h : Sharing cfg σ) (hE : 0 < cfg.E)
    (hw : w ∈ users cfg e) (hburst : 0 < cfg.coreBurst e)
    (hC : Along (step cfg) (fun σ a => InTurn cfg σ a ∧ a ≠ .arrive p) σ acts)
    (hmany : ((σ.qItems w).length + 1) * (2 * (users cfg e).card * (users cfg e).card) ≤
      acts.countP (Act.isOffloadOf e)) :
    Meets (step cfg) (fun σ => p ∉ σ.qItems w) σ acts := by
  obtain ⟨-, he⟩ := users_lt hw hE
  have hfew : toGo cfg p e w σ < acts.countP (Act.isOffloadOf e) := by
    refine lt_of_lt_of_le (score_lt (h.place_lt he hw) (turn_lt (users_card_le cfg e)
      (h.place_lt he hw) (UInt32.toNat_lt _))) (le_trans ?_ hmany)
    exact Nat.mul_le_mul_right _ (Nat.succ_le_succ (depth_le ..))
  refine .of_rank (I := Sharing cfg) (P := Waits p w) (Act.isOffloadOf e) (toGo cfg p e w)
    (fun _ _ hs ha => hs.step hE ha.1) ?_ ?_ h hp hC hfew
  · rintro σ a hs ⟨ha, honce⟩ hp hmine
    by_cases hstay : p ∈ (step cfg σ a).qItems w
    · refine Or.inr ⟨⟨hstay, not_mem_rx_step hs.wired ha.1 honce hp.rx⟩, ?_⟩
      cases a with
      | offload e' accept =>
        obtain rfl : e' = e := of_decide_eq_true hmine
        exact Waits.mine hs hE hw ha hburst hstay
      | arrive | epoch | work => cases hmine
    · exact Or.inl hstay
  · rintro σ a hs ⟨ha, honce⟩ hp hother
    by_cases hstay : p ∈ (step cfg σ a).qItems w
    · refine Or.inr ⟨⟨hstay, not_mem_rx_step hs.wired ha.1 honce hp.rx⟩,
        hp.other hs ha hE hw ?_ hstay⟩
      rintro accept rfl
      exact absurd (decide_eq_true rfl) (Bool.eq_false_iff.mp hother)
    · exact Or.inl hstay

/-- **No packet starves**: a packet in `q` of core `w` is pushed by an offloading core, or taken
home by core `w`, before the offloading core has done so many tasks. -/
theorem offloaded_leaves {acts acts' : List (Act D)} (hE : 0 < cfg.E) (hw : w ∈ users cfg e)
    (hburst : 0 < cfg.coreBurst e)
    (hC : Along (step cfg) (InTurn cfg) (init D cfg) (acts ++ acts'))
    (hp : Waits p w (runFrom (step cfg) (init D cfg) acts))
    (honce : ∀ a ∈ acts', a ≠ .arrive p)
    (hmany : (((runFrom (step cfg) (init D cfg) acts).qItems w).length + 1) *
      (2 * (users cfg e).card * (users cfg e).card) ≤ acts'.countP (Act.isOffloadOf e)) :
    ∃ pre a post, acts' = pre ++ a :: post ∧
      p ∈ (runFrom (step cfg) (init D cfg) (acts ++ pre)).qItems w ∧
      (p ∈ (taskLog cfg (runFrom (step cfg) (init D cfg) (acts ++ pre)) a).pushed ∨
        (∃ inp, a = .work w inp) ∧
          p ∉ (step cfg (runFrom (step cfg) (init D cfg) (acts ++ pre)) a).qItems w) := by
  obtain ⟨hbefore, hafter⟩ := along_append.mp hC
  obtain ⟨σ, hσ⟩ : ∃ σ, σ = runFrom (step cfg) (init D cfg) acts := ⟨_, rfl⟩
  have hs : Sharing cfg σ := hσ ▸ hbefore.inv (fun _ _ hs ha => hs.step hE ha) (.init hE)
  simp only [runFrom_append]
  rw [← hσ] at hafter hp hmany ⊢
  have honce' : Along (step cfg) (fun σ a => InTurn cfg σ a ∧ a ≠ .arrive p) σ acts' :=
    hafter.and (.of_forall honce)
  obtain ⟨pre, a, post, hsplit, hthere, hleft⟩ :=
    (hp.leaves hs hE hw hburst honce' hmany).brought_about (not_not.mpr hp.q)
  have hhere := not_not.mp hthere
  refine ⟨pre, a, post, hsplit, hhere, ?_⟩
  have ha := along_iff_split.mp hafter pre a post hsplit
  have hs' : Sharing cfg (runFrom (step cfg) σ pre) := by
    rw [hsplit] at hafter
    exact (along_append.mp hafter).1.inv (fun _ _ hs ha => hs.step hE ha) hs
  rcases hs'.leaves_or_stays hhere ha with hstay | hpushed | hhome
  · exact absurd hstay hleft
  · exact Or.inl hpushed
  · exact Or.inr ⟨hhome, hleft⟩

/-! ## A run -/

instance (σ : Sys D) : DecidablePred (KeepsRelation cfg σ)
  | .epoch _ _ =>
    inferInstanceAs (Decidable (∀ e < cfg.totalCores, ∀ w < cfg.totalCores, _ = _))
  | .arrive _ => isTrue trivial
  | .work _ _ => isTrue trivial
  | .offload _ _ => isTrue trivial

instance (σ : Sys D) : DecidablePred (InTurn cfg σ) := fun _ =>
  inferInstanceAs (Decidable ((_ ∧ _) ∧ (_ ∧ _) ∧ _))

namespace Small

/-- A packet of the shard that is offloaded waits in `q`. -/
def oneOffloaded : List (Act ℚ) :=
  [.epoch (some (answer id (fun _ => 0) fun _ => 1 / 2)) fun _ => [], .work 0 (task 1),
    .arrive (packet 1 0), .work 0 (task 1)]

/-- One packet in `q`, and sixteen tasks of the offloading core. -/
theorem oneOffloaded_leaves : ∃ pre a post, List.replicate 16 (.offload 0 1) = pre ++ a :: post ∧
    packet 1 0 ∈ (runFrom (step (router 1)) (init ℚ (router 1)) (oneOffloaded ++ pre)).qItems 0 ∧
    (packet 1 0 ∈ (taskLog (router 1)
        (runFrom (step (router 1)) (init ℚ (router 1)) (oneOffloaded ++ pre)) a).pushed ∨
      (∃ inp, a = .work 0 inp) ∧ packet 1 0 ∉ (step (router 1)
        (runFrom (step (router 1)) (init ℚ (router 1)) (oneOffloaded ++ pre)) a).qItems 0) :=
  offloaded_leaves (e := 0) (by decide) (by decide) (by decide) (by decide +kernel)
    ⟨by decide +kernel, by decide +kernel⟩ (by simp) (by decide +kernel)

end Small

end Fajita
