import Fajita.Mailbox

/-!
# Agreement on the relation

The controller's relation `O`, the offloading core a working core posts to and the
rings the offloading cores poll should agree whenever an epoch's requests have been
handled (`Linked`). Each working core is *tied* to the offloading core of its
column of `O`: either it posts to it and its ring is in use there, or it has been
told to (`Ties`). Two things break the tie:

* `update_relationship` skips a core that is to offload to the core that
  `offloading_from_working` names, which nobody keeps up to date (`Returns`);
* a drain that changes the order of the requests (`KeepsOrder`) or that has lost
  some of them to a full control ring (`Roomy`).
-/

namespace Fajita

variable {D : Type} {cfg : Cfg} {σ σ' : Sys D} {w e : ℕ}

/-- Column `w` of the relation names the offloading core `e`. -/
def ColumnIs (cfg : Cfg) (O : ℕ → ℕ → ℕ) (w e : ℕ) : Prop :=
  e < cfg.E ∧ ∀ v < cfg.totalCores, O v w = if v = e then 1 else 0

/-- The requests of an epoch have been handled. -/
structure Handled (cfg : Cfg) (σ : Sys D) : Prop where
  /-- no core is to take over shares -/
  transferR : ∀ w < cfg.W, σ.transferR w = false
  /-- no core is to give shards away -/
  transferShard : ∀ w < cfg.W, σ.transferShard w = false
  /-- no core is to change its offloading core -/
  transferOffloading : ∀ w < cfg.W, σ.transferOffloading w = false
  /-- no core is signalled -/
  controllerSignal : ∀ w < cfg.W, σ.controllerSignal w = false
  /-- no core works off its ring -/
  myown : ∀ w < cfg.W, (σ.worker w).myown = false
  /-- no removal is under way -/
  toRemoveQueue : ∀ e < cfg.E, (σ.toRemoveQueue e).items = []
  /-- no addition is under way -/
  toAddQueue : ∀ e < cfg.E, (σ.toAddQueue e).items = []

/-- Core `w` posts to the offloading core `e`, which polls its ring once, and no
other offloading core polls it. -/
def Served (cfg : Cfg) (w e : ℕ) (σ : Sys D) : Prop :=
  (σ.worker w).offloadingIdx = e ∧ (σ.core e).Q.count (σ.queues w) = 1 ∧
    ∀ e' < cfg.E, e' ≠ e → σ.queues w ∉ (σ.core e').Q

/-- Controller, working cores and offloading cores agree on the relation. -/
def Linked (cfg : Cfg) (σ : Sys D) : Prop :=
  ∀ w < cfg.W, ∀ e < cfg.totalCores, σ.O e w = 1 → Served cfg w e σ

/-- An epoch whose answer relates each working core to one offloading core, and
that comes when the requests of the epoch before have been handled. -/
def RelatesCores (cfg : Cfg) (σ : Sys D) : Act D → Prop
  | .epoch ans _ => Handled cfg σ ∧ match ans with
    | some ans => ∀ w < cfg.W, ∃ e < cfg.E, ∀ v < cfg.totalCores, ans.O v w = if v = e then 1 else 0
    | none => True
  | _ => True

/-- The answer gives core `w` back to the offloading core that
`offloading_from_working` names. -/
def Returns (cfg : Cfg) (ans : Option (Answer D)) (σ : Sys D) (w : ℕ) : Prop :=
  Controller.askedO cfg ans σ (σ.offloadingFromWorking w) w = 1 ∧
    σ.O (σ.offloadingFromWorking w) w ≠ 1

/-- The step is not an epoch that gives a core back. -/
def NoReturn (cfg : Cfg) (σ : Sys D) : Act D → Prop
  | .epoch ans _ => ∀ w < cfg.W, ¬ Returns cfg ans σ w
  | _ => True

/-- Core `w` is tied to the offloading core `e`: it posts to it and its ring is in
use there, or it has been told to. -/
structure Ties (w e : ℕ) (σ : Sys D) : Prop where
  /-- the core has not been told -/
  settled : σ.transferOffloading w = false →
    (σ.worker w).offloadingIdx = e ∧ (σ.worker w).q ∈ σ.pending e
  /-- the core has been told -/
  told : σ.transferOffloading w = true → σ.newOffloadingFromWorking w = e

namespace Ties

/-- Where nothing is posted and the flag stays, so do the ties. -/
theorem of_same (h : Ties w e σ) (hs : SameMail σ σ')
    (hflag : σ'.transferOffloading w = σ.transferOffloading w) : Ties w e σ' := by
  refine ⟨fun hf => ?_, fun hf => ?_⟩
  · rw [hs.offloadingIdx, hs.q, hs.pending]
    exact h.settled (by rw [← hflag, hf])
  · rw [hs.newOffloading]
    exact h.told (by rw [← hflag, hf])

end Ties

namespace WorkingCore

/-- A removal takes one ring out of use. -/
theorem mem_pending_postRemove {i : ℕ} {r r' : RingId} (hmem : r ∈ σ.pending e) (hr : r ≠ r') :
    r ∈ (σ.postRemove i r').pending e := by
  rw [pending_postRemove]
  split
  · exact List.mem_filter.mpr ⟨hmem, by simpa using hr⟩
  · exact hmem

/-- An announcement takes none. -/
theorem mem_pending_postAdd {i : ℕ} {r r' : RingId} (hmem : r ∈ σ.pending e) :
    r ∈ (σ.postAdd i r').pending e := by
  rw [pending_postAdd]
  split
  · exact List.mem_append_left _ hmem
  · exact hmem

/-- No task of core `w` takes the ring of another core out of use. -/
theorem Stage.pending_mono [Double D] (h : Wired cfg σ) (hs : Stage cfg w σ σ') {r : RingId}
    (hr : r.core ≠ w) (hmem : r ∈ σ.pending e) : r ∈ σ'.pending e := by
  have hq : r ≠ (σ.worker w).q := RingId.ne_of_core hr rfl (h.pair w).q_core
  cases hs with
  | takeBack => rwa [takeBack_sameMail.pending]
  | receiveAll drains => rwa [(receiveAll_sameMail drains).pending]
  | processChanges => rwa [processChanges_sameMail.pending]
  | exchange =>
    simp only [WorkingCore.exchange]
    split
    · exact mem_pending_postAdd (mem_pending_postRemove hmem hq)
    · exact hmem
  | withdraw =>
    simp only [WorkingCore.withdraw]
    split
    · exact mem_pending_postRemove hmem hq
    · exact hmem
  | announce =>
    simp only [WorkingCore.announce]
    split
    · exact mem_pending_postAdd hmem
    · exact hmem
  | adopt =>
    simp only [WorkingCore.adopt]
    split
    · exact mem_pending_postAdd hmem
    · exact hmem
  | takeRatios | releaseAll | doneR | doneOffloading | doneShard | doneSignal | drained | forward
  | workOff => exact hmem

/-! ## The ties of a core along its tasks

A core is tied to an offloading core if that is what it believes and its ring is pending there, or
will be, once the flag that is up has been served. Each routine keeps the ties of the core it is run
by.
-/

/-- Exchanging the two rings keeps the ties. -/
theorem exchange_ties (h : Ties w e σ) : Ties w e (exchange w σ) := by
  simp only [exchange]
  split
  · have hidx : ((swapRings w σ).worker w).offloadingIdx = (σ.worker w).offloadingIdx := by
      simp [swapRings, Sys.setWorker, Sys.postAdd, Sys.postRemove]
    have hq : ((swapRings w σ).worker w).q = (σ.worker w).myring := by
      simp [swapRings, Sys.setWorker, Sys.postAdd, Sys.postRemove]
    refine ⟨fun hf => ?_, fun hf => h.told hf⟩
    obtain ⟨he, -⟩ := h.settled hf
    refine ⟨hidx.trans he, ?_⟩
    have hpend := pending_postAdd (σ := σ.postRemove (σ.worker w).offloadingIdx (σ.worker w).q)
      (σ.worker w).offloadingIdx (σ.worker w).myring e
    rw [if_pos he.symm] at hpend
    rw [hq]
    exact hpend ▸ List.mem_append_right _ (List.mem_singleton_self _)
  · exact h

/-- `transfer_r` keeps the ties: it posts the ring to the same offloading core again. -/
theorem transferR_ties (h : Ties w e σ) : Ties w e (transferR cfg w σ) :=
  (exchange_ties h).of_same (.of_worker rfl rfl rfl rfl rfl rfl) rfl

/-- A core announces its ring to the offloading core it is asked to use. -/
theorem adopt_eq (he : σ.newOffloadingFromWorking w = e) (hmax : e ≠ uint32Max) :
    adopt w σ =
      { (σ.postAdd e (σ.worker w).q).setWorker w fun me => { me with offloadingIdx := e } with
        newOffloadingFromWorking := Function.update σ.newOffloadingFromWorking w uint32Max } := by
  simp only [adopt]
  rw [he]
  exact if_pos hmax

/-- After `adopt` the core belongs to the new offloading core, and its ring is pending there. -/
theorem adopt_posts (he : e < cfg.E) (hnew : σ.newOffloadingFromWorking w = e) :
    ((adopt w σ).worker w).offloadingIdx = e ∧
      ((adopt w σ).worker w).q ∈ (adopt w σ).pending e := by
  have hpend := pending_postAdd (σ := σ) e (σ.worker w).q e
  rw [if_pos rfl] at hpend
  have hq : ((adopt w σ).worker w).q = (σ.worker w).q := by
    rw [adopt_eq hnew (Cfg.ne_uint32Max' he)]
    simp [Sys.setWorker, Sys.postAdd]
  have hmem : (adopt w σ).pending e = (σ.postAdd e (σ.worker w).q).pending e := by
    rw [adopt_eq hnew (Cfg.ne_uint32Max' he)]
    rfl
  refine ⟨?_, ?_⟩
  · rw [adopt_eq hnew (Cfg.ne_uint32Max' he)]
    simp [Sys.setWorker]
  · rw [hq, hmem, hpend]
    exact List.mem_append_right _ (List.mem_singleton_self _)

/-- **`transfer_offloading` ties the core to the offloading core it has been told.** -/
theorem transferOffloading_ties (h : Ties w e σ) (he : e < cfg.E)
    (hflag : σ.transferOffloading w = true) : Ties w e (transferOffloading cfg w σ) := by
  have hwithdraw : (withdraw w σ).newOffloadingFromWorking = σ.newOffloadingFromWorking := by
    simp only [withdraw]
    split <;> rfl
  have hsame : SameMail (withdraw w σ) (takeBack cfg w (withdraw w σ)) := takeBack_sameMail
  have hnew : (takeBack cfg w (withdraw w σ)).newOffloadingFromWorking w = e := by
    rw [hsame.newOffloading, hwithdraw, h.told hflag]
  refine ⟨fun _ => adopt_posts he hnew, fun hf => ?_⟩
  simp [transferOffloading] at hf

/-- A core that announces its ring is tied to the offloading core it posts to. -/
theorem announce_ties (he : e < cfg.E)
    (hsettled : σ.transferOffloading w = false → (σ.worker w).offloadingIdx = e)
    (htold : σ.transferOffloading w = true → σ.newOffloadingFromWorking w = e) :
    Ties w e (announce w σ) := by
  simp only [announce]
  split
  · refine ⟨fun hf => ⟨hsettled hf, ?_⟩, htold⟩
    rw [pending_postAdd, if_pos (hsettled hf).symm]
    exact List.mem_append_right _ (List.mem_singleton_self _)
  · next hmax =>
    rw [ne_eq, not_not] at hmax
    exact ⟨fun hf => absurd ((hsettled hf).symm.trans hmax) (Cfg.ne_uint32Max' he), htold⟩

/-- Taking packets back raises no flag. -/
theorem takeBack_transferOffloading :
    (takeBack cfg w σ).transferOffloading = σ.transferOffloading := by
  simp only [takeBack]
  split <;> rfl

/-- `transfer_shard` posts the ring of the core again. -/
theorem collect_ties (h : Ties w e σ) (he : e < cfg.E) (drains : List ℕ) :
    Ties w e (collect cfg w drains σ) := by
  have hsame : SameMail (withdraw w σ) (takeBack cfg w (receiveAll cfg w drains (withdraw w σ))) :=
    (receiveAll_sameMail drains).trans takeBack_sameMail
  have hwithdraw : ((withdraw w σ).worker w).offloadingIdx = (σ.worker w).offloadingIdx ∧
      (withdraw w σ).newOffloadingFromWorking = σ.newOffloadingFromWorking ∧
        (withdraw w σ).transferOffloading = σ.transferOffloading := by
    simp only [withdraw]
    split <;> exact ⟨rfl, rfl, rfl⟩
  have hflag : (takeBack cfg w (receiveAll cfg w drains (withdraw w σ))).transferOffloading =
      σ.transferOffloading := takeBack_transferOffloading.trans hwithdraw.2.2
  refine announce_ties he (fun hf => ?_) fun hf => ?_
  · rw [hsame.offloadingIdx, hwithdraw.1]
    exact (h.settled (by rw [← hflag, hf])).1
  · rw [hsame.newOffloading, hwithdraw.2.1]
    exact h.told (by rw [← hflag, hf])

/-- `transfer_shard` keeps the ties: it posts the ring to the same offloading core again. -/
theorem transferShard_ties (h : Ties w e σ) (he : e < cfg.E) (drains : List ℕ) :
    Ties w e (transferShard cfg w drains σ) := by
  have hcollect := collect_ties h he drains
  unfold transferShard
  generalize collect cfg w drains σ = σ' at hcollect ⊢
  dsimp only
  split <;> exact hcollect.of_same (.of_worker rfl rfl rfl rfl rfl rfl) rfl

/-- The ties stand after the signal block. -/
theorem serveSignal_ties (h : Ties w e σ) (he : e < cfg.E) (drains : List ℕ) :
    Ties w e (serveSignal cfg w drains σ) :=
  serveSignal_rule drains (fun _ h => transferR_ties h)
    (fun _ h hflag => transferOffloading_ties h he hflag)
    (fun _ h => transferShard_ties h he drains)
    (fun _ h => h.of_same (.of_worker rfl rfl rfl rfl rfl rfl) rfl) h

/-- **A task keeps its core tied.** -/
theorem runTask_ties [Double D] (h : Ties w e σ) (he : e < cfg.E) (inp : TaskInput) :
    Ties w e (runTask cfg w inp σ).1 := by
  have hchanges : ∀ σ : Sys D,
      (processChanges cfg w σ).transferOffloading = σ.transferOffloading := by
    intro σ
    simp only [processChanges]
    split <;> rfl
  simp only [runTask]
  split
  · split
    · exact h.of_same drained_sameMail rfl
    · exact h.of_same (.of_worker rfl rfl rfl rfl rfl rfl) rfl
  · have hreceive : Ties w e (processChanges cfg w (serveSignal cfg w inp.drains σ)) :=
      (serveSignal_ties h he inp.drains).of_same processChanges_sameMail
        (congrFun (hchanges _) w)
    exact hreceive.of_same (.of_worker rfl rfl rfl rfl rfl rfl) rfl

/-- A task of another core leaves a core tied. -/
theorem runTask_ties_of_ne [Double D] (h : Ties w e σ) (hwired : Wired cfg σ) {v : ℕ}
    (hv : v < cfg.W) (hvw : w ≠ v) (inp : TaskInput) : Ties w e (runTask cfg v inp σ).1 := by
  have hl := hwired.runTask_localTo hv inp
  have hr : (σ.worker w).q.core ≠ v := by
    rw [(hwired.pair w).q_core]
    exact hvw
  have hpend : (σ.worker w).q ∈ σ.pending e →
      (σ.worker w).q ∈ (runTask cfg v inp σ).1.pending e := fun hmem =>
    (hwired.runTask_inv (P := fun σ' => (σ.worker w).q ∈ σ'.pending e) hv
      (fun _ _ hσ hmem hs => hs.pending_mono hσ hr hmem) hmem inp).2
  refine ⟨fun hf => ?_, fun hf => ?_⟩
  · rw [hl.transferOffloading w hvw] at hf
    rw [hl.worker w hvw]
    exact ⟨(h.settled hf).1, hpend (h.settled hf).2⟩
  · rw [hl.transferOffloading w hvw] at hf
    rw [hl.newOffloading w hvw]
    exact h.told hf

end WorkingCore

/-! ## The ties along a run

An answer unties exactly the cores that it moves, and raises their flag, which ties them to the new
offloading core.
-/

/-- Every working core is tied to the offloading core of its column, and
`offloading_from_working` has a number for it. -/
structure Tied (cfg : Cfg) (σ : Sys D) : Prop where
  /-- `offloading_from_working` names an offloading core -/
  known : ∀ w < cfg.W, σ.offloadingFromWorking w ≠ uint32Max
  /-- the core of the column -/
  ties : ∀ w < cfg.W, ∃ e, ColumnIs cfg σ.O w e ∧ Ties w e σ

/-- A column that is one-hot says which offloading core it is. -/
theorem ColumnIs.iff {O : ℕ → ℕ → ℕ} (h : ColumnIs cfg O w e) {v : ℕ} (hv : v < cfg.totalCores) :
    O v w = 1 ↔ v = e := by
  rw [h.2 v hv]
  by_cases hve : v = e <;> simp [hve]

variable [Double D]

section

variable {e' : ℕ} {ans : Option (Answer D)} {vec : ℕ → List FlowKey}

omit [Double D] in
/-- The core that a column names is one of the cores. -/
theorem ColumnIs.lt {O : ℕ → ℕ → ℕ} (h : ColumnIs cfg O w e) : e < cfg.totalCores := by
  have he := h.1
  rw [Cfg.totalCores]
  omega

omit [Double D] in
/-- The column an epoch puts in force. -/
theorem ColumnIs.asked (h : ColumnIs cfg σ.O w e) (hrel : RelatesCores cfg σ (.epoch ans vec))
    (hw : w < cfg.W) : ∃ e', ColumnIs cfg (Controller.askedO cfg ans σ) w e' := by
  simp only [Controller.askedO]
  cases ans with
  | none => exact ⟨e, h⟩
  | some ans =>
    dsimp only
    split
    · exact hrel.2 w hw
    · exact ⟨e, h⟩

/-- A core whose column stays is told nothing, and no removal concerns its ring. -/
theorem Ties.epoch_same (h : Ties w e σ) (hwired : Wired cfg σ) (hcol : ColumnIs cfg σ.O w e)
    (hcol' : ColumnIs cfg (Controller.askedO cfg ans σ) w e)
    (hflag : σ.transferOffloading w = false) :
    Ties w e (Controller.updateShortEpoch cfg ans vec σ) := by
  have hf := Controller.updateShortEpoch_frame cfg σ ans vec
  have hr := Controller.updateShortEpoch_related cfg σ ans vec
  obtain ⟨hidx, hmem⟩ := h.settled hflag
  have hno : ¬ ∃ v < cfg.totalCores, Controller.Gains σ (Controller.askedO cfg ans σ) w v := by
    rintro ⟨v, hv, h0, h1, -⟩
    rw [(hcol'.iff hv).mp h1] at h0
    rw [hcol.2 e hcol.lt, if_pos rfl] at h0
    cases h0
  have hflag' : (Controller.updateShortEpoch cfg ans vec σ).transferOffloading w = false := by
    rw [Bool.eq_false_iff, ne_eq, hr.transferOffloading, hflag]
    rintro (hf | ⟨-, hg⟩)
    · cases hf
    · exact hno hg
  refine ⟨fun _ => ⟨by rw [hf.worker, hidx], ?_⟩,
    fun hf => absurd (hf.symm.trans hflag') Bool.noConfusion⟩
  obtain ⟨rs, hrs, hlose⟩ := hr.posted e
  rw [Sys.pending, hf.core, hf.worker, hrs, Request.inOrder_append, Request.inOrder_removes]
  refine List.mem_filter.mpr ⟨hmem, ?_⟩
  rw [decide_eq_true_eq]
  intro hq
  -- the ring would belong to a core that loses `e`
  obtain ⟨v, ⟨-, hl⟩, hqv⟩ := hlose _ hq
  rw [hwired.queues v] at hqv
  obtain rfl := hwired.q_inj hqv
  rw [(hcol'.iff hcol.lt).mpr rfl] at hl
  cases hl

/-- A core whose column changes is told of the new one, unless it is given back. -/
theorem Ties.epoch_told (hw : w < cfg.W) (hcol : ColumnIs cfg σ.O w e)
    (hcol' : ColumnIs cfg (Controller.askedO cfg ans σ) w e') (he : e' ≠ e)
    (hknown : σ.offloadingFromWorking w ≠ uint32Max) (hreturn : ¬ Returns cfg ans σ w) :
    Ties w e' (Controller.updateShortEpoch cfg ans vec σ) := by
  have hr := Controller.updateShortEpoch_related cfg σ ans vec
  have hwt : w < cfg.totalCores := by rw [Cfg.totalCores]; omega
  have hzero : σ.O e' w = 0 := by rw [hcol.2 e' hcol'.lt, if_neg he]
  have hone : Controller.askedO cfg ans σ e' w = 1 := (hcol'.iff hcol'.lt).mpr rfl
  have hgains : Controller.Gains σ (Controller.askedO cfg ans σ) w e' := by
    refine ⟨hzero, hone, hknown, fun hfrom => hreturn ?_⟩
    rw [Returns, hfrom, hone, hzero]
    exact ⟨rfl, Nat.zero_ne_one⟩
  have htold := (hr.transferOffloading w).mpr (Or.inr ⟨hwt, e', hcol'.lt, hgains⟩)
  refine ⟨fun hf => absurd (htold.symm.trans hf) Bool.noConfusion, fun _ => ?_⟩
  exact hr.newOffloading_of w hwt e' hcol'.lt hgains fun v hv hg => (hcol'.iff hv).mp hg.2.1

/-- **An epoch ties every core** to the offloading core of its new column. -/
theorem Tied.epoch (h : Tied cfg σ) (hwired : Wired cfg σ)
    (hrel : RelatesCores cfg σ (.epoch ans vec)) (hreturn : ∀ w < cfg.W, ¬ Returns cfg ans σ w) :
    Tied cfg (Controller.updateShortEpoch cfg ans vec σ) := by
  have hf := Controller.updateShortEpoch_frame cfg σ ans vec
  have hr := Controller.updateShortEpoch_related cfg σ ans vec
  refine ⟨fun w hw => by rw [hf.offloadingFromWorking]; exact h.known w hw, fun w hw => ?_⟩
  have hwt : w < cfg.totalCores := by rw [Cfg.totalCores]; omega
  obtain ⟨e, hcol, hties⟩ := h.ties w hw
  obtain ⟨e', hcol'⟩ := hcol.asked hrel hw
  refine ⟨e', ⟨hcol'.1, fun v hv => by rw [hr.O v hv w hwt, hcol'.2 v hv]⟩, ?_⟩
  by_cases he : e' = e
  · subst he
    exact hties.epoch_same hwired hcol hcol' (hrel.1.transferOffloading w hw)
  · exact .epoch_told hw hcol hcol' he (h.known w hw) (hreturn w hw)

end

/-- **Every step keeps the cores tied**, unless an epoch gives a core back or a
drain changes the order of the requests. -/
theorem Tied.step (h : Tied cfg σ) (hwired : Wired cfg σ) (hm : Mailed σ) {a : Act D}
    (hp : Possible cfg σ a) (hrel : RelatesCores cfg σ a) (hreturn : NoReturn cfg σ a)
    (hroomy : Roomy σ a) (hk : KeepsOrder σ a) : Tied cfg (step cfg σ a) := by
  cases a with
  | arrive p => exact ⟨h.known, fun w hw => (h.ties w hw).imp fun e ⟨hcol, ht⟩ =>
      ⟨hcol, ht.of_same (.of_worker rfl rfl rfl rfl rfl rfl) rfl⟩⟩
  | epoch ans vec => exact h.epoch hwired hrel hreturn
  | work v inp =>
    have hl := hwired.runTask_localTo hp inp
    refine ⟨fun w hw => by rw [Fajita.step, hl.offloadingFromWorking]; exact h.known w hw,
      fun w hw => ?_⟩
    obtain ⟨e, hcol, ht⟩ := h.ties w hw
    refine ⟨e, by rw [Fajita.step, hl.O]; exact hcol, ?_⟩
    -- the task of a core announces for itself only
    by_cases hwv : w = v
    · subst hwv
      exact WorkingCore.runTask_ties ht hcol.1 inp
    · exact WorkingCore.runTask_ties_of_ne ht hwired hp hwv inp
  | offload e accept =>
    obtain ⟨core, ring, transmitted, lost, heq, -⟩ := OffloadingCore.runTask_eq cfg e accept σ
    have hpend : ∀ i, (OffloadingCore.runTask cfg e accept σ).1.pending i = σ.pending i := by
      intro i
      rw [OffloadingCore.runTask_pending]
      split
      · -- the drain carries out the requests in the order they were posted
        next hi => rw [hi, (OffloadingCore.control_Q_iff hm hroomy).mpr hk]
      · rfl
    refine ⟨fun w hw => ?_, fun w hw => ?_⟩
    · rw [Fajita.step, heq]
      exact h.known w hw
    · obtain ⟨i, hcol, ht⟩ := h.ties w hw
      refine ⟨i, ?_, fun hf => ?_, fun hf => ?_⟩
      · rw [Fajita.step, heq]
        exact hcol
      · rw [Fajita.step, hpend, heq]
        rw [Fajita.step, heq] at hf
        exact ht.settled hf
      · rw [Fajita.step, heq] at hf ⊢
        exact ht.told hf

/-- At the start every core is tied to the offloading core that it starts with. -/
theorem tied_init (hE : 0 < cfg.E) : Tied cfg (init D cfg) := by
  have hne : cfg.E ≠ 0 := Nat.ne_of_gt hE
  have hmod : ∀ w, w % cfg.E < cfg.E := fun w => Nat.mod_lt w hE
  refine ⟨fun w hw => ?_, fun w hw => ⟨w % cfg.E, ⟨hmod w, fun v _ => ?_⟩, fun _ => ⟨?_, ?_⟩,
    fun hf => by cases hf⟩⟩
  · simp only [Fajita.init, Init.offloadingFromWorking, if_pos hw, if_pos hne]
    exact Cfg.ne_uint32Max' (hmod w)
  · simp [Fajita.init, Init.O, hne, hw]
  · simp [Fajita.init, Init.worker, Init.offloadingFromWorking, hne, hw]
  · exact ((Polled.init_pending hne (w % cfg.E)).2 _).mpr ⟨w, hw, rfl, rfl⟩

omit [Double D] in
/-- **When the requests of the epochs have been handled, tied cores agree with the
controller and the offloading cores.** -/
theorem Tied.linked (h : Tied cfg σ) (hwired : Wired cfg σ) (hm : Mailed σ) (hp : Polled cfg σ)
    (hh : Handled cfg σ) : Linked cfg σ := by
  have hposted : ∀ i < cfg.E, σ.pending i = (σ.core i).Q := by
    intro i hi
    have hr := (hm.removes i).2
    have ha := (hm.adds i).2
    rw [hh.toRemoveQueue i hi, eq_comm, List.take_eq_nil_iff] at hr
    rw [hh.toAddQueue i hi, eq_comm, List.take_eq_nil_iff] at ha
    rw [Sys.pending, Request.eq_nil_of_removes_adds (hr.resolve_left (by decide))
      (ha.resolve_left (by decide))]
    rfl
  intro w hw e he hO
  obtain ⟨i, hcol, ht⟩ := h.ties w hw
  obtain rfl := (hcol.iff he).mp hO
  obtain ⟨hidx, hmem⟩ := ht.settled (hh.transferOffloading w hw)
  rw [Served, hwired.queues w, ← hposted e hcol.1]
  refine ⟨hidx, List.count_eq_one_of_mem (hp.nodup e hcol.1) hmem, fun e' he' hne hmem' => hne ?_⟩
  rw [← hposted e' he'] at hmem'
  obtain ⟨v, hv, hidx'⟩ := hp.inUse e' he' _ hmem'
  obtain rfl := hwired.q_inj hv
  exact hidx'.symm.trans hidx

/-- **Agreement on the relation.** In every run from the initial state in which
each epoch relates the cores after the requests of the one before have been
handled, none gives a core back to the offloading core `offloading_from_working`
names, and no drain changes the order of the requests, all parties agree on the
relation whenever the requests have been handled. -/
theorem linked_of_handled (hE : 0 < cfg.E) {acts : List (Act D)}
    (hC : Along (step cfg) (fun σ a => Possible cfg σ a ∧ RelatesCores cfg σ a ∧
      NoReturn cfg σ a ∧ Roomy σ a ∧ KeepsOrder σ a) (init D cfg) acts)
    (hh : Handled cfg (runFrom (step cfg) (init D cfg) acts)) :
    Linked cfg (runFrom (step cfg) (init D cfg) acts) := by
  obtain ⟨hwired, hm, hp, ht⟩ : Wired cfg (runFrom (step cfg) (init D cfg) acts) ∧
      Mailed (runFrom (step cfg) (init D cfg) acts) ∧
        Polled cfg (runFrom (step cfg) (init D cfg) acts) ∧
          Tied cfg (runFrom (step cfg) (init D cfg) acts) := by
    refine Along.inv (I := fun σ => Wired cfg σ ∧ Mailed σ ∧ Polled cfg σ ∧ Tied cfg σ)
      (fun σ a ⟨hwired, hm, hp, ht⟩ ⟨ha, hrel, hreturn, hroomy, hk⟩ => ?_)
      ⟨wired_init, .init, .init, tied_init hE⟩ hC
    exact ⟨hwired.step ha, hm.step hwired ha, hp.step hwired hm ha hroomy hk,
      ht.step hwired hm ha hrel hreturn hroomy hk⟩
  exact ht.linked hwired hm hp hh

/-! ## Evaluation -/

omit [Double D] in
/-- Whether everything has been handled can be computed. -/
theorem handled_iff : Handled cfg σ ↔ (∀ w < cfg.W, σ.transferR w = false ∧
    σ.transferShard w = false ∧ σ.transferOffloading w = false ∧ σ.controllerSignal w = false ∧
      (σ.worker w).myown = false) ∧
    ∀ e < cfg.E, (σ.toRemoveQueue e).items = [] ∧ (σ.toAddQueue e).items = [] := by
  constructor
  · intro h
    exact ⟨fun w hw => ⟨h.transferR w hw, h.transferShard w hw, h.transferOffloading w hw,
      h.controllerSignal w hw, h.myown w hw⟩, fun e he => ⟨h.toRemoveQueue e he, h.toAddQueue e he⟩⟩
  · rintro ⟨hw, he⟩
    exact ⟨fun w h => (hw w h).1, fun w h => (hw w h).2.1, fun w h => (hw w h).2.2.1,
      fun w h => (hw w h).2.2.2.1, fun w h => (hw w h).2.2.2.2, fun e h => (he e h).1,
      fun e h => (he e h).2⟩

instance (σ : Sys D) : Decidable (Handled cfg σ) := decidable_of_iff' _ handled_iff

instance (w e : ℕ) (σ : Sys D) : Decidable (Served cfg w e σ) :=
  inferInstanceAs (Decidable (_ ∧ _ ∧ ∀ e' < cfg.E, _ → _))

instance (σ : Sys D) : Decidable (Linked cfg σ) :=
  inferInstanceAs (Decidable (∀ w < cfg.W, ∀ e < cfg.totalCores, _ → _))

instance (O : ℕ → ℕ → ℕ) (w e : ℕ) : Decidable (ColumnIs cfg O w e) :=
  inferInstanceAs (Decidable (_ ∧ ∀ v < cfg.totalCores, _))

instance (σ : Sys D) : DecidablePred (RelatesCores cfg σ)
  | .epoch (some ans) _ => inferInstanceAs (Decidable (Handled cfg σ ∧
      ∀ w < cfg.W, ∃ e < cfg.E, ∀ v < cfg.totalCores, ans.O v w = if v = e then 1 else 0))
  | .epoch none _ => inferInstanceAs (Decidable (Handled cfg σ ∧ True))
  | .arrive _ => isTrue trivial
  | .work _ _ => isTrue trivial
  | .offload _ _ => isTrue trivial

instance (ans : Option (Answer D)) (σ : Sys D) (w : ℕ) : Decidable (Returns cfg ans σ w) :=
  inferInstanceAs (Decidable (_ ∧ _))

instance (σ : Sys D) : DecidablePred (NoReturn cfg σ)
  | .epoch ans _ => inferInstanceAs (Decidable (∀ w < cfg.W, ¬ Returns cfg ans σ w))
  | .arrive _ => isTrue trivial
  | .work _ _ => isTrue trivial
  | .offload _ _ => isTrue trivial

/-! ## What goes wrong -/

namespace Small

/-- An epoch that relates core `w` to the offloading core `g w`, and the tasks
that handle its requests. -/
def relateAndHandle (g : ℕ → ℕ) : List (Act ℚ) :=
  [.epoch (some (answer id g fun _ => 0)) fun _ => [], .work 0 (task 0), .work 1 (task 0),
    .offload 0 0, .offload 1 0]

/-- The two working cores swap their offloading cores, and then swap them back. -/
def returnRun : List (Act ℚ) :=
  [.offload 0 0, .offload 1 0] ++ relateAndHandle (1 - ·) ++ relateAndHandle id

/-- The cores are not told to come back, and nobody polls their rings. -/
theorem returnRun_notLinked :
    Along (step (router 2)) (fun σ a => Possible (router 2) σ a ∧ RelatesCores (router 2) σ a ∧
        Roomy σ a ∧ KeepsOrder σ a) (init ℚ (router 2)) returnRun ∧
      Handled (router 2) (runFrom (step (router 2)) (init ℚ (router 2)) returnRun) ∧
        ¬ Linked (router 2) (runFrom (step (router 2)) (init ℚ (router 2)) returnRun) := by
  decide +kernel

/-- The same without the way back. -/
def moveRun : List (Act ℚ) := [.offload 0 0, .offload 1 0] ++ relateAndHandle (1 - ·)

/-- Once the request has been served, the core and the offloading core agree. -/
theorem moveRun_linked :
    Linked (router 2) (runFrom (step (router 2)) (init ℚ (router 2)) moveRun) :=
  linked_of_handled (by decide) (by decide +kernel) (by decide +kernel)

end Small

end Fajita
