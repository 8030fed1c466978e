import Fajita.Desk
import Mathlib.Data.List.Nodup

/-!
# Requests to the offloading cores

The working cores and the controller post requests to add and remove rings, and
each offloading core drains them in the order in which `removesFirst` carries
them out. Two standing facts:

* `Mailed` — the control rings hold the requests posted since the last drain, as
  far as they fit;
* `Polled` — carried out in the order of posting (`pending`), the requests leave
  each offloading core with rings in use by the working cores that offload to it,
  none of them twice.
-/

namespace Fajita

variable {D : Type} {cfg : Cfg} {σ σ' : Sys D} {w e : ℕ}

/-- The rings of an offloading core, were the requests posted to it carried out
one at a time in the order of posting. -/
def Sys.pending (σ : Sys D) (e : ℕ) : List RingId := Request.inOrder (σ.core e).Q (σ.posted e)

/-! ## The control rings

`posted` is a record of what has been enqueued since the offloading core last looked. A control ring
holds the removals, or the additions, of that record, in order, as long as there was room.
-/

/-- The control rings hold what fits of the requests posted. -/
structure Mailed (σ : Sys D) : Prop where
  /-- removals -/
  removes : ∀ e, (σ.toRemoveQueue e).capacity = 4095 ∧
    (σ.toRemoveQueue e).items = (Request.removes (σ.posted e)).take 4095
  /-- additions -/
  adds : ∀ e, (σ.toAddQueue e).capacity = 4095 ∧
    (σ.toAddQueue e).items = (Request.adds (σ.posted e)).take 4095

namespace Mailed

/-- `Mailed` depends on the control rings and on what has been posted only. -/
theorem congr (h : Mailed σ) (hr : σ'.toRemoveQueue = σ.toRemoveQueue)
    (ha : σ'.toAddQueue = σ.toAddQueue) (hp : σ'.posted = σ.posted) : Mailed σ' := by
  refine ⟨?_, ?_⟩
  · rw [hr, hp]
    exact h.removes
  · rw [ha, hp]
    exact h.adds

/-- A control ring after one more request. -/
theorem enqueue {Q : Fifo RingId} {xs : List RingId}
    (h : Q.capacity = 4095 ∧ Q.items = xs.take 4095) (r : RingId) :
    (Q.enqueue r).capacity = 4095 ∧ (Q.enqueue r).items = (xs ++ [r]).take 4095 := by
  obtain ⟨hcap, hitems⟩ := h
  have hcap' : (Q.enqueue r).capacity = 4095 := hcap
  refine ⟨hcap', ?_⟩
  rw [Fifo.enqueue_take xs (by rw [hcap, hitems]), hcap']

/-- Posting a removal writes it into the ring and into the record. -/
theorem postRemove (h : Mailed σ) (e : ℕ) (r : RingId) : Mailed (σ.postRemove e r) := by
  refine ⟨fun e' => ?_, fun e' => ?_⟩ <;> by_cases he : e' = e
  · subst he
    simp only [Sys.postRemove, Function.update_self, Request.removes_append]
    exact enqueue (h.removes e') r
  · simp only [Sys.postRemove, Function.update_of_ne he]
    exact h.removes e'
  · subst he
    simp only [Sys.postRemove, Function.update_self, Request.adds_append]
    simpa [Request.adds] using h.adds e'
  · simp only [Sys.postRemove, Function.update_of_ne he]
    exact h.adds e'

/-- Posting an addition writes it into the ring and into the record. -/
theorem postAdd (h : Mailed σ) (e : ℕ) (r : RingId) : Mailed (σ.postAdd e r) := by
  refine ⟨fun e' => ?_, fun e' => ?_⟩ <;> by_cases he : e' = e
  · subst he
    simp only [Sys.postAdd, Function.update_self, Request.removes_append]
    simpa [Request.removes] using h.removes e'
  · simp only [Sys.postAdd, Function.update_of_ne he]
    exact h.removes e'
  · subst he
    simp only [Sys.postAdd, Function.update_self, Request.adds_append]
    exact enqueue (h.adds e') r
  · simp only [Sys.postAdd, Function.update_of_ne he]
    exact h.adds e'

/-- The drain leaves no request. -/
theorem control (h : Mailed σ) (e : ℕ) : Mailed (OffloadingCore.control e σ) := by
  refine ⟨fun e' => ?_, fun e' => ?_⟩ <;> by_cases he : e' = e
  · subst he
    simp only [OffloadingCore.control, Function.update_self]
    exact ⟨(h.removes e').1, rfl⟩
  · simp only [OffloadingCore.control, Function.update_of_ne he]
    exact h.removes e'
  · subst he
    simp only [OffloadingCore.control, Function.update_self]
    exact ⟨(h.adds e').1, rfl⟩
  · simp only [OffloadingCore.control, Function.update_of_ne he]
    exact h.adds e'

/-- The loop of `init_queues` posts what it enqueues. -/
theorem announceAll (E n e : ℕ) :
    let add := forRange n (fun i (add : ℕ → Fifo RingId) =>
      Function.update add (i % E) ((add (i % E)).enqueue (.queue i))) fun _ => Fifo.empty 4095
    let posted := forRange n (fun i (posted : ℕ → List (Request RingId)) =>
      Function.update posted (i % E) (posted (i % E) ++ [.add (.queue i)])) fun _ => []
    ((add e).capacity = 4095 ∧ (add e).items = (Request.adds (posted e)).take 4095) ∧
      Request.removes (posted e) = [] := by
  induction n generalizing e with
  | zero => exact ⟨⟨rfl, rfl⟩, rfl⟩
  | succ n ih =>
    intro add posted
    simp only [add, posted, forRange_succ]
    by_cases he : e = n % E
    · obtain ⟨hadds, hremoves⟩ := ih (n % E)
      rw [he, Function.update_self, Function.update_self, Request.adds_append,
        Request.removes_append, hremoves]
      exact ⟨enqueue hadds _, rfl⟩
    · rw [Function.update_of_ne he, Function.update_of_ne he]
      exact ih e

/-- At the start nothing has been posted. -/
theorem init [Double D] : Mailed (Fajita.init D cfg) := by
  refine ⟨fun e => ⟨rfl, ?_⟩, fun e => ?_⟩
  · simp only [Fajita.init, Init.posted]
    split
    · rw [(announceAll cfg.E cfg.W e).2]
      rfl
    · rfl
  · simp only [Fajita.init, Init.toAddQueue, Init.posted]
    split
    · exact (announceAll cfg.E cfg.W e).1
    · exact ⟨rfl, rfl⟩

end Mailed

/-! ## What is left alone -/

/-- No request is posted or drained, and the cores keep their pointers to `q` and
to the offloading core. -/
structure SameMail (σ σ' : Sys D) : Prop where
  /-- rings towards the offloading cores -/
  q : ∀ v, (σ'.worker v).q = (σ.worker v).q
  /-- offloading cores -/
  offloadingIdx : ∀ v, (σ'.worker v).offloadingIdx = (σ.worker v).offloadingIdx
  /-- rings polled -/
  core : σ'.core = σ.core
  /-- additions under way -/
  toAddQueue : σ'.toAddQueue = σ.toAddQueue
  /-- removals under way -/
  toRemoveQueue : σ'.toRemoveQueue = σ.toRemoveQueue
  /-- requests posted -/
  posted : σ'.posted = σ.posted
  /-- new offloading cores -/
  newOffloading : σ'.newOffloadingFromWorking = σ.newOffloadingFromWorking

namespace SameMail

variable {σ₁ σ₂ σ₃ : Sys D}

theorem refl (σ : Sys D) : SameMail σ σ := ⟨fun _ => rfl, fun _ => rfl, rfl, rfl, rfl, rfl, rfl⟩

theorem trans (h : SameMail σ₁ σ₂) (h' : SameMail σ₂ σ₃) : SameMail σ₁ σ₃ :=
  ⟨fun v => (h'.q v).trans (h.q v), fun v => (h'.offloadingIdx v).trans (h.offloadingIdx v),
    h'.core.trans h.core, h'.toAddQueue.trans h.toAddQueue,
    h'.toRemoveQueue.trans h.toRemoveQueue, h'.posted.trans h.posted,
    h'.newOffloading.trans h.newOffloading⟩

/-- A change that leaves the cores alone. -/
theorem of_worker {σ σ' : Sys D} (hw : σ'.worker = σ.worker) (hc : σ'.core = σ.core)
    (ha : σ'.toAddQueue = σ.toAddQueue) (hr : σ'.toRemoveQueue = σ.toRemoveQueue)
    (hp : σ'.posted = σ.posted)
    (hn : σ'.newOffloadingFromWorking = σ.newOffloadingFromWorking) : SameMail σ σ' :=
  ⟨fun v => by rw [hw], fun v => by rw [hw], hc, ha, hr, hp, hn⟩

/-- A change of `myown` of a core. -/
theorem of_myown {σ σ' : Sys D} (b : Bool)
    (hw : σ'.worker = Function.update σ.worker w { σ.worker w with myown := b })
    (hc : σ'.core = σ.core) (ha : σ'.toAddQueue = σ.toAddQueue)
    (hr : σ'.toRemoveQueue = σ.toRemoveQueue) (hp : σ'.posted = σ.posted)
    (hn : σ'.newOffloadingFromWorking = σ.newOffloadingFromWorking) : SameMail σ σ' := by
  refine ⟨fun v => ?_, fun v => ?_, hc, ha, hr, hp, hn⟩ <;> by_cases hv : v = w
  · subst hv
    rw [hw, Function.update_self]
  · rw [hw, Function.update_of_ne hv]
  · subst hv
    rw [hw, Function.update_self]
  · rw [hw, Function.update_of_ne hv]

/-- A piece of a task that posts nothing keeps `Mailed`. -/
theorem mailed (h : SameMail σ σ') (hm : Mailed σ) : Mailed σ' :=
  hm.congr h.toRemoveQueue h.toAddQueue h.posted

/-- Where nothing is posted, the pending rings are the same. -/
theorem pending (h : SameMail σ σ') (e : ℕ) : σ'.pending e = σ.pending e := by
  rw [Sys.pending, Sys.pending, h.core, h.posted]

end SameMail

namespace WorkingCore

/-- Taking packets back posts nothing. -/
theorem takeBack_sameMail : SameMail σ (takeBack cfg w σ) := by
  simp only [takeBack]
  split
  · exact .of_myown true rfl rfl rfl rfl rfl rfl
  · exact .refl σ

/-- Reading the NIC queue posts nothing. -/
theorem receiveAll_sameMail (drains : List ℕ) : SameMail σ (receiveAll cfg w drains σ) :=
  .of_myown _ rfl rfl rfl rfl rfl rfl

/-- Looking at the news posts nothing. -/
theorem processChanges_sameMail : SameMail σ (processChanges cfg w σ) := by
  simp only [processChanges]
  split
  · exact .of_myown _ rfl rfl rfl rfl rfl rfl
  · exact .refl σ

/-- The end of a drained ring posts nothing. -/
theorem drained_sameMail : SameMail σ (drained cfg w σ) := .of_myown false rfl rfl rfl rfl rfl rfl

/-- A task posts through `exchange`, `withdraw`, `announce` and `adopt` only. -/
theorem Stage.mailed [Double D] (hm : Mailed σ) (hs : Stage cfg w σ σ') : Mailed σ' := by
  cases hs with
  | takeBack => exact takeBack_sameMail.mailed hm
  | receiveAll drains => exact (receiveAll_sameMail drains).mailed hm
  | processChanges => exact processChanges_sameMail.mailed hm
  | exchange =>
    simp only [WorkingCore.exchange]
    split
    · simp only [swapRings]
      -- the removal of the old `q` is posted before the addition of the new one
      refine Mailed.postAdd ?_ _ _
      exact (hm.postRemove (σ.worker w).offloadingIdx (σ.worker w).q).congr rfl rfl rfl
    · exact hm
  | withdraw =>
    simp only [WorkingCore.withdraw]
    split
    · exact hm.postRemove _ _
    · exact hm
  | announce =>
    simp only [WorkingCore.announce]
    split
    · exact hm.postAdd _ _
    · exact hm
  | adopt =>
    simp only [WorkingCore.adopt]
    split
    · exact (hm.postAdd _ _ : Mailed (σ.postAdd _ _)).congr rfl rfl rfl
    · exact hm
  | takeRatios | releaseAll | doneR | doneOffloading | doneShard | doneSignal | drained | forward
  | workOff => exact hm.congr rfl rfl rfl

end WorkingCore

/-! ## The rings in use

At any time a ring is pending at one offloading core at most. The argument is the same in the three
transfer routines: the core withdraws its ring, in between it is nowhere, and it announces it at one
place.
-/

/-- The requests leave each offloading core with rings in use by the working cores
that offload to it, none of them twice. -/
structure Polled (cfg : Cfg) (σ : Sys D) : Prop where
  /-- no ring twice -/
  nodup : ∀ e < cfg.E, (σ.pending e).Nodup
  /-- every ring is the `q` of a core that offloads to `e` -/
  inUse : ∀ e < cfg.E, ∀ r ∈ σ.pending e,
    ∃ v, r = (σ.worker v).q ∧ (σ.worker v).offloadingIdx = e

/-- No offloading core is left with the `q` of core `w`. -/
def Withdrawn (cfg : Cfg) (w : ℕ) (σ : Sys D) : Prop := ∀ e < cfg.E, (σ.worker w).q ∉ σ.pending e

/-- The number of an offloading core is not the mark for "none". -/
theorem Cfg.ne_uint32Max' {e : ℕ} (he : e < cfg.E) : e ≠ uint32Max := by
  have := cfg.cores_le
  rw [uint32Max]
  omega

/-- A removal takes the ring out of what is pending at that offloading core. -/
theorem pending_postRemove (e : ℕ) (r : RingId) (e' : ℕ) : (σ.postRemove e r).pending e' =
    if e' = e then (σ.pending e').filter (· ≠ r) else σ.pending e' := by
  simp only [Sys.pending, Sys.postRemove]
  by_cases he : e' = e
  · subst he
    rw [if_pos rfl, Function.update_self, Request.inOrder_remove]
  · rw [if_neg he, Function.update_of_ne he]

/-- An addition puts the ring at the end of what is pending at that offloading core. -/
theorem pending_postAdd (e : ℕ) (r : RingId) (e' : ℕ) : (σ.postAdd e r).pending e' =
    if e' = e then σ.pending e' ++ [r] else σ.pending e' := by
  simp only [Sys.pending, Sys.postAdd]
  by_cases he : e' = e
  · subst he
    rw [if_pos rfl, Function.update_self, Request.inOrder_add]
  · rw [if_neg he, Function.update_of_ne he]

/-- Two cores have no ring in common. -/
theorem Wired.q_inj (h : Wired cfg σ) {v : ℕ} (hq : (σ.worker v).q = (σ.worker w).q) : v = w := by
  rw [← (h.pair v).q_core, hq, (h.pair w).q_core]

/-- No ring is `q` of one core and `myring` of another. -/
theorem Wired.q_ne_myring (h : Wired cfg σ) (v w : ℕ) :
    (σ.worker v).q ≠ (σ.worker w).myring := by
  intro heq
  have hvw : v = w := by rw [← (h.pair v).q_core, heq, (h.pair w).myring_core]
  subst hvw
  exact (h.pair v).q_ne_myring heq

namespace Polled

/-- Where nothing is posted, the rings stay where they are. -/
theorem of_same (h : Polled cfg σ) (hs : SameMail σ σ') : Polled cfg σ' := by
  refine ⟨fun e he => ?_, fun e he r hr => ?_⟩
  · rw [hs.pending]
    exact h.nodup e he
  · rw [hs.pending] at hr
    obtain ⟨v, hq, hidx⟩ := h.inUse e he r hr
    exact ⟨v, by rw [hs.q, hq], by rw [hs.offloadingIdx, hidx]⟩

/-- Removals do no harm. -/
theorem of_sublist (h : Polled cfg σ) (hq : ∀ v, (σ'.worker v).q = (σ.worker v).q)
    (hidx : ∀ v, (σ'.worker v).offloadingIdx = (σ.worker v).offloadingIdx)
    (hp : ∀ e, (σ'.pending e).Sublist (σ.pending e)) : Polled cfg σ' := by
  refine ⟨fun e he => (h.nodup e he).sublist (hp e), fun e he r hr => ?_⟩
  obtain ⟨v, hv, hidx'⟩ := h.inUse e he r ((hp e).subset hr)
  exact ⟨v, by rw [hq, hv], by rw [hidx, hidx']⟩

theorem postRemove (h : Polled cfg σ) (e : ℕ) (r : RingId) : Polled cfg (σ.postRemove e r) := by
  refine h.of_sublist (fun _ => rfl) (fun _ => rfl) fun e' => ?_
  rw [pending_postRemove]
  split
  · exact List.filter_sublist
  · exact .refl _

/-- A core with no `q` in use brings a new one into use. -/
theorem add (h : Polled cfg σ) (hw : Withdrawn cfg w σ) {r : RingId} (e₀ : ℕ)
    (hnew : ∀ e < cfg.E, r ∉ σ.pending e) (hother : ∀ v ≠ w, σ'.worker v = σ.worker v)
    (hq : (σ'.worker w).q = r) (hidx : (σ'.worker w).offloadingIdx = e₀)
    (hpend : ∀ e, σ'.pending e = if e = e₀ then σ.pending e ++ [r] else σ.pending e) :
    Polled cfg σ' := by
  have hold : ∀ e < cfg.E, ∀ r' ∈ σ.pending e,
      ∃ v, r' = (σ'.worker v).q ∧ (σ'.worker v).offloadingIdx = e := by
    intro e he r' hr'
    obtain ⟨v, hv, hve⟩ := h.inUse e he r' hr'
    have hvw : v ≠ w := fun hvw => hw e he (by rw [← hvw, ← hv]; exact hr')
    exact ⟨v, by rw [hother v hvw, hv], by rw [hother v hvw, hve]⟩
  refine ⟨fun e he => ?_, fun e he r' hr' => ?_⟩
  · rw [hpend]
    split
    · rw [← List.concat_eq_append]
      exact List.Nodup.concat (hnew e he) (h.nodup e he)
    · exact h.nodup e he
  · rw [hpend] at hr'
    split at hr'
    · next he₀ =>
      rcases List.mem_append.mp hr' with hr' | hr'
      · exact hold e he r' hr'
      · exact ⟨w, by rw [hq, List.mem_singleton.mp hr'], by rw [hidx, he₀]⟩
    · exact hold e he r' hr'

end Polled

/-- Where nothing is posted, a withdrawn ring stays withdrawn. -/
theorem Withdrawn.of_same (h : Withdrawn cfg w σ) (hs : SameMail σ σ') : Withdrawn cfg w σ' := by
  intro e he
  rw [hs.q, hs.pending]
  exact h e he

namespace WorkingCore

/-- Withdrawing puts no ring anywhere. -/
theorem withdraw_polled (hp : Polled cfg σ) : Polled cfg (withdraw w σ) := by
  simp only [withdraw]
  split
  · exact hp.postRemove _ _
  · exact hp

/-- After its request for removal, the `q` of a core is in use nowhere. -/
theorem postRemove_withdrawn (h : Wired cfg σ) (hp : Polled cfg σ) :
    Withdrawn cfg w (σ.postRemove (σ.worker w).offloadingIdx (σ.worker w).q) := by
  intro e he
  change (σ.worker w).q ∉ _
  rw [pending_postRemove]
  split
  · simp
  · next hne =>
    intro hmem
    obtain ⟨v, hq, hidx⟩ := hp.inUse e he _ hmem
    obtain rfl := h.q_inj hq.symm
    exact hne hidx.symm

/-- **After `withdraw` nobody has the ring** of the core: the only one who had it has been told. -/
theorem withdraw_withdrawn (h : Wired cfg σ) (hp : Polled cfg σ) :
    Withdrawn cfg w (withdraw w σ) := by
  simp only [withdraw]
  split
  · exact postRemove_withdrawn h hp
  · next hmax =>
    rw [ne_eq, not_not] at hmax
    intro e he hmem
    obtain ⟨v, hq, hidx⟩ := hp.inUse e he _ hmem
    obtain rfl := h.q_inj hq.symm
    exact Cfg.ne_uint32Max' he (hidx.symm.trans hmax)

/-- A withdrawn ring may be announced to the offloading core that it belongs to. -/
theorem announce_polled (hp : Polled cfg σ) (hw : Withdrawn cfg w σ) :
    Polled cfg (announce w σ) := by
  simp only [announce]
  split
  · exact hp.add hw _ hw (fun _ _ => rfl) rfl rfl (pending_postAdd _ _)
  · exact hp

/-- A withdrawn ring may be announced to the new offloading core. -/
theorem adopt_polled (hp : Polled cfg σ) (hw : Withdrawn cfg w σ) : Polled cfg (adopt w σ) := by
  simp only [adopt]
  split
  · refine hp.add hw (σ.newOffloadingFromWorking w) hw (fun v hv => ?_) ?_ ?_ fun e =>
      pending_postAdd (σ := σ) (σ.newOffloadingFromWorking w) (σ.worker w).q e
    · exact Function.update_of_ne hv ..
    · simp [Sys.setWorker, Sys.postAdd]
    · simp [Sys.setWorker]
  · exact hp

/-- The ring that becomes `q` in an exchange was in use nowhere. -/
theorem exchange_polled (h : Wired cfg σ) (hp : Polled cfg σ) : Polled cfg (exchange w σ) := by
  simp only [exchange]
  split
  · refine (hp.postRemove _ _).add (postRemove_withdrawn h hp) (r := (σ.worker w).myring)
      (σ.worker w).offloadingIdx (fun e he hmem => ?_) (fun v hv => ?_) ?_ ?_
      fun e => pending_postAdd (σ := σ.postRemove (σ.worker w).offloadingIdx (σ.worker w).q)
        (σ.worker w).offloadingIdx (σ.worker w).myring e
    · obtain ⟨v, hq, -⟩ := (hp.postRemove _ _).inUse e he _ hmem
      exact h.q_ne_myring v w hq.symm
    · exact Function.update_of_ne hv ..
    · simp [swapRings, Sys.setWorker, Sys.postAdd, Sys.postRemove]
    · simp [swapRings, Sys.setWorker, Sys.postAdd, Sys.postRemove]
  · exact hp

/-- `transfer_r` withdraws before it announces. -/
theorem transferR_polled (h : Wired cfg σ) (hp : Polled cfg σ) :
    Polled cfg (transferR cfg w σ) :=
  (exchange_polled h hp).of_same (.of_worker rfl rfl rfl rfl rfl rfl)

/-- `transfer_offloading` withdraws before it announces. -/
theorem transferOffloading_polled (h : Wired cfg σ) (hp : Polled cfg σ) :
    Polled cfg (transferOffloading cfg w σ) := by
  refine Polled.of_same (adopt_polled ?_ ?_) (.of_worker rfl rfl rfl rfl rfl rfl)
  · exact (withdraw_polled hp).of_same takeBack_sameMail
  · exact (withdraw_withdrawn h hp).of_same takeBack_sameMail

/-- `transfer_shard` withdraws before it announces. -/
theorem transferShard_polled (h : Wired cfg σ) (drains : List ℕ) (hp : Polled cfg σ) :
    Polled cfg (transferShard cfg w drains σ) := by
  have hsame : SameMail (withdraw w σ)
      (takeBack cfg w (receiveAll cfg w drains (withdraw w σ))) :=
    (receiveAll_sameMail drains).trans takeBack_sameMail
  have hcollect : Polled cfg (collect cfg w drains σ) :=
    announce_polled ((withdraw_polled hp).of_same hsame) ((withdraw_withdrawn h hp).of_same hsame)
  simp only [transferShard]
  split <;> exact hcollect.of_same (.of_worker rfl rfl rfl rfl rfl rfl)

variable [Double D]

/-- **Serving the signal** leaves no ring at two offloading cores. -/
theorem serveSignal_polled (h : Wired cfg σ) (hw : w < cfg.W) (drains : List ℕ)
    (hp : Polled cfg σ) :
    Polled cfg (serveSignal cfg w drains σ) :=
  h.serveSignal_rule hw drains (fun _ h hp => transferR_polled h hp)
    (fun _ h hp => transferOffloading_polled h hp) (fun _ h hp => transferShard_polled h drains hp)
    (fun _ hp => hp.of_same (.of_worker rfl rfl rfl rfl rfl rfl)) hp

/-- **A task keeps the rings in use in order.** -/
theorem runTask_polled (h : Wired cfg σ) (hw : w < cfg.W) (inp : TaskInput) (hp : Polled cfg σ) :
    Polled cfg (runTask cfg w inp σ).1 := by
  simp only [runTask]
  split
  · split
    · exact hp.of_same drained_sameMail
    · exact hp.of_same (.of_worker rfl rfl rfl rfl rfl rfl)
  · exact ((serveSignal_polled h hw inp.drains hp).of_same processChanges_sameMail).of_same
      (.of_worker rfl rfl rfl rfl rfl rfl)

end WorkingCore

end Fajita
