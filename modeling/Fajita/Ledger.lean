import Fajita.Traffic
import Mathlib.Algebra.BigOperators.Group.Finset.Basic
import Mathlib.Algebra.Order.Group.Multiset
import Mathlib.Tactic.Abel

/-!
# Where buffers are

Every buffer handed out by `rte_eth_rx_burst` waits in a ring or in a local queue
(`places`), has been accepted by `rte_eth_tx_burst`, or is lost: the accounts are
always in balance (`Accounted`), whatever the queues refuse. So buffers are
conserved exactly when none is lost. No element frees a buffer.

Buffers are counted as multisets, so that balance says of each buffer that it is in
one place, and as often as it was handed out.
-/

namespace Fajita

variable {D : Type} {cfg : Cfg} {σ σ' : Sys D} {w : ℕ}

/-! ## The rings

Every packet that has been received is in a ring or in a local queue, has been sent or is lost. The
account is a multiset, since two packets may look the same.
-/

/-- What waits in the two rings of a core. -/
def pairItems (ring : RingId → Fifo Packet) (w : ℕ) : Multiset Packet :=
  ↑(ring (.ring w)).items + ↑(ring (.queue w)).items

/-- What waits in the rings of the working cores. -/
def ringItems (cfg : Cfg) (ring : RingId → Fifo Packet) : Multiset Packet :=
  ∑ w ∈ Finset.range cfg.W, pairItems ring w

/-- What waits in the local queues of the shards. -/
def localItems (cfg : Cfg) (σ : Sys D) : Multiset Packet :=
  ∑ s ∈ Finset.range cfg.totalShards, ↑(σ.shards s).localQueue.items

/-- What waits somewhere in the router. -/
def places (cfg : Cfg) (σ : Sys D) : Multiset Packet := ringItems cfg σ.ring + localItems cfg σ

/-- What has been handed out waits in the router or has been sent. -/
def Conserved (cfg : Cfg) (σ : Sys D) : Prop :=
  (↑σ.received : Multiset Packet) = places cfg σ + ↑σ.transmitted

instance (σ : Sys D) : Decidable (Conserved cfg σ) := inferInstanceAs (Decidable (_ = _))

/-- What has been handed out waits in the router, has been sent or is lost. -/
def Accounted (cfg : Cfg) (σ : Sys D) : Prop :=
  (↑σ.received : Multiset Packet) = places cfg σ + ↑σ.transmitted + ↑σ.lost

/-- Balanced accounts conserve the buffers exactly when none is lost. -/
theorem Accounted.conserved_iff (h : Accounted cfg σ) : Conserved cfg σ ↔ σ.lost = [] := by
  rw [Conserved, h]
  constructor
  · intro heq
    rw [add_eq_left] at heq
    exact (Multiset.coe_eq_zero _).mp heq
  · intro hlost
    rw [hlost, Multiset.coe_nil, add_zero]

/-- A new content of one ring. -/
theorem ringItems_update (ring : RingId → Fifo Packet) {r : RingId} (hr : r.core < cfg.W)
    (Q : Fifo Packet) :
    ringItems cfg (Function.update ring r Q) + ↑(ring r).items = ringItems cfg ring + ↑Q.items := by
  have hother : ∀ v ∈ (Finset.range cfg.W).erase r.core,
      pairItems (Function.update ring r Q) v = pairItems ring v := by
    intro v hv
    have hne : ∀ r' : RingId, r'.core = v → r' ≠ r := by
      rintro r' hr' rfl
      exact (Finset.mem_erase.mp hv).1 hr'.symm
    rw [pairItems, pairItems, Function.update_of_ne (hne _ rfl), Function.update_of_ne (hne _ rfl)]
  have hself : pairItems (Function.update ring r Q) r.core + ↑(ring r).items =
      pairItems ring r.core + ↑Q.items := by
    cases r with
    | ring i =>
      simp only [pairItems, RingId.core, Function.update_self]
      rw [Function.update_of_ne (by simp)]
      abel
    | queue i =>
      simp only [pairItems, RingId.core, Function.update_self]
      rw [Function.update_of_ne (by simp)]
      abel
  rw [ringItems, ringItems, ← Finset.add_sum_erase _ _ (Finset.mem_range.mpr hr),
    ← Finset.add_sum_erase _ (pairItems ring) (Finset.mem_range.mpr hr),
    Finset.sum_congr rfl hother, add_right_comm, hself, add_right_comm]

/-- A burst offered to a ring. -/
theorem ringItems_enqueue (ring : RingId → Fifo Packet) {r : RingId} (hr : r.core < cfg.W)
    (xs : List Packet) :
    ringItems cfg (Function.update ring r ((ring r).enqueueBurst xs)) + ↑((ring r).refused xs) =
      ringItems cfg ring + ↑xs := by
  have h := ringItems_update ring hr ((ring r).enqueueBurst xs)
  have hsplit : (↑((ring r).enqueueBurst xs).items : Multiset Packet) + ↑((ring r).refused xs) =
      ↑(ring r).items + ↑xs := by
    rw [Fifo.enqueueBurst_items, ← Multiset.coe_add, add_assoc, Multiset.coe_add,
      Fifo.accepted_append_refused]
  refine add_right_cancel (b := (↑(ring r).items : Multiset Packet)) ?_
  rw [add_right_comm, h, add_assoc, hsplit]
  abel

/-- A burst taken off a ring. -/
theorem ringItems_dequeue {ring : RingId → Fifo Packet} {r : RingId} (hr : r.core < cfg.W)
    (n : ℕ) :
    ringItems cfg (Function.update ring r ((ring r).dequeueBurst n).2) + ↑((ring r).items.take n) =
      ringItems cfg ring := by
  have h := ringItems_update ring hr ((ring r).dequeueBurst n).2
  have hsplit : (↑(ring r).items : Multiset Packet) =
      ↑((ring r).items.take n) + ↑((ring r).dequeueBurst n).2.items := by
    rw [Fifo.dequeueBurst_items, Multiset.coe_add, List.take_append_drop]
  rw [hsplit] at h
  refine add_right_cancel (b := (↑((ring r).dequeueBurst n).2.items : Multiset Packet)) ?_
  rw [add_assoc, h]

/-! ## The stages

Each stage of a task moves packets from one account to another, so that the sum stays.
-/

namespace Accounted

/-- A change of none of the accounts. -/
theorem of_same (h : Accounted cfg σ) (hring : σ'.ring = σ.ring)
    (hlocal : ∀ s, (σ'.shards s).localQueue = (σ.shards s).localQueue)
    (hreceived : σ'.received = σ.received) (hsent : σ'.transmitted = σ.transmitted)
    (hlost : σ'.lost = σ.lost) : Accounted cfg σ' := by
  have hlocal' : localItems cfg σ' = localItems cfg σ := by
    rw [localItems, localItems]
    exact Finset.sum_congr rfl fun s _ => by rw [hlocal]
  rw [Accounted, places, hring, hlocal', hreceived, hsent, hlost]
  exact h

theorem of_repointed (h : Accounted cfg σ) (hsame : WorkingCore.Repointed σ σ') :
    Accounted cfg σ' :=
  h.of_same hsame.ring (fun s => by rw [hsame.shards]) hsame.received hsame.transmitted hsame.lost

/-- What comes in, goes on and gets lost adds up. -/
theorem of_balance (h : Accounted cfg σ) (new sent lost : List Packet)
    (hlocal : ∀ s, (σ'.shards s).localQueue = (σ.shards s).localQueue)
    (hreceived : σ'.received = σ.received ++ new) (hsent : σ'.transmitted = σ.transmitted ++ sent)
    (hlost : σ'.lost = σ.lost ++ lost)
    (hbalance : ringItems cfg σ'.ring + (↑sent + ↑lost) = ringItems cfg σ.ring + ↑new) :
    Accounted cfg σ' := by
  have hlocal' : localItems cfg σ' = localItems cfg σ := by
    rw [localItems, localItems]
    exact Finset.sum_congr rfl fun s _ => by rw [hlocal]
  rw [Accounted, places] at h ⊢
  rw [hlocal', hreceived, hsent, hlost, ← Multiset.coe_add, ← Multiset.coe_add,
    ← Multiset.coe_add, h]
  have key := congrArg (· + (localItems cfg σ + ↑σ.transmitted + ↑σ.lost)) hbalance
  calc ringItems cfg σ.ring + localItems cfg σ + ↑σ.transmitted + ↑σ.lost + ↑new
      = ringItems cfg σ.ring + ↑new + (localItems cfg σ + ↑σ.transmitted + ↑σ.lost) := by abel
    _ = ringItems cfg σ'.ring + (↑sent + ↑lost) +
          (localItems cfg σ + ↑σ.transmitted + ↑σ.lost) := key.symm
    _ = ringItems cfg σ'.ring + localItems cfg σ + (↑σ.transmitted + ↑sent) +
          (↑σ.lost + ↑lost) := by abel

end Accounted

/-- `push_batch` sends a part of the batch and loses the rest. -/
theorem pushBatch_split (cfg : Cfg) (i accept : ℕ) (batch : List Packet) :
    (↑((batch.take (cfg.outBurst i)).take accept) : Multiset Packet) +
      ↑(batch.drop ((batch.take (cfg.outBurst i)).take accept).length) = ↑batch := by
  have htake : (batch.take (cfg.outBurst i)).take accept =
      batch.take ((batch.take (cfg.outBurst i)).take accept).length := by
    rw [List.take_take, List.length_take, List.take_eq_take_iff]
    omega
  rw [Multiset.coe_add]
  nth_rewrite 1 [htake]
  rw [List.take_append_drop]

namespace WorkingCore

/-- `run` splits the batch in two. -/
theorem classify_split [Double D] (cfg : Cfg) (w : ℕ) (epoch : UInt32) (ps : List Packet) :
    ∀ shards : ℕ → ShardInfo D, (↑(classify cfg w epoch ps shards).2.1 : Multiset Packet) +
      ↑(classify cfg w epoch ps shards).2.2 = ↑ps := by
  induction ps with
  | nil => exact fun _ => rfl
  | cons p ps ih =>
    intro shards
    simp only [classify]
    split
    · rw [← Multiset.cons_coe, Multiset.add_cons, ih, Multiset.cons_coe]
    · rw [← Multiset.cons_coe, Multiset.cons_add, ih, Multiset.cons_coe]

theorem takeBack_accounted (h : Wired cfg σ) (hw : w < cfg.W) (ha : Accounted cfg σ) :
    Accounted cfg (takeBack cfg w σ) := by
  rw [takeBack_eq h]
  refine ha.of_balance [] [] ((σ.ring (σ.worker w).myring).refused (σ.qItems w)) (fun _ => rfl)
    (List.append_nil _).symm (List.append_nil _).symm rfl ?_
  have hq : (σ.worker w).q.core < cfg.W := by rw [(h.pair w).q_core]; exact hw
  have hm : (σ.worker w).myring.core < cfg.W := by rw [(h.pair w).myring_core]; exact hw
  have hne := (h.pair w).q_ne_myring.symm
  have hclear := ringItems_update σ.ring hq (σ.ring (σ.worker w).q).clear
  have henqueue := ringItems_enqueue
    (Function.update σ.ring (σ.worker w).q (σ.ring (σ.worker w).q).clear) hm (σ.qItems w)
  rw [Function.update_of_ne hne] at henqueue
  rw [Fifo.clear_items] at hclear
  change ringItems cfg (poured w σ) + _ = _
  simp only [Multiset.coe_nil, zero_add, add_zero] at hclear ⊢
  rw [poured, henqueue]
  exact hclear

theorem receiveAll_accounted (h : Wired cfg σ) (hw : w < cfg.W) (drains : List ℕ)
    (ha : Accounted cfg σ) : Accounted cfg (receiveAll cfg w drains σ) := by
  rw [receiveAll_eq]
  refine ha.of_balance (rxPrefix cfg w drains σ) []
    ((σ.ring (σ.worker w).myring).refused (rxPrefix cfg w drains σ)) (fun _ => rfl)
    rfl (List.append_nil _).symm rfl ?_
  have hm : (σ.worker w).myring.core < cfg.W := by rw [(h.pair w).myring_core]; exact hw
  rw [Multiset.coe_nil, zero_add]
  exact ringItems_enqueue _ hm _

variable [Double D]

theorem forward_accounted (h : Wired cfg σ) (hw : w < cfg.W) (accept : ℕ) (batch : List Packet)
    (ha : Accounted cfg σ) : Accounted cfg (forward cfg w accept batch σ).1 := by
  have hq : (σ.worker w).q.core < cfg.W := by rw [(h.pair w).q_core]; exact hw
  refine ha.of_balance batch
    (((classify cfg w σ.epoch batch σ.shards).2.1.take (cfg.outBurst w)).take accept)
    ((classify cfg w σ.epoch batch σ.shards).2.1.drop
        (((classify cfg w σ.epoch batch σ.shards).2.1.take (cfg.outBurst w)).take accept).length ++
      (σ.ring (σ.worker w).q).refused (classify cfg w σ.epoch batch σ.shards).2.2)
    (forward_sameHandover accept batch).localQueue rfl rfl (List.append_assoc ..) ?_
  have hring : (forward cfg w accept batch σ).1.ring = Function.update σ.ring (σ.worker w).q
      ((σ.ring (σ.worker w).q).enqueueBurst (classify cfg w σ.epoch batch σ.shards).2.2) := rfl
  have henqueue := ringItems_enqueue σ.ring hq (classify cfg w σ.epoch batch σ.shards).2.2
  have hpush := pushBatch_split cfg w accept (classify cfg w σ.epoch batch σ.shards).2.1
  have hregroup : ∀ ring sent rest refused : Multiset Packet,
      ring + (sent + (rest + refused)) = ring + refused + (sent + rest) := by
    intros
    abel
  rw [← hring] at henqueue
  rw [← Multiset.coe_add, hregroup, henqueue, hpush,
    ← classify_split cfg w σ.epoch batch σ.shards]
  abel

theorem workOff_accounted (h : Wired cfg σ) (hw : w < cfg.W) (accept : ℕ)
    (ha : Accounted cfg σ) : Accounted cfg (workOff cfg w accept σ).1 := by
  have hm : (σ.worker w).myring.core < cfg.W := by rw [(h.pair w).myring_core]; exact hw
  let batch := (σ.ring (σ.worker w).myring).items.take
    (min (σ.ring (σ.worker w).myring).count (cfg.burst w))
  refine ha.of_balance [] ((batch.take (cfg.outBurst w)).take accept)
    (batch.drop ((batch.take (cfg.outBurst w)).take accept).length)
    (workOff_sameHandover accept).localQueue (List.append_nil _).symm rfl rfl ?_
  rw [pushBatch_split, Multiset.coe_nil, add_zero]
  exact ringItems_dequeue hm _

/-- **Every stage keeps the accounts in balance.** -/
theorem Stage.accounted (h : Wired cfg σ) (hw : w < cfg.W) (ha : Accounted cfg σ)
    (hs : Stage cfg w σ σ') : Accounted cfg σ' := by
  have hlocal := hs.localQueue h
  cases hs with
  | takeBack => exact takeBack_accounted h hw ha
  | receiveAll drains => exact receiveAll_accounted h hw drains ha
  | forward ready accept => exact forward_accounted h hw accept _ ha
  | workOff accept => exact workOff_accounted h hw accept ha
  | processChanges =>
    rw [processChanges_eq h.noLocal]
    exact ha.of_same rfl (fun _ => rfl) rfl rfl rfl
  | exchange => exact ha.of_repointed exchange_repointed
  | withdraw => exact ha.of_repointed withdraw_repointed
  | announce => exact ha.of_repointed announce_repointed
  | adopt => exact ha.of_repointed adopt_repointed
  | takeRatios | releaseAll | doneR | doneOffloading | doneShard | doneSignal | drained =>
    exact ha.of_same rfl hlocal rfl rfl rfl

end WorkingCore

variable [Double D]

/-- **Every step keeps the accounts in balance.** -/
theorem Accounted.step (h : Accounted cfg σ) (hwired : Wired cfg σ) {a : Act D}
    (hp : Possible cfg σ a) : Accounted cfg (step cfg σ a) := by
  cases a with
  | arrive p => exact h.of_same rfl (fun _ => rfl) rfl rfl rfl
  | epoch ans vec =>
    have hf := Controller.updateShortEpoch_frame cfg σ ans vec
    exact h.of_same hf.traffic.ring hf.localQueue hf.traffic.received hf.traffic.transmitted
      hf.traffic.lost
  | work w inp =>
    exact (hwired.runTask_inv (P := Accounted cfg) hp
      (fun _ _ hσ ha hs => hs.accounted hσ hp ha) h inp).2
  | offload e accept =>
    have hcontrol : Accounted cfg (OffloadingCore.control e σ) :=
      h.of_same rfl (fun _ => rfl) rfl rfl rfl
    simp only [Fajita.step, OffloadingCore.runTask, OffloadingCore.poll]
    cases OffloadingCore.choose ((OffloadingCore.control e σ).core e) with
    | none => exact hcontrol
    | some r =>
      dsimp only
      refine hcontrol.of_balance [] _ _ (fun _ => rfl) (List.append_nil _).symm rfl rfl ?_
      rw [pushBatch_split, Multiset.coe_nil, add_zero]
      by_cases hr : r.core < cfg.W
      · exact ringItems_dequeue hr _
      · have hnil : (σ.ring r).items = [] := hwired.foreign r (Nat.le_of_not_lt hr)
        have hempty : ((σ.ring r).dequeueBurst (cfg.coreBurst e)).2 = σ.ring r := by
          refine Fifo.ext rfl ?_
          rw [Fifo.dequeueBurst_items, hnil, List.drop_nil]
        change ringItems cfg (Function.update σ.ring r
            ((σ.ring r).dequeueBurst (cfg.coreBurst e)).2) +
          ↑((σ.ring r).items.take (cfg.coreBurst e)) = ringItems cfg σ.ring
        rw [hempty, Function.update_eq_self, hnil, List.take_nil, Multiset.coe_nil, add_zero]

theorem accounted_init : Accounted cfg (init D cfg) := by
  simp [Accounted, places, ringItems, localItems, pairItems, Fajita.init, Init.shard]

end Fajita
