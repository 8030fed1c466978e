import Fajita.Stranding
import Fajita.Traffic

/-!
# Exclusive processing of a migrating shard

While a shard is on its way, only its old owner should look its packets up, and
nobody else should still hold a packet of it (`Exclusive`). The receive path never
consults `pause` and never fills `local_queue`, so this rests on the order in
which packets arrive and cores are served. `Orderly` is what it takes:

* a packet arrives at the core that has its shard;
* a core takes no packet of a shard off its NIC queue that is paused on its way to
  it — the check the receive path lacks;
* a core ends the pause of a shard from the drained branch only when its NIC queue
  holds no packet of the shard — the drained branch does not look;
* a shard is moved only while the core it is assigned to is its owner;
* no task strands the packets it takes back.
-/

namespace Fajita

variable {D : Type} {cfg : Cfg} {σ σ' : Sys D} {w : ℕ} {p : Packet}

open WorkingCore

/-- Shard `s` is paused on its way to core `w`. -/
def Incoming (σ : Sys D) (w s : ℕ) : Prop :=
  (σ.shards s).pause = true ∧ (σ.shards s).ownerNew = w

instance (σ : Sys D) (w s : ℕ) : Decidable (Incoming σ w s) := inferInstanceAs (Decidable (_ ∧ _))

instance (A : ℕ → ℕ → ℕ) (s a : ℕ) : Decidable (RowIs cfg A s a) :=
  inferInstanceAs (Decidable (_ ∧ ∀ v < cfg.totalCores, _))

/-- Whenever a task looks a packet up, its shard is not on its way to the core,
and no other core holds a packet of the shard from before the migration: none in
its own ring, and in its NIC queue only if the shard is on its way there. The core
a shard is moved to holds no packet of it at that time, so all it holds later are
packets from after the migration. -/
def Exclusive [Double D] (cfg : Cfg) (σ : Sys D) : Act D → Prop
  | .epoch ans _ => ∀ s < cfg.totalShards, ∀ b < cfg.W,
      Controller.asked cfg ans σ s b = 1 → σ.A s b = 0 →
        ∀ p ∈ σ.rx b ++ (σ.qItems b ++ σ.myItems b), cfg.shardOf p ≠ s
  | .work w inp => ∀ p ∈ (runTask cfg w inp σ).2.extracted,
      ¬ Incoming σ w (cfg.shardOf p) ∧ ∀ v < cfg.W, v ≠ w →
        (∀ p' ∈ σ.myItems v, cfg.shardOf p' ≠ cfg.shardOf p) ∧
          ∀ p' ∈ σ.rx v, cfg.shardOf p' = cfg.shardOf p → Incoming σ v (cfg.shardOf p)
  | _ => True

/-- The steps under which the hand-over keeps the shards exclusive. -/
def Orderly (cfg : Cfg) (σ : Sys D) : Act D → Prop
  | .arrive p => RowIs cfg σ.A (cfg.shardOf p) (σ.rxQueue cfg p)
  | .epoch ans _ => ∀ s < cfg.totalShards,
      (∃ b < cfg.totalCores, Controller.asked cfg ans σ s b = 1 ∧ σ.A s b = 0) →
        RowIs cfg σ.A s (σ.shards s).owner
  | .work w inp => ¬ Strands cfg w σ ∧
      (∀ p ∈ taken cfg w inp σ, ¬ Incoming σ w (cfg.shardOf p)) ∧
        ((σ.worker w).myown = true → σ.myItems w = [] →
          ∀ p ∈ σ.rx w, ¬ Outgoing σ w (cfg.shardOf p))
  | .offload _ _ => True

/-- Where the packets of a shard can be: with the core it is assigned to or, while
it is paused, with its owner; and not yet in the rings of the core it is on its
way to. -/
structure Placed (cfg : Cfg) (σ : Sys D) : Prop where
  /-- every shard is assigned to one core -/
  oneHot : OneHot cfg σ.A
  /-- a paused shard is on its way from its owner to the core it is assigned to -/
  paused : ∀ s < cfg.totalShards, (σ.shards s).pause = true →
    RowIs cfg σ.A s (σ.shards s).ownerNew ∧ (σ.shards s).owner ≠ (σ.shards s).ownerNew
  /-- packets in NIC queues -/
  rx : ∀ v, ∀ p ∈ σ.rx v, RowIs cfg σ.A (cfg.shardOf p) v ∨
    (σ.shards (cfg.shardOf p)).pause = true ∧ (σ.shards (cfg.shardOf p)).owner = v
  /-- packets in rings -/
  rings : ∀ v p, InRings σ v p →
    (σ.shards (cfg.shardOf p)).pause = false ∧ RowIs cfg σ.A (cfg.shardOf p) v ∨
      (σ.shards (cfg.shardOf p)).pause = true ∧ (σ.shards (cfg.shardOf p)).owner = v

namespace Placed

/-- A packet of a shard that is on its way to no core the packet is at: what
`Orderly` demands of the packets a task takes. -/
theorem of_rx (h : Placed cfg σ) (hp : p ∈ σ.rx w) (hno : ¬ Incoming σ w (cfg.shardOf p)) :
    (σ.shards (cfg.shardOf p)).pause = false ∧ RowIs cfg σ.A (cfg.shardOf p) w ∨
      (σ.shards (cfg.shardOf p)).pause = true ∧ (σ.shards (cfg.shardOf p)).owner = w := by
  refine (h.rx w p hp).imp_left fun hrow => ⟨?_, hrow⟩
  by_contra hpause
  have hpause' : (σ.shards (cfg.shardOf p)).pause = true := by simpa using hpause
  exact hno ⟨hpause', (h.paused _ (cfg.shardOf_lt p) hpause').1.unique hrow⟩

/-- The packet is where only its core looks it up. -/
theorem exclusive_of (h : Placed cfg σ)
    (hp : (σ.shards (cfg.shardOf p)).pause = false ∧ RowIs cfg σ.A (cfg.shardOf p) w ∨
      (σ.shards (cfg.shardOf p)).pause = true ∧ (σ.shards (cfg.shardOf p)).owner = w) :
    ¬ Incoming σ w (cfg.shardOf p) ∧ ∀ v < cfg.W, v ≠ w →
      (∀ p' ∈ σ.myItems v, cfg.shardOf p' ≠ cfg.shardOf p) ∧
        ∀ p' ∈ σ.rx v, cfg.shardOf p' = cfg.shardOf p → Incoming σ v (cfg.shardOf p) := by
  have hpaused := h.paused _ (cfg.shardOf_lt p)
  refine ⟨?_, fun v _ hv => ⟨fun p' hp' hs => ?_, fun p' hp' hs => ?_⟩⟩
  · rintro ⟨hpause, hnew⟩
    rcases hp with ⟨hp, -⟩ | ⟨-, how⟩
    · rw [hp] at hpause
      cases hpause
    · exact (hpaused hpause).2 (how.trans hnew.symm)
  · have hring := h.rings v p' (Or.inr hp')
    rw [hs] at hring
    rcases hp with ⟨hp, hrow⟩ | ⟨hp, how⟩ <;> rcases hring with ⟨hp', hrow'⟩ | ⟨hp', how'⟩
    · exact hv (hrow'.unique hrow)
    · rw [hp] at hp'
      cases hp'
    · rw [hp] at hp'
      cases hp'
    · exact hv (how'.symm.trans how)
  · have hrx := h.rx v p' hp'
    rw [hs] at hrx
    rcases hp with ⟨hp, hrow⟩ | ⟨hp, how⟩ <;> rcases hrx with hrow' | ⟨hp', how'⟩
    · exact absurd (hrow'.unique hrow) hv
    · rw [hp] at hp'
      cases hp'
    · exact ⟨hp, (hpaused hp).1.unique hrow'⟩
    · exact absurd (how'.symm.trans how) hv

end Placed

/-! ## The hand-over state along a task

A shard that a task leaves paused is left alone by it. A shard that is released or acquired changes
hands in a way that depends on whether the core works off its ring.
-/

section

variable [Double D]

/-- A shard that stays paused keeps its owner and its new owner. -/
theorem runTask_staysPaused (h : Wired cfg σ) (hw : w < cfg.W) (inp : TaskInput) (s : ℕ)
    (hp : ((runTask cfg w inp σ).1.shards s).pause = true) :
    (σ.shards s).pause = true ∧
      ((runTask cfg w inp σ).1.shards s).owner = (σ.shards s).owner ∧
        ((runTask cfg w inp σ).1.shards s).ownerNew = (σ.shards s).ownerNew := by
  have hpause := (h.runTask_handoverBy hw inp).pause s hp
  refine ⟨hpause, ?_⟩
  cases hm : (σ.worker w).myown with
  | true =>
    unfold runTask at hp ⊢
    rw [hm, if_pos rfl] at hp
    rw [if_pos hm]
    split
    · next hc =>
      rw [if_pos hc] at hp
      dsimp only at hp ⊢
      rw [drained_spec.1] at hp ⊢
      split
      · next hs =>
        rw [if_pos hs] at hp
        unfold drainedShard drainedReleased at hp ⊢
        split_ifs at hp ⊢ <;> simp_all
      · exact ⟨rfl, rfl⟩
    · have hh := @workOff_sameHandover _ cfg σ w _ inp.accept
      exact ⟨hh.owner s, hh.ownerNew s⟩
  | false =>
    have hh := runTask_sameHandover h hw inp hm
    rw [hh.owner, hh.ownerNew]
    rcases serveSignal_cases h hw inp.drains hm with ⟨hk, -⟩ | ⟨hr, -⟩
    · exact ⟨hk.handover.owner s, hk.handover.ownerNew s⟩
    · exact ⟨hr.owner s, hr.ownerNew s⟩

omit [Double D] in
/-- The drained branch ends the pause of outgoing shards only. -/
theorem outgoing_of_drained {s : ℕ} (hp : (σ.shards s).pause = true)
    (hp' : ((drained cfg w σ).shards s).pause = false) : Outgoing σ w s := by
  by_contra hout
  have hkeep : ¬ ((σ.shards s).pause = false ∧ (σ.shards s).ownerNew = w) := by
    rintro ⟨hf, -⟩
    rw [hp] at hf
    cases hf
  rw [drained_spec.1] at hp'
  split at hp'
  · rw [drainedShard_of_keep (fun hr => hout ⟨hr.2.1, hr.1, hr.2.2⟩) hkeep, hp] at hp'
    cases hp'
  · rw [hp] at hp'
    cases hp'

/-- A task that finds both rings empty and takes nothing leaves them empty. -/
theorem not_inRings_of_empty (h : Wired cfg σ) (hw : w < cfg.W) (inp : TaskInput)
    (hstrand : ¬ Strands cfg w σ) (hq : σ.qItems w = []) (hmine : σ.myItems w = [])
    (htaken : taken cfg w inp σ = []) (p : Packet) : ¬ InRings (runTask cfg w inp σ).1 w p := by
  intro hin
  rcases (taskMoves h hw inp hstrand).rings p hin with (hin | hin) | hin
  · rw [hq] at hin
    cases hin
  · rw [hmine] at hin
    cases hin
  · rw [htaken] at hin
    cases hin

/-- **A release leaves nothing behind**: the core that ends the pause of a shard
is its owner and has none of its packets left. -/
theorem runTask_release (h : Wired cfg σ) (hw : w < cfg.W) (hc : Calm w σ) (inp : TaskInput)
    (ha : Orderly cfg σ (.work w inp)) {s : ℕ} (hp : (σ.shards s).pause = true)
    (hp' : ((runTask cfg w inp σ).1.shards s).pause = false) :
    (σ.shards s).owner = w ∧ ∀ p, cfg.shardOf p = s →
      ¬ InRings (runTask cfg w inp σ).1 w p ∧ p ∉ (runTask cfg w inp σ).1.rx w := by
  obtain ⟨hstrand, -, hclean⟩ := ha
  have hmoves := taskMoves h hw inp hstrand
  cases hm : (σ.worker w).myown with
  | true =>
    have htaken : taken cfg w inp σ = [] := by rw [taken, if_pos hm]
    have hrun : runTask cfg w inp σ =
        if (σ.ring (σ.worker w).myring).count = 0 then (drained cfg w σ, {})
        else workOff cfg w inp.accept σ := by rw [runTask, if_pos hm]
    by_cases hcount : (σ.ring (σ.worker w).myring).count = 0
    · have hmine : σ.myItems w = [] := Fifo.count_eq_zero.mp hcount
      rw [hrun, if_pos hcount] at hp'
      have hout := outgoing_of_drained hp hp'
      -- a clean release: the NIC queue holds nothing of the shard either
      refine ⟨hout.1, fun p hs =>
        ⟨not_inRings_of_empty h hw inp hstrand (hc.queue hm) hmine htaken p, fun hrx => ?_⟩⟩
      exact hclean hm hmine p (hmoves.rx p hrx) (by rw [hs]; exact hout)
    · exfalso
      rw [hrun, if_neg hcount, (workOff_sameHandover inp.accept).pause, hp] at hp'
      cases hp'
  | false =>
    rw [(runTask_sameHandover h hw inp hm).pause] at hp'
    rcases serveSignal_cases h hw inp.drains hm with ⟨hk, -⟩ | ⟨hr, hraise, hrx, hq⟩
    · rw [hk.handover.pause, hp] at hp'
      cases hp'
    · have htaken : taken cfg w inp σ = [] := by
        simp only [taken, rxBurst]
        rw [hm, if_neg Bool.false_ne_true, hraise, if_neg Bool.false_ne_true, rxPrefix_of_nil _ hrx,
          hrx, List.take_nil, ite_self]
      have how : (σ.shards s).owner = w := by
        by_contra how
        rw [(hr.pause s).mpr ⟨hp, fun hall => how hall.2.1⟩] at hp'
        cases hp'
      refine ⟨how, fun p _ =>
        ⟨not_inRings_of_empty h hw inp hstrand hq (hc.mine hm) htaken p, fun hmem => ?_⟩⟩
      have hrest := hmoves.rx p hmem
      rw [hrx] at hrest
      cases hrest

/-! ## Where the packets are, step by step

The invariant says of each packet that waits where it may wait: at the owner of its shard, or, as
long as the shard is on its way, at the core that gives it away.
-/

namespace Placed

/-- An epoch leaves a shard where it is, or sends it on its way from the core it
was assigned to. -/
theorem epoch_cases (h : Placed cfg σ) {ans : Option (Answer D)} {vec : ℕ → List FlowKey}
    (hone : AssignsShards cfg (.epoch ans vec : Act D)) (ha : Orderly cfg σ (.epoch ans vec))
    {s : ℕ} (hs : s < cfg.totalShards) :
    let σ' := Controller.updateShortEpoch cfg ans vec σ
    ((σ'.shards s).pause = (σ.shards s).pause ∧ (σ'.shards s).ownerNew = (σ.shards s).ownerNew ∧
        ∀ v, RowIs cfg σ.A s v → RowIs cfg σ'.A s v) ∨
      ((σ.shards s).pause = false ∧ RowIs cfg σ.A s (σ.shards s).owner ∧
        (σ'.shards s).pause = true ∧ RowIs cfg σ'.A s (σ'.shards s).ownerNew ∧
          (σ.shards s).owner ≠ (σ'.shards s).ownerNew) := by
  intro σ'
  have hmv := Controller.updateShortEpoch_moved cfg σ ans vec
  obtain ⟨a, hrow⟩ := h.oneHot.row hs
  obtain ⟨b, hrow'⟩ := (asked_oneHot h.oneHot hone).row hs
  have hbc : b < cfg.totalCores := Nat.lt_of_lt_of_le hrow'.1 (Nat.le_add_right _ _)
  have hnew : RowIs cfg σ'.A s b := ⟨hrow'.1, fun v hv => by rw [hmv.A s hs v hv, hrow'.2 v hv]⟩
  by_cases hba : b = a
  · left
    subst hba
    obtain ⟨hpause, hsame⟩ := hmv.kept hrow.2 hrow'.2
    exact ⟨hpause, hsame, fun v hv => hrow.unique hv ▸ hnew⟩
  · right
    -- only a shard that is with its owner may be moved
    have h1 : Controller.asked cfg ans σ s b = 1 := by rw [hrow'.2 b hbc, if_pos rfl]
    have h0 : σ.A s b = 0 := by rw [hrow.2 b hbc, if_neg hba]
    have howner := ha s hs ⟨b, hbc, h1, h0⟩
    have hoa : (σ.shards s).owner = a := howner.unique hrow
    have hob : (σ.shards s).owner ≠ b := by
      rw [hoa]
      exact Ne.symm hba
    obtain ⟨hpause, hto⟩ := hmv.sent hs hbc hrow.2 hrow'.2 hba hob
    refine ⟨?_, howner, hpause, hto ▸ hnew, hto ▸ hob⟩
    by_contra hp
    obtain ⟨hto', hne⟩ := h.paused s hs (by simpa using hp)
    exact hne (howner.unique hto')

theorem epoch (h : Placed cfg σ) {ans : Option (Answer D)} {vec : ℕ → List FlowKey}
    (hone : AssignsShards cfg (.epoch ans vec : Act D)) (ha : Orderly cfg σ (.epoch ans vec)) :
    Placed cfg (Controller.updateShortEpoch cfg ans vec σ) := by
  have hf := Controller.updateShortEpoch_frame cfg σ ans vec
  have hmv := Controller.updateShortEpoch_moved cfg σ ans vec
  have hcases := fun s hs => h.epoch_cases (s := s) hone ha hs
  refine ⟨fun s hs => ?_, fun s hs hp => ?_, fun v p hp => ?_, fun v p hp => ?_⟩
  · obtain ⟨b, hb, hrow⟩ := asked_oneHot h.oneHot hone s hs
    exact ⟨b, hb, fun v hv => by rw [hmv.A s hs v hv, hrow v hv]⟩
  · -- paused before and not moved, or paused by this epoch
    rw [hf.owner]
    rcases hcases s hs with ⟨hpause, hnew, hrow⟩ | ⟨-, -, -, hrow, hne⟩
    · obtain ⟨hto, hne⟩ := h.paused s hs (by rw [← hpause, hp])
      rw [hnew]
      exact ⟨hrow _ hto, hne⟩
    · exact ⟨hrow, hne⟩
  · rw [hf.traffic.rx] at hp
    rw [hf.owner]
    rcases hcases _ (cfg.shardOf_lt p) with ⟨hpause, -, hrow⟩ | ⟨hno, howner, hpause, -⟩
    · rw [hpause]
      exact (h.rx v p hp).imp_left (hrow v)
    · rcases h.rx v p hp with hv | ⟨hyes, -⟩
      · exact Or.inr ⟨hpause, howner.unique hv⟩
      · rw [hno] at hyes
        cases hyes
  · have hp' : InRings σ v p := by
      rw [InRings, Sys.qItems, Sys.myItems, hf.worker, hf.traffic.ring] at hp
      exact hp
    rw [hf.owner]
    rcases hcases _ (cfg.shardOf_lt p) with ⟨hpause, -, hrow⟩ | ⟨hno, howner, hpause, -⟩
    · rw [hpause]
      exact (h.rings v p hp').imp_left (And.imp_right (hrow v))
    · rcases h.rings v p hp' with ⟨-, hv⟩ | ⟨hyes, -⟩
      · exact Or.inr ⟨hpause, howner.unique hv⟩
      · rw [hno] at hyes
        cases hyes

/-- A shard stays with its owner as long as the owner holds a packet of it. -/
theorem paused_of_held (hwired : Wired cfg σ) (hw : w < cfg.W) (hc : Calm w σ)
    {inp : TaskInput} (ha : Orderly cfg σ (.work w inp)) {v : ℕ}
    (hheld : InRings (runTask cfg w inp σ).1 v p ∨ p ∈ (runTask cfg w inp σ).1.rx v)
    (hpause : (σ.shards (cfg.shardOf p)).pause = true)
    (howner : (σ.shards (cfg.shardOf p)).owner = v) :
    ((runTask cfg w inp σ).1.shards (cfg.shardOf p)).pause = true ∧
      ((runTask cfg w inp σ).1.shards (cfg.shardOf p)).owner = v := by
  cases hpause' : ((runTask cfg w inp σ).1.shards (cfg.shardOf p)).pause with
  | true => exact ⟨rfl, (runTask_staysPaused hwired hw inp _ hpause').2.1.trans howner⟩
  | false =>
    obtain ⟨how, hgone⟩ := runTask_release hwired hw hc inp ha hpause hpause'
    obtain rfl : v = w := howner.symm.trans how
    obtain ⟨hrings, hrx⟩ := hgone p rfl
    exact (hheld.elim hrings hrx).elim

theorem work (h : Placed cfg σ) (hwired : Wired cfg σ) (hw : w < cfg.W) (hc : Calm w σ)
    {inp : TaskInput} (ha : Orderly cfg σ (.work w inp)) : Placed cfg (runTask cfg w inp σ).1 := by
  have hl := hwired.runTask_localTo hw inp
  have hb := hwired.runTask_handoverBy hw inp
  have hmoves := taskMoves hwired hw inp ha.1
  refine ⟨by rw [hl.A]; exact h.oneHot, fun s hs hp => ?_, fun v p hp => ?_, fun v p hp => ?_⟩
  · obtain ⟨hpause, howner, hnew⟩ := runTask_staysPaused hwired hw inp s hp
    rw [hl.A, howner, hnew]
    exact h.paused s hs hpause
  · -- a NIC queue only loses packets in a task
    have hp' : p ∈ σ.rx v := by
      by_cases hv : v = w
      · subst hv
        exact hmoves.rx p hp
      · rwa [hl.rx v hv] at hp
    rw [hl.A]
    exact (h.rx v p hp').imp_right fun ⟨hpause, howner⟩ =>
      paused_of_held hwired hw hc ha (Or.inr hp) hpause howner
  · have hp' : (σ.shards (cfg.shardOf p)).pause = false ∧ RowIs cfg σ.A (cfg.shardOf p) v ∨
        (σ.shards (cfg.shardOf p)).pause = true ∧ (σ.shards (cfg.shardOf p)).owner = v := by
      by_cases hv : v = w
      · -- what is in a ring was there before, or the task has taken it off the NIC queue
        subst hv
        rcases hmoves.rings p hp with hin | htaken
        · exact h.rings v p hin
        · exact h.of_rx (mem_taken htaken) (ha.2.1 p htaken)
      · exact h.rings v p ((hl.inRings hwired hv).mp hp)
    rw [hl.A]
    rcases hp' with ⟨hpause, hrow⟩ | ⟨hpause, howner⟩
    · -- a task pauses no shard
      refine Or.inl ⟨?_, hrow⟩
      by_contra hpause'
      have hbefore := hb.pause _ (by simpa using hpause')
      rw [hpause] at hbefore
      cases hbefore
    · exact Or.inr (paused_of_held hwired hw hc ha (Or.inl hp) hpause howner)

/-- **Every orderly step keeps the packets where they may be.** -/
theorem step (h : Placed cfg σ) (hwired : Wired cfg σ) (hc : ∀ v, Calm v σ) {a : Act D}
    (hp : Possible cfg σ a) (hone : AssignsShards cfg a) (ha : Orderly cfg σ a) :
    Placed cfg (step cfg σ a) := by
  cases a with
  | arrive p =>
    refine ⟨h.oneHot, h.paused, fun v p' hp' => ?_, h.rings⟩
    by_cases hv : v = σ.rxQueue cfg p
    · subst hv
      have hp' : p' ∈ σ.rx (σ.rxQueue cfg p) ++ [p] := by
        simpa only [Fajita.step, arrive, Function.update_self] using hp'
      rcases List.mem_append.mp hp' with hp' | hp'
      · exact h.rx _ p' hp'
      · rw [List.mem_singleton.mp hp']
        exact Or.inl ha
    · have hp' : p' ∈ σ.rx v := by
        simpa only [Fajita.step, arrive, Function.update_of_ne hv] using hp'
      exact h.rx v p' hp'
  | epoch ans vec => exact h.epoch hone ha
  | work w inp => exact h.work hwired hp (hc w) ha
  | offload e accept =>
    obtain ⟨core, ring, transmitted, lost, heq, hring⟩ := OffloadingCore.runTask_eq cfg e accept σ
    rw [Fajita.step, heq]
    refine ⟨h.oneHot, h.paused, h.rx, fun v p hin => h.rings v p ?_⟩
    obtain ⟨n, hn⟩ := hring (σ.worker v).q
    obtain ⟨m, hm⟩ := hring (σ.worker v).myring
    refine hin.imp (fun hq => ?_) fun hmine => ?_
    · have hq : p ∈ (ring (σ.worker v).q).items := hq
      rw [hn] at hq
      exact List.mem_of_mem_drop hq
    · have hmine : p ∈ (ring (σ.worker v).myring).items := hmine
      rw [hm] at hmine
      exact List.mem_of_mem_drop hmine

/-- In such a state an orderly step is exclusive. -/
theorem exclusive (h : Placed cfg σ) (hwired : Wired cfg σ) {a : Act D} (hp : Possible cfg σ a)
    (ha : Orderly cfg σ a) : Exclusive cfg σ a := by
  cases a with
  | arrive p => trivial
  | offload e accept => trivial
  | work w inp =>
    intro p hpe
    rcases (taskMoves hwired hp inp ha.1).extracted p hpe with hin | htaken
    · exact h.exclusive_of (h.rings w p hin)
    · exact h.exclusive_of (h.of_rx (mem_taken htaken) (ha.2.1 p htaken))
  | epoch ans vec =>
    intro s hs b hb h1 h0 p hpb hps
    have howner := ha s hs ⟨b, Nat.lt_of_lt_of_le hb (Nat.le_add_right _ _), h1, h0⟩
    have hnot : ¬ RowIs cfg σ.A s b := by
      intro hrow
      have := hrow.2 b (Nat.lt_of_lt_of_le hb (Nat.le_add_right _ _))
      rw [if_pos rfl, h0] at this
      cases this
    have hplace : RowIs cfg σ.A s b ∨ (σ.shards s).pause = true ∧ (σ.shards s).owner = b := by
      rw [← hps]
      rcases List.mem_append.mp hpb with hrx | hring
      · exact h.rx b p hrx
      · exact (h.rings b p (List.mem_append.mp hring)).imp_left And.right
    rcases hplace with hrow | ⟨-, hob⟩
    · exact hnot hrow
    · exact hnot (hob ▸ howner)

theorem init : Placed cfg (init D cfg) where
  oneHot := Steered.init_A
  paused _ _ hp := by cases hp
  rx _ _ hp := by cases hp
  rings _ _ hp := by rcases hp with hp | hp <;> cases hp

end Placed

/-! ## Runs -/

/-- **Exclusive processing of a migrating shard.** In every run from the initial
state whose steps are orderly, every step is exclusive. -/
theorem exclusive_of_orderly {acts : List (Act D)}
    (hC : Along (Fajita.step cfg)
      (fun σ a => Possible cfg σ a ∧ AssignsShards cfg a ∧ Orderly cfg σ a) (init D cfg) acts) :
    Along (Fajita.step cfg) (Exclusive cfg) (init D cfg) acts := by
  refine Along.imp_inv (I := fun σ => Wired cfg σ ∧ (∀ v, Calm v σ) ∧ Placed cfg σ)
    (fun σ a hσ ha => ?_) (fun σ a hσ ha => hσ.2.2.exclusive hσ.1 ha.1 ha.2.2)
    ⟨wired_init, fun _ => ⟨fun _ => rfl, fun _ => rfl⟩, .init⟩ hC
  obtain ⟨hwired, hcalm, hplaced⟩ := hσ
  obtain ⟨hp, hone, ho⟩ := ha
  have hstrand : NoStrand cfg σ a := by
    cases a with
    | work w inp => exact ho.1
    | arrive p => trivial
    | epoch ans vec => trivial
    | offload e accept => trivial
  exact ⟨hwired.step hp, Calm.step hcalm hwired hp hstrand,
    hplaced.step hwired hcalm hp hone ho⟩

end

instance [Double D] (σ : Sys D) : DecidablePred (Exclusive cfg σ)
  | .work w inp => inferInstanceAs (Decidable (∀ p ∈ (runTask cfg w inp σ).2.extracted, _))
  | .epoch _ _ => inferInstanceAs (Decidable (∀ s < cfg.totalShards, ∀ b < cfg.W, _ → _ →
      ∀ p ∈ σ.rx b ++ (σ.qItems b ++ σ.myItems b), _))
  | .arrive _ => inferInstanceAs (Decidable True)
  | .offload _ _ => inferInstanceAs (Decidable True)

instance (σ : Sys D) : DecidablePred (Orderly cfg σ)
  | .arrive _ => inferInstanceAs (Decidable (RowIs ..))
  | .epoch ans _ => inferInstanceAs (Decidable (∀ s < cfg.totalShards,
      (∃ b < cfg.totalCores, Controller.asked cfg ans σ s b = 1 ∧ σ.A s b = 0) → RowIs ..))
  | .work w inp => inferInstanceAs (Decidable (_ ∧ (∀ p ∈ taken cfg w inp σ, _) ∧
      (_ → _ → ∀ p ∈ σ.rx w, _)))
  | .offload _ _ => inferInstanceAs (Decidable True)

/-! ## What goes wrong -/

namespace Small

/-- A packet of shard 0 waits at core 0 when the shard is moved to core 1; the
next packet of the shard reaches core 1, which is served first. -/
def overtakeRun : List (Act ℚ) :=
  [.arrive (packet 1 0), .epoch (some (answer (fun _ => 1) (fun _ => 2) fun _ => 0)) fun _ => [],
    .arrive (packet 2 0), .work 1 (task 1)]

/-- Core 1 looks packet 2 up while packet 1 waits at core 0 and shard 0 is paused. -/
theorem overtakeRun_notExclusive :
    Along (step (router 0)) (fun σ a => Possible (router 0) σ a ∧ AssignsShards (router 0) a)
        (init ℚ (router 0)) overtakeRun ∧
      ¬ Along (step (router 0)) (Exclusive (router 0)) (init ℚ (router 0)) overtakeRun := by
  decide +kernel

/-- The same hand-over when core 0 is served first: it takes packet 1 back, works
it off and releases the shard before core 1 receives packet 2. -/
def patientRun : List (Act ℚ) :=
  [.arrive (packet 1 0), .epoch (some (answer (fun _ => 1) (fun _ => 2) fun _ => 0)) fun _ => [],
    .arrive (packet 2 0), .work 0 (task 1), .work 0 (task 1), .work 0 (task 1), .work 1 (task 1)]

theorem patientRun_exclusive :
    Along (step (router 0)) (Exclusive (router 0)) (init ℚ (router 0)) patientRun :=
  exclusive_of_orderly (by decide +kernel)

end Small

end Fajita
