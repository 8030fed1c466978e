import Fajita.Wiring
import Mathlib.Logic.Relation

/-!
# What the stages of a task do

`run_task` is a chain of stages (`Stage`, `runTask_stages`), so whatever every
stage preserves a task preserves: `runTask_inv`. This file says once what each
stage does; later files do not unfold stages.

The loops are specified for a wired core: then chunking disappears, and `q` and
`myring` are two different rings. The hand-over loops are specified shard by
shard (`releasedShard`, `drainedShard`).
-/

namespace Fajita

variable {D : Type} {cfg : Cfg} {σ : Sys D} {w : ℕ}

namespace WorkingCore

open Function (update_self update_of_ne)

/-! ## Moving packets to `myring`

The loops of the transfer routines move a burst at a time, and what does not fit into `myring` is
freed. All together they offer the whole of `q`, or a front part of the NIC queue, at once: the size
of the bursts is gone from what follows.
-/

/-- The rings after everything in `q` moved to `myring`. -/
def poured (w : ℕ) (σ : Sys D) : RingId → Fifo Packet :=
  Function.update (Function.update σ.ring (σ.worker w).q (σ.ring (σ.worker w).q).clear)
    (σ.worker w).myring ((σ.ring (σ.worker w).myring).enqueueBurst (σ.qItems w))

/-- With nothing to move the rings stay as they are. -/
theorem poured_of_nil (h : σ.qItems w = []) : poured w σ = σ.ring := by
  have hclear : (σ.ring (σ.worker w).q).clear = σ.ring (σ.worker w).q :=
    Fifo.ext rfl (by rw [Fifo.clear_items]; exact h.symm)
  rw [poured, h, Fifo.enqueueBurst_nil, hclear, Function.update_eq_self, Function.update_eq_self]

/-- **The loop over `q`**: everything in it is offered to `myring` in one burst. -/
theorem takeBack_eq_of_burst (hburst : σ.qItems w ≠ [] → 0 < cfg.burst w) : takeBack cfg w σ =
    { σ.setWorker w fun me => { me with myown := me.myown || decide (σ.qItems w ≠ []) } with
      ring := poured w σ
      lost := σ.lost ++ (σ.ring (σ.worker w).myring).refused (σ.qItems w) } := by
  simp only [takeBack]
  by_cases hq : σ.qItems w = []
  · rw [if_neg (by rw [ne_eq, not_not, Fifo.count_eq_zero]; exact hq), poured_of_nil hq, hq]
    simp [Sys.setWorker]
  · have hmove : Fifo.moveAll (cfg.burst w) (σ.ring (σ.worker w).q)
        (σ.ring (σ.worker w).myring) = ((σ.ring (σ.worker w).q).clear,
          (σ.ring (σ.worker w).myring).enqueueBurst (σ.qItems w),
          (σ.ring (σ.worker w).myring).refused (σ.qItems w)) := Fifo.moveAll_eq hburst
    rw [if_pos (by rw [ne_eq, Fifo.count_eq_zero]; exact hq), Sys.moveRing, hmove]
    simp [Sys.setWorker, hq, poured]

/-- For a wired core no size of the bursts has to be assumed. -/
theorem takeBack_eq (h : Wired cfg σ) : takeBack cfg w σ =
    { σ.setWorker w fun me => { me with myown := me.myown || decide (σ.qItems w ≠ []) } with
      ring := poured w σ
      lost := σ.lost ++ (σ.ring (σ.worker w).myring).refused (σ.qItems w) } :=
  takeBack_eq_of_burst fun hq => h.burst_pos hq

/-- How many buffers the receive loop of `transfer_shard` takes. -/
def rxTaken (burst : ℕ) : List ℕ → UInt32 → List Packet → ℕ
  | [], _, _ => 0
  | ready :: drains, count, rx =>
    let n := (rxBurst burst ready rx).length
    if count = 0 ∨ n = 0 then 0
    else n + rxTaken burst drains (count - UInt32.ofNat n) (rx.drop n)

/-- Nothing is taken from an empty queue. -/
theorem rxTaken_of_zero (burst : ℕ) (drains : List ℕ) (rx : List Packet) :
    rxTaken burst drains 0 rx = 0 := by
  cases drains with
  | nil => rfl
  | cons ready drains => rw [rxTaken, if_pos (Or.inl rfl)]

/-- A core with burst 0 takes nothing. -/
theorem rxTaken_of_idle (drains : List ℕ) (count : UInt32) (rx : List Packet) :
    rxTaken 0 drains count rx = 0 := by
  cases drains with
  | nil => rfl
  | cons ready drains => rw [rxTaken, if_pos (Or.inr (by simp [rxBurst]))]

/-- A burst is a front part of the queue. -/
theorem rxBurst_eq_take (burst ready : ℕ) (rx : List Packet) :
    rxBurst burst ready rx = rx.take (rxBurst burst ready rx).length := by
  rw [rxBurst, List.length_take, List.take_eq_take_iff]
  omega

/-- **The receive loop**: a prefix of the NIC queue is offered to `myring` in one burst. -/
theorem rxDrain_eq (burst : ℕ) (drains : List ℕ) :
    ∀ (count : UInt32) (l : RxDrain), rxDrain burst drains count l =
      { rx := l.rx.drop (rxTaken burst drains count l.rx)
        mine := l.mine.enqueueBurst (l.rx.take (rxTaken burst drains count l.rx))
        myown := if count = 0 then l.myown else true
        received := l.received ++ l.rx.take (rxTaken burst drains count l.rx)
        lost := l.lost ++ l.mine.refused (l.rx.take (rxTaken burst drains count l.rx)) } := by
  induction drains with
  | nil =>
    intro count l
    by_cases hc : count = 0 <;> simp [rxDrain, rxTaken, hc]
  | cons ready drains ih =>
    intro count l
    by_cases hc : count = 0
    · subst hc
      simp [rxDrain, rxTaken_of_zero]
    · by_cases hn : (rxBurst burst ready l.rx).length = 0
      · simp [rxDrain, rxTaken, hc, hn]
      · rw [rxDrain, if_neg hc]
        simp only [if_neg hn]
        rw [ih, rxTaken, if_neg (not_or.mpr ⟨hc, hn⟩), if_neg hc, ite_self]
        simp only [Fifo.enqueueBurst_append, List.append_assoc, Fifo.refused_append, List.drop_drop,
          List.take_add]
        rw [← rxBurst_eq_take]

/-- The prefix of the NIC queue that `transfer_shard` takes. -/
def rxPrefix (cfg : Cfg) (w : ℕ) (drains : List ℕ) (σ : Sys D) : List Packet :=
  (σ.rx w).take (rxTaken (cfg.burst w) drains (rxCount w σ) (σ.rx w))

/-- The count is 0 exactly if the queue is empty. -/
theorem rxCount_eq_zero : rxCount w σ = 0 ↔ σ.rx w = [] := by
  have hle : min (σ.rx w).length Cfg.qsize ≤ 256 := Nat.min_le_right _ _
  rw [rxCount_eq, ← UInt32.toNat_inj, UInt32.toNat_ofNat_of_lt' (by simp [UInt32.size]; omega)]
  simp [Cfg.qsize]

/-- **The receive loop of `transfer_shard`**: a front part of the NIC queue is offered
to `myring`. -/
theorem receiveAll_eq (drains : List ℕ) : receiveAll cfg w drains σ =
    { σ.setWorker w fun me => { me with myown := me.myown || decide (σ.rx w ≠ []) } with
      rx := Function.update σ.rx w ((σ.rx w).drop (rxPrefix cfg w drains σ).length)
      ring := Function.update σ.ring (σ.worker w).myring
        ((σ.ring (σ.worker w).myring).enqueueBurst (rxPrefix cfg w drains σ))
      received := σ.received ++ rxPrefix cfg w drains σ
      lost := σ.lost ++ (σ.ring (σ.worker w).myring).refused (rxPrefix cfg w drains σ) } := by
  have hdrop : (σ.rx w).drop (rxPrefix cfg w drains σ).length =
      (σ.rx w).drop (rxTaken (cfg.burst w) drains (rxCount w σ) (σ.rx w)) := by
    rw [rxPrefix, List.length_take, List.drop_eq_drop_iff]
    omega
  rw [hdrop, receiveAll, rxDrain_eq]
  by_cases hrx : σ.rx w = []
  · simp [rxPrefix, Sys.setWorker, rxCount_eq_zero.mpr hrx, hrx]
  · have hcount : rxCount w σ ≠ 0 := by rwa [ne_eq, rxCount_eq_zero]
    simp [rxPrefix, Sys.setWorker, hcount, hrx]

/-! ## The local queues -/

/-- Whether a shard has been released to core `w`. -/
def releasedTo (cfg : Cfg) (w : ℕ) (σ : Sys D) : Bool :=
  ∃ s < cfg.totalShards, (σ.shards s).ownerNew = w ∧ (σ.shards s).pause = false

/-- **The `had_changes` branch**: the local queues are empty, so all it does is
clear `myown` if a shard has been released to the core. -/
theorem serveChanges_eq (hlocal : ∀ s, (σ.shards s).localQueue.items = []) :
    serveChanges cfg w σ =
      { σ.setWorker w fun me => { me with myown := me.myown && !releasedTo cfg w σ } with
        hadChanges := Function.update σ.hadChanges w false } := by
  have hmove : ∀ s, Fifo.moveAll (cfg.burst w) (σ.shards s).localQueue
      (σ.ring (σ.worker w).myring) = ((σ.shards s).localQueue, σ.ring (σ.worker w).myring, []) := by
    intro s
    have hclear : (σ.shards s).localQueue.clear = (σ.shards s).localQueue :=
      Fifo.ext rfl (by rw [Fifo.clear_items, hlocal s])
    rw [Fifo.moveAll_eq fun h => absurd (hlocal s) h, hlocal s, hclear, Fifo.enqueueBurst_nil,
      Fifo.refused_nil]
  have hloop := forRange_rule (f := takeLocal cfg w) (n := cfg.totalShards)
    (s := ⟨σ.shards, σ.ring (σ.worker w).myring, (σ.worker w).myown, σ.lost⟩)
    (fun k l => l = ⟨σ.shards, σ.ring (σ.worker w).myring,
      (σ.worker w).myown &&
        !decide (∃ s < k, (σ.shards s).ownerNew = w ∧ (σ.shards s).pause = false),
      σ.lost⟩) ?_ ?_
  · rw [serveChanges]
    simp only [hloop]
    simp [Sys.setWorker, releasedTo]
  · simp
  · rintro k - l rfl
    by_cases hk : (σ.shards k).ownerNew = w ∧ (σ.shards k).pause = false
    · have hex : ∃ s < k + 1, (σ.shards s).ownerNew = w ∧ (σ.shards s).pause = false :=
        ⟨k, k.lt_succ_self, hk⟩
      simp only [takeLocal, if_pos hk, hmove, updateShard, Function.update_eq_self,
        List.append_nil, decide_eq_true hex, Bool.not_true, Bool.and_false]
    · have hiff : (∃ s < k + 1, (σ.shards s).ownerNew = w ∧ (σ.shards s).pause = false) ↔
          ∃ s < k, (σ.shards s).ownerNew = w ∧ (σ.shards s).pause = false :=
        Nat.exists_lt_succ_right.trans (or_iff_left hk)
      simp only [takeLocal, if_neg hk, hiff]

/-- With empty local queues `process_changes` has nothing to bring into the ring. -/
theorem processChanges_eq (hlocal : ∀ s, (σ.shards s).localQueue.items = []) :
    processChanges cfg w σ =
      { σ.setWorker w fun me =>
          { me with myown := me.myown && !(σ.hadChanges w && releasedTo cfg w σ) } with
        hadChanges := Function.update σ.hadChanges w false } := by
  simp only [processChanges]
  cases hc : σ.hadChanges w with
  | false =>
    have hsame : Function.update σ.hadChanges w false = σ.hadChanges := by
      rw [← hc, Function.update_eq_self]
    simp [Sys.setWorker, hsame]
  | true => simp [serveChanges_eq hlocal]

/-! ## The hand-over loops

Two loops over the shards look the same: at a shard that meets a condition the new owner is told and
the shard is rewritten, and the other shards are left alone. `handoverLoop` is both.
-/

/-- A loop whose `s`-th iteration rewrites shard `s` by `g`, and tells the new
owner if `tell` held of the shard. -/
theorem handoverLoop {f : ℕ → Handover D → Handover D} {g : ShardInfo D → ShardInfo D}
    (tell : ShardInfo D → Prop) [DecidablePred tell]
    (hf : ∀ s h, f s h = ⟨Function.update h.shards s (g (h.shards s)),
      if tell (h.shards s) then Function.update h.hadChanges (h.shards s).ownerNew true
      else h.hadChanges⟩) (n : ℕ) (h : Handover D) :
    (∀ s, (forRange n f h).shards s = if s < n then g (h.shards s) else h.shards s) ∧
      ∀ v, (forRange n f h).hadChanges v = true ↔
        h.hadChanges v = true ∨ ∃ s < n, tell (h.shards s) ∧ (h.shards s).ownerNew = v := by
  refine forRange_rule (f := f) (s := h) (n := n)
    (fun k t => (∀ s, t.shards s = if s < k then g (h.shards s) else h.shards s) ∧
      ∀ v, t.hadChanges v = true ↔
        h.hadChanges v = true ∨ ∃ s < k, tell (h.shards s) ∧ (h.shards s).ownerNew = v) ?_ ?_
  · simp
  · rintro k - t ⟨hshards, htold⟩
    have hk : t.shards k = h.shards k := by rw [hshards, if_neg (Nat.lt_irrefl k)]
    rw [hf, hk]
    constructor
    · intro s
      dsimp only
      by_cases hs : s = k
      · subst hs
        rw [update_self, if_pos s.lt_succ_self]
      · rw [update_of_ne hs, hshards]
        exact if_congr (by omega) rfl rfl
    · intro v
      dsimp only
      rw [Nat.exists_lt_succ_right]
      by_cases ht : tell (h.shards k)
      · by_cases hv : v = (h.shards k).ownerNew
        · simp [ht, hv]
        · have hv' : (h.shards k).ownerNew ≠ v := fun hvk => hv hvk.symm
          simp [ht, update_of_ne hv, htold, hv']
      · simp [ht, htold]

/-- A shard after the loop of `transfer_shard`. -/
def releasedShard (w : ℕ) (sh : ShardInfo D) : ShardInfo D :=
  if sh.owner = w ∧ sh.ownerNew ≠ uint32Max then { sh with pause := false } else sh

/-- **The loop of `transfer_shard` over the shards**, shard by shard. -/
theorem releaseAll_spec :
    (∀ s, (releaseAll cfg w σ).shards s =
      if s < cfg.totalShards then releasedShard w (σ.shards s) else σ.shards s) ∧
    ∀ v, (releaseAll cfg w σ).hadChanges v = true ↔
      σ.hadChanges v = true ∨ ∃ s < cfg.totalShards,
        ((σ.shards s).owner = w ∧ (σ.shards s).ownerNew ≠ uint32Max) ∧
          (σ.shards s).ownerNew = v := by
  refine handoverLoop (f := releaseOwned w) (g := releasedShard w)
    (fun sh => sh.owner = w ∧ sh.ownerNew ≠ uint32Max) ?_ cfg.totalShards
    ⟨σ.shards, σ.hadChanges⟩
  intro s h
  simp only [releaseOwned, releasedShard]
  split
  · rfl
  · rw [Function.update_eq_self]

/-- A shard after the first test of the drained branch. -/
def drainedReleased (w : ℕ) (sh : ShardInfo D) : ShardInfo D :=
  if sh.pause = true ∧ sh.owner = w ∧ sh.ownerNew ≠ uint32Max then { sh with pause := false }
  else sh

/-- A shard after the drained branch. -/
def drainedShard (w : ℕ) (sh : ShardInfo D) : ShardInfo D :=
  if (drainedReleased w sh).pause = false ∧ sh.ownerNew = w then
    { drainedReleased w sh with ownerNew := uint32Max, owner := w }
  else drainedReleased w sh

/-- The owner ends the pause of a shard that it gives away. -/
theorem drainedShard_of_release {sh : ShardInfo D} (hp : sh.pause = true) (how : sh.owner = w)
    (hmax : sh.ownerNew ≠ uint32Max) (hne : sh.ownerNew ≠ w) :
    drainedShard w sh = { sh with pause := false } := by
  simp [drainedShard, drainedReleased, hp, how, hmax, hne]

/-- The new owner takes a shard that is not paused. -/
theorem drainedShard_of_acquire {sh : ShardInfo D} (hp : sh.pause = false)
    (hnew : sh.ownerNew = w) :
    drainedShard w sh = { sh with ownerNew := uint32Max, owner := w } := by
  simp [drainedShard, drainedReleased, hp, hnew]

/-- Any other shard stays as it is. -/
theorem drainedShard_of_keep {sh : ShardInfo D}
    (hr : ¬ (sh.pause = true ∧ sh.owner = w ∧ sh.ownerNew ≠ uint32Max))
    (ha : ¬ (sh.pause = false ∧ sh.ownerNew = w)) : drainedShard w sh = sh := by
  simp only [drainedShard, drainedReleased, if_neg hr, if_neg ha]

/-- **The loop at the end of a drained ring**, shard by shard. -/
theorem drained_spec :
    (∀ s, (drained cfg w σ).shards s =
      if s < cfg.totalShards then drainedShard w (σ.shards s) else σ.shards s) ∧
    ∀ v, (drained cfg w σ).hadChanges v = true ↔
      σ.hadChanges v = true ∨ ∃ s < cfg.totalShards,
        ((σ.shards s).pause = true ∧ (σ.shards s).owner = w ∧ (σ.shards s).ownerNew ≠ uint32Max) ∧
          (σ.shards s).ownerNew = v := by
  refine handoverLoop (f := fun s h => drainedAcquire w s (drainedRelease w s h))
    (g := drainedShard w)
    (fun sh => sh.pause = true ∧ sh.owner = w ∧ sh.ownerNew ≠ uint32Max) ?_
    cfg.totalShards ⟨σ.shards, σ.hadChanges⟩
  intro s h
  simp only [drainedRelease, drainedShard, drainedReleased, drainedAcquire]
  by_cases hr : (h.shards s).pause = true ∧ (h.shards s).owner = w ∧
      (h.shards s).ownerNew ≠ uint32Max
  · simp only [if_pos hr, release, acquire, updateShard, update_self, true_and]
    split
    · simp only [Function.update_idem]
    · rfl
  · simp only [if_neg hr, acquire, updateShard]
    split
    · rfl
    · rw [Function.update_eq_self]

/-! ## The loops leave the local queues alone -/

theorem releaseAll_localQueue (s : ℕ) :
    ((releaseAll cfg w σ).shards s).localQueue = (σ.shards s).localQueue := by
  rw [releaseAll_spec.1]
  simp only [releasedShard]
  split_ifs <;> rfl

theorem drained_localQueue (s : ℕ) :
    ((drained cfg w σ).shards s).localQueue = (σ.shards s).localQueue := by
  rw [drained_spec.1]
  simp only [drainedShard, drainedReleased]
  split_ifs <;> rfl

/-- The shards of the core get their new ratio. -/
theorem takeRatios_shards (s : ℕ) : (takeRatios cfg w σ).shards s =
    if s < cfg.totalShards ∧ (σ.shards s).owner = w then
      { σ.shards s with r := (σ.shards s).rNew } else σ.shards s := by
  have hloop := forRange_update cfg.totalShards
    (fun _ sh => if sh.owner = w then { sh with r := sh.rNew } else sh) σ.shards
  refine (congrFun hloop s).trans ?_
  by_cases hs : s < cfg.totalShards <;> simp [hs]

theorem takeRatios_sameHandover : SameHandover σ (takeRatios cfg w σ) := by
  constructor
  all_goals
    intro s
    rw [takeRatios_shards]
    split <;> rfl

/-! ## The routines that move pointers -/

/-- What the routines leave alone that only move pointers to rings and post requests for them. -/
structure Repointed (σ σ' : Sys D) : Prop where
  /-- the shards -/
  shards : σ'.shards = σ.shards
  /-- the rings -/
  ring : σ'.ring = σ.ring
  /-- the NIC queues -/
  rx : σ'.rx = σ.rx
  /-- history: the packets received -/
  received : σ'.received = σ.received
  /-- history: the packets transmitted -/
  transmitted : σ'.transmitted = σ.transmitted
  /-- history: the packets lost -/
  lost : σ'.lost = σ.lost
  /-- `had_changes` -/
  hadChanges : σ'.hadChanges = σ.hadChanges
  /-- `transfer_offloading` -/
  transferOffloading : σ'.transferOffloading = σ.transferOffloading
  /-- `transfer_shard` -/
  transferShard : σ'.transferShard = σ.transferShard
  /-- `controller_signal` -/
  controllerSignal : σ'.controllerSignal = σ.controllerSignal
  /-- `epoch` -/
  epoch : σ'.epoch = σ.epoch
  /-- `A` -/
  A : σ'.A = σ.A
  /-- `newA` -/
  newA : σ'.newA = σ.newA
  /-- `newO` -/
  newO : σ'.newO = σ.newO

theorem Repointed.statics {σ' : Sys D} (h : Repointed σ σ') :
    σ'.epoch = σ.epoch ∧ σ'.newA = σ.newA ∧ σ'.newO = σ.newO := ⟨h.epoch, h.newA, h.newO⟩

theorem exchange_repointed : Repointed σ (exchange w σ) := by
  simp only [exchange]
  split <;> constructor <;> rfl

theorem withdraw_repointed : Repointed σ (withdraw w σ) := by
  simp only [withdraw]
  split <;> constructor <;> rfl

theorem announce_repointed : Repointed σ (announce w σ) := by
  simp only [announce]
  split <;> constructor <;> rfl

theorem adopt_repointed : Repointed σ (adopt w σ) := by
  simp only [adopt]
  split <;> constructor <;> rfl

/-! ## Serving the signal -/

/-- **The signal rule**: what the routines preserve that are asked for, and the end of the block,
serving the signal preserves. -/
theorem serveSignal_rule {P : Sys D → Prop} (drains : List ℕ)
    (hR : ∀ σ, P σ → P (transferR cfg w σ))
    (hO : ∀ σ, P σ → σ.transferOffloading w = true → P (transferOffloading cfg w σ))
    (hS : ∀ σ, P σ → P (transferShard cfg w drains σ))
    (hend : ∀ σ : Sys D, P σ →
      P { σ with controllerSignal := Function.update σ.controllerSignal w false })
    (hσ : P σ) : P (serveSignal cfg w drains σ) := by
  have hservedR : P (serveR cfg w σ) := by
    simp only [serveR]
    split
    · exact hR σ hσ
    · exact hσ
  -- the routines run in the order of the source, each on the state the one before leaves
  have hservedO : P (serveOffloading cfg w (serveR cfg w σ)) := by
    simp only [serveOffloading]
    split
    · next hflag => exact hO _ hservedR hflag
    · exact hservedR
  have hservedS : P (serveShard cfg w drains (serveOffloading cfg w (serveR cfg w σ))) := by
    simp only [serveShard]
    split
    · exact hS _ hservedO
    · exact hservedO
  simp only [serveSignal]
  split
  · exact hend _ hservedS
  · exact hσ

/-! ## The chain of stages

A task is one of the chains that the relation `Stage` allows. An invariant of the tasks has to be
checked for each stage, never for `run_task` itself.
-/

section Chain

variable [Double D] {σ' : Sys D}

/-- One stage of a task of core `w`. -/
inductive Stage (cfg : Cfg) (w : ℕ) : Sys D → Sys D → Prop
  | exchange (σ : Sys D) : Stage cfg w σ (exchange w σ)
  | takeRatios (σ : Sys D) : Stage cfg w σ (takeRatios cfg w σ)
  | withdraw (σ : Sys D) : Stage cfg w σ (withdraw w σ)
  | announce (σ : Sys D) : Stage cfg w σ (announce w σ)
  | adopt (σ : Sys D) : Stage cfg w σ (adopt w σ)
  | takeBack (σ : Sys D) : Stage cfg w σ (takeBack cfg w σ)
  | receiveAll (σ : Sys D) (drains : List ℕ) : Stage cfg w σ (receiveAll cfg w drains σ)
  | releaseAll (σ : Sys D) : Stage cfg w σ (releaseAll cfg w σ)
  | doneR (σ : Sys D) :
    Stage cfg w σ { σ with transferR := Function.update σ.transferR w false }
  | doneOffloading (σ : Sys D) :
    Stage cfg w σ { σ with transferOffloading := Function.update σ.transferOffloading w false }
  | doneShard (σ : Sys D) :
    Stage cfg w σ { σ with transferShard := Function.update σ.transferShard w false }
  | doneSignal (σ : Sys D) :
    Stage cfg w σ { σ with controllerSignal := Function.update σ.controllerSignal w false }
  | processChanges (σ : Sys D) : Stage cfg w σ (processChanges cfg w σ)
  | forward (σ : Sys D) (ready accept : ℕ) :
    Stage cfg w σ (forward cfg w accept (processBatch cfg w ready σ) σ).1
  | drained (σ : Sys D) : Stage cfg w σ (drained cfg w σ)
  | workOff (σ : Sys D) (accept : ℕ) : Stage cfg w σ (workOff cfg w accept σ).1

open Relation (ReflTransGen)

theorem transferR_stages : ReflTransGen (Stage cfg w) σ (transferR cfg w σ) :=
  .tail (.tail (.single (.exchange σ)) (.takeRatios _)) (.doneR _)

theorem transferOffloading_stages : ReflTransGen (Stage cfg w) σ (transferOffloading cfg w σ) :=
  .tail (.tail (.tail (.single (.withdraw σ)) (.takeBack _)) (.adopt _)) (.doneOffloading _)

theorem collect_stages (drains : List ℕ) :
    ReflTransGen (Stage cfg w) σ (collect cfg w drains σ) :=
  .tail (.tail (.tail (.single (.withdraw σ)) (.receiveAll _ _)) (.takeBack _)) (.announce _)

theorem transferShard_stages (drains : List ℕ) :
    ReflTransGen (Stage cfg w) σ (transferShard cfg w drains σ) := by
  refine .tail (ReflTransGen.trans (collect_stages drains) ?_) (.doneShard _)
  split
  · exact .refl
  · exact .single (.releaseAll _)

theorem serveR_stages : ReflTransGen (Stage cfg w) σ (serveR cfg w σ) := by
  simp only [serveR]
  split
  · exact transferR_stages
  · exact .refl

theorem serveOffloading_stages : ReflTransGen (Stage cfg w) σ (serveOffloading cfg w σ) := by
  simp only [serveOffloading]
  split
  · exact transferOffloading_stages
  · exact .refl

theorem serveSignal_stages (drains : List ℕ) :
    ReflTransGen (Stage cfg w) σ (serveSignal cfg w drains σ) :=
  serveSignal_rule drains (fun _ h => h.trans transferR_stages)
    (fun _ h _ => h.trans transferOffloading_stages)
    (fun _ h => h.trans (transferShard_stages drains))
    (fun σ h => .tail h (.doneSignal σ)) .refl

/-- A task is a chain of stages. -/
theorem runTask_stages (inp : TaskInput) :
    ReflTransGen (Stage cfg w) σ (runTask cfg w inp σ).1 := by
  simp only [runTask]
  split
  · split
    · exact .single (.drained σ)
    · exact .single (.workOff σ inp.accept)
  · exact .tail (.tail (serveSignal_stages inp.drains) (.processChanges _))
      (.forward _ inp.rx inp.accept)

/-- What every stage preserves, a chain of stages preserves. -/
theorem Stage.inv {P : Sys D → Prop} (hstep : ∀ σ σ', P σ → Stage cfg w σ σ' → P σ')
    (hσ : P σ) (hchain : ReflTransGen (Stage cfg w) σ σ') : P σ' := by
  induction hchain with
  | refl => exact hσ
  | tail _ hlast ih => exact hstep _ _ ih hlast

end Chain

/-! ## Locality and wiring of the stages -/

/-- A stage that touches no ring is local. -/
theorem takeBack_localTo (h : Wired cfg σ) : LocalTo w σ (takeBack cfg w σ) := by
  rw [takeBack_eq h]
  constructor
  case worker => intro v hv; exact update_of_ne hv ..
  case ring =>
    intro r hr
    have hq : r ≠ (σ.worker w).q := RingId.ne_of_core hr rfl (h.pair w).q_core
    have hm : r ≠ (σ.worker w).myring := RingId.ne_of_core hr rfl (h.pair w).myring_core
    exact (update_of_ne hm ..).trans (update_of_ne hq ..)
  all_goals intros; rfl

theorem receiveAll_localTo (h : Wired cfg σ) (drains : List ℕ) :
    LocalTo w σ (receiveAll cfg w drains σ) := by
  rw [receiveAll_eq]
  constructor
  case worker => intro v hv; exact update_of_ne hv ..
  case rx => intro v hv; exact update_of_ne hv ..
  case ring =>
    intro r hr
    exact update_of_ne (RingId.ne_of_core hr rfl (h.pair w).myring_core) ..
  all_goals intros; rfl

theorem processChanges_localTo (h : Wired cfg σ) : LocalTo w σ (processChanges cfg w σ) := by
  rw [processChanges_eq h.noLocal]
  constructor
  case worker => intro v hv; exact update_of_ne hv ..
  all_goals intros; rfl

variable [Double D]

theorem forward_localTo (h : Wired cfg σ) (accept : ℕ) (batch : List Packet) :
    LocalTo w σ (forward cfg w accept batch σ).1 := by
  constructor
  case rx => intro v hv; exact update_of_ne hv ..
  case ring =>
    intro r hr
    exact update_of_ne (RingId.ne_of_core hr rfl (h.pair w).q_core) ..
  all_goals intros; rfl

theorem workOff_localTo (h : Wired cfg σ) (accept : ℕ) :
    LocalTo w σ (workOff cfg w accept σ).1 := by
  constructor
  case ring =>
    intro r hr
    exact update_of_ne (RingId.ne_of_core hr rfl (h.pair w).myring_core) ..
  all_goals intros; rfl

/-- **Every stage is local**: it leaves the other cores and their rings alone. -/
theorem Stage.localTo {σ' : Sys D} (h : Wired cfg σ) (hs : Stage cfg w σ σ') :
    LocalTo w σ σ' := by
  cases hs with
  | takeBack => exact takeBack_localTo h
  | receiveAll drains => exact receiveAll_localTo h drains
  | processChanges => exact processChanges_localTo h
  | forward ready accept => exact forward_localTo h accept _
  | workOff accept => exact workOff_localTo h accept
  | exchange =>
    simp only [WorkingCore.exchange, WorkingCore.swapRings]
    split
    · constructor
      all_goals intros
      all_goals first
        | rfl
        | exact update_of_ne ‹_› ..
    · exact LocalTo.refl w σ
  | withdraw =>
    simp only [WorkingCore.withdraw]
    split
    · constructor <;> intros <;> rfl
    · exact LocalTo.refl w σ
  | announce =>
    simp only [WorkingCore.announce]
    split
    · constructor <;> intros <;> rfl
    · exact LocalTo.refl w σ
  | adopt =>
    simp only [WorkingCore.adopt]
    split
    · constructor
      all_goals intros
      all_goals first
        | rfl
        | exact update_of_ne ‹_› ..
    · exact LocalTo.refl w σ
  | takeRatios => constructor <;> intros <;> rfl
  | releaseAll => constructor <;> intros <;> rfl
  | doneR | doneOffloading | doneShard | doneSignal | drained =>
    constructor
    all_goals intros
    all_goals first
      | rfl
      | exact update_of_ne ‹_› ..

/-! ## Local queues -/

theorem forward_sameHandover (accept : ℕ) (batch : List Packet) :
    SameHandover σ (forward cfg w accept batch σ).1 :=
  .of_settings fun s => classify_settings cfg w σ.epoch batch σ.shards s

theorem workOff_sameHandover (accept : ℕ) : SameHandover σ (workOff cfg w accept σ).1 :=
  .of_settings fun s => extractAll_settings cfg w σ.epoch _ σ.shards s

/-- No stage touches a local queue. -/
theorem Stage.localQueue {σ' : Sys D} (h : Wired cfg σ) (hs : Stage cfg w σ σ') (s : ℕ) :
    (σ'.shards s).localQueue = (σ.shards s).localQueue := by
  cases hs with
  | takeRatios => exact takeRatios_sameHandover.localQueue s
  | releaseAll => exact releaseAll_localQueue s
  | drained => exact drained_localQueue s
  | forward ready accept => exact (forward_sameHandover accept _).localQueue s
  | workOff accept => exact (workOff_sameHandover accept).localQueue s
  | processChanges =>
    rw [processChanges_eq h.noLocal]
    rfl
  | takeBack =>
    rw [takeBack_eq h]
    rfl
  | receiveAll drains =>
    rw [receiveAll_eq]
    rfl
  | exchange => rw [exchange_repointed.shards]
  | withdraw => rw [withdraw_repointed.shards]
  | announce => rw [announce_repointed.shards]
  | adopt => rw [adopt_repointed.shards]
  | doneR | doneOffloading | doneShard | doneSignal => rfl

/-! ## Pointers

The two rings of a core are its own and different from each other, and the table `queues` of the
shared state names the one in use. Only `exchange` touches these pointers, and it makes the rings
change roles.
-/

/-- The ring pointers of the core stay, or change roles. -/
theorem Stage.pair {σ' : Sys D} (h : Wired cfg σ) (hs : Stage cfg w σ σ') :
    (σ'.worker w).Paired w ∧ σ'.queues w = (σ'.worker w).q := by
  cases hs with
  | takeBack =>
    rw [takeBack_eq h]
    simp only [Sys.setWorker, update_self]
    exact ⟨(h.pair w).congr rfl rfl, h.queues w⟩
  | receiveAll drains =>
    rw [receiveAll_eq]
    simp only [Sys.setWorker, update_self]
    exact ⟨(h.pair w).congr rfl rfl, h.queues w⟩
  | processChanges =>
    rw [processChanges_eq h.noLocal]
    simp only [Sys.setWorker, update_self]
    exact ⟨(h.pair w).congr rfl rfl, h.queues w⟩
  | drained =>
    simp only [WorkingCore.drained, Sys.setWorker, update_self]
    exact ⟨(h.pair w).congr rfl rfl, h.queues w⟩
  | exchange =>
    simp only [WorkingCore.exchange]
    split
    · simp only [swapRings, Sys.postAdd, Sys.setWorker, Sys.postRemove, update_self, and_true]
      exact (h.pair w).swap rfl rfl
    · exact ⟨h.pair w, h.queues w⟩
  | adopt =>
    simp only [WorkingCore.adopt]
    split
    · simp only [Sys.postAdd, Sys.setWorker, update_self]
      exact ⟨(h.pair w).congr rfl rfl, h.queues w⟩
    · exact ⟨h.pair w, h.queues w⟩
  | withdraw =>
    simp only [WorkingCore.withdraw]
    split <;> exact ⟨h.pair w, h.queues w⟩
  | announce =>
    simp only [WorkingCore.announce]
    split <;> exact ⟨h.pair w, h.queues w⟩
  | takeRatios | releaseAll | doneR | doneOffloading | doneShard | doneSignal | forward
  | workOff => exact ⟨h.pair w, h.queues w⟩

/-- The rings of a core with burst 0 stay empty. -/
theorem Stage.idle {σ' : Sys D} (h : Wired cfg σ) (hs : Stage cfg w σ σ')
    (h0 : cfg.burst w = 0) : σ'.ring = σ.ring := by
  have hq : σ.qItems w = [] := h.idle w h0 _ (h.pair w).q_core
  cases hs with
  | takeBack =>
    rw [takeBack_eq h]
    exact poured_of_nil hq
  | receiveAll drains =>
    -- a burst of 0 receives nothing
    have hnil : rxPrefix cfg w drains σ = [] := by
      rw [rxPrefix, h0, rxTaken_of_idle, List.take_zero]
    rw [receiveAll_eq]
    simp only [hnil, Fifo.enqueueBurst_nil, Function.update_eq_self]
  | processChanges =>
    rw [processChanges_eq h.noLocal]
    rfl
  | forward ready accept =>
    have hnil : processBatch cfg w ready σ = [] := by
      simp only [processBatch]
      split
      · rfl
      · rw [rxBurst, h0, Nat.min_zero, List.take_zero]
    rw [hnil]
    simp only [WorkingCore.forward, classify, Sys.enqueueRing, pushBatch, Fifo.enqueueBurst_nil,
      Function.update_eq_self]
  | workOff accept =>
    have hd : (σ.ring (σ.worker w).myring).items = [] :=
      h.idle w h0 _ (h.pair w).myring_core
    have hsame : ((σ.ring (σ.worker w).myring).dequeueBurst
        (min (σ.ring (σ.worker w).myring).count (cfg.burst w))).2 =
          σ.ring (σ.worker w).myring := by
      refine Fifo.ext rfl ?_
      rw [Fifo.dequeueBurst_items, h0, Nat.min_zero, List.drop_zero]
    simp only [WorkingCore.workOff, pushBatch, hsame, Function.update_eq_self]
  | exchange => exact exchange_repointed.ring
  | withdraw => exact withdraw_repointed.ring
  | announce => exact announce_repointed.ring
  | adopt => exact adopt_repointed.ring
  | takeRatios | releaseAll | doneR | doneOffloading | doneShard | doneSignal | drained => rfl

/-- The number of the epoch and the answer of the solver are the controller's. -/
theorem Stage.statics {σ' : Sys D} (h : Wired cfg σ) (hs : Stage cfg w σ σ') :
    σ'.epoch = σ.epoch ∧ σ'.newA = σ.newA ∧ σ'.newO = σ.newO := by
  cases hs with
  | takeBack =>
    rw [takeBack_eq h]
    exact ⟨rfl, rfl, rfl⟩
  | receiveAll drains =>
    rw [receiveAll_eq]
    exact ⟨rfl, rfl, rfl⟩
  | processChanges =>
    rw [processChanges_eq h.noLocal]
    exact ⟨rfl, rfl, rfl⟩
  | exchange => exact exchange_repointed.statics
  | withdraw => exact withdraw_repointed.statics
  | announce => exact announce_repointed.statics
  | adopt => exact adopt_repointed.statics
  | takeRatios | releaseAll | doneR | doneOffloading | doneShard | doneSignal | forward
  | workOff | drained => exact ⟨rfl, rfl, rfl⟩

end WorkingCore

/-- **Every stage keeps the wiring.** -/
theorem Wired.stage [Double D] {σ' : Sys D} (h : Wired cfg σ) (hw : w < cfg.W)
    (hs : WorkingCore.Stage cfg w σ σ') : Wired cfg σ' := by
  refine h.of_localTo hw (hs.localTo h) (hs.pair h).1 (hs.pair h).2 ?_ (hs.localQueue h)
  intro h0 r hr
  rw [hs.idle h h0]
  exact h.idle w h0 r hr

/-- A chain of stages keeps the wiring. -/
theorem Wired.stages [Double D] {σ' : Sys D} (h : Wired cfg σ) (hw : w < cfg.W)
    (hchain : Relation.ReflTransGen (WorkingCore.Stage cfg w) σ σ') : Wired cfg σ' :=
  WorkingCore.Stage.inv (fun _ _ hσ hs => hσ.stage hw hs) h hchain

/-- The signal rule in a wired state. -/
theorem Wired.serveSignal_rule [Double D] {P : Sys D → Prop} (h : Wired cfg σ) (hw : w < cfg.W)
    (drains : List ℕ)
    (hR : ∀ σ, Wired cfg σ → P σ → P (WorkingCore.transferR cfg w σ))
    (hO : ∀ σ, Wired cfg σ → P σ → P (WorkingCore.transferOffloading cfg w σ))
    (hS : ∀ σ, Wired cfg σ → P σ → P (WorkingCore.transferShard cfg w drains σ))
    (hend : ∀ σ : Sys D, P σ →
      P { σ with controllerSignal := Function.update σ.controllerSignal w false })
    (hσ : P σ) : P (WorkingCore.serveSignal cfg w drains σ) := by
  refine (WorkingCore.serveSignal_rule (P := fun σ => Wired cfg σ ∧ P σ) drains (fun σ hσ => ?_)
    (fun σ hσ _ => ?_) (fun σ hσ => ?_) (fun σ hσ => ?_) ⟨h, hσ⟩).2
  · exact ⟨hσ.1.stages hw WorkingCore.transferR_stages, hR σ hσ.1 hσ.2⟩
  · exact ⟨hσ.1.stages hw WorkingCore.transferOffloading_stages, hO σ hσ.1 hσ.2⟩
  · exact ⟨hσ.1.stages hw (WorkingCore.transferShard_stages drains), hS σ hσ.1 hσ.2⟩
  · exact ⟨hσ.1.stage hw (.doneSignal σ), hend σ hσ.2⟩

/-- What every stage preserves in a wired state, a task preserves. -/
theorem Wired.runTask_inv [Double D] {P : Sys D → Prop} (h : Wired cfg σ) (hw : w < cfg.W)
    (hstep : ∀ σ σ', Wired cfg σ → P σ → WorkingCore.Stage cfg w σ σ' → P σ') (hσ : P σ)
    (inp : TaskInput) :
    Wired cfg (WorkingCore.runTask cfg w inp σ).1 ∧ P (WorkingCore.runTask cfg w inp σ).1 :=
  WorkingCore.Stage.inv (P := fun σ => Wired cfg σ ∧ P σ)
    (fun σ σ' hσ hs => ⟨hσ.1.stage hw hs, hstep σ σ' hσ.1 hσ.2 hs⟩) ⟨h, hσ⟩
    (WorkingCore.runTask_stages inp)

/-- A task leaves the epoch and the controller's new matrices alone. -/
theorem Wired.runTask_statics [Double D] (h : Wired cfg σ) (hw : w < cfg.W) (inp : TaskInput) :
    (WorkingCore.runTask cfg w inp σ).1.epoch = σ.epoch ∧
      (WorkingCore.runTask cfg w inp σ).1.newA = σ.newA ∧
        (WorkingCore.runTask cfg w inp σ).1.newO = σ.newO :=
  (h.runTask_inv (P := fun σ' => σ'.epoch = σ.epoch ∧ σ'.newA = σ.newA ∧ σ'.newO = σ.newO) hw
    (fun _ _ hσ ⟨he, hA, hO⟩ hs =>
      have ⟨he', hA', hO'⟩ := hs.statics hσ
      ⟨he'.trans he, hA'.trans hA, hO'.trans hO⟩) ⟨rfl, rfl, rfl⟩ inp).2

/-- A task leaves everything alone that belongs to another core. -/
theorem Wired.runTask_localTo [Double D] (h : Wired cfg σ) (hw : w < cfg.W) (inp : TaskInput) :
    LocalTo w σ (WorkingCore.runTask cfg w inp σ).1 :=
  (h.runTask_inv (P := LocalTo w σ) hw (fun _ _ hσ hl hs => hl.trans (hs.localTo hσ))
    (LocalTo.refl w σ) inp).2

/-! ## What a task can do to the hand-over state

A core works on the fields of every shard, not only of its own, and still it can do three things to
them only.
-/

/-- A core ends pauses, acquires shards for itself and clears `owner_new`. -/
structure HandoverBy (w : ℕ) (σ σ' : Sys D) : Prop where
  /-- no pause begins -/
  pause : ∀ s, (σ'.shards s).pause = true → (σ.shards s).pause = true
  /-- shards are acquired for the core only -/
  owner : ∀ s, (σ'.shards s).owner = (σ.shards s).owner ∨ (σ'.shards s).owner = w
  /-- new owners are cleared only -/
  ownerNew : ∀ s, (σ'.shards s).ownerNew = (σ.shards s).ownerNew ∨
    (σ'.shards s).ownerNew = uint32Max

namespace HandoverBy

theorem of_same {σ' : Sys D} (h : SameHandover σ σ') : HandoverBy w σ σ' :=
  ⟨fun s hs => by rwa [← h.pause s], fun s => Or.inl (h.owner s), fun s => Or.inl (h.ownerNew s)⟩

theorem trans {σ₁ σ₂ σ₃ : Sys D} (h : HandoverBy w σ₁ σ₂) (h' : HandoverBy w σ₂ σ₃) :
    HandoverBy w σ₁ σ₃ := by
  refine ⟨fun s hs => h.pause s (h'.pause s hs), fun s => ?_, fun s => ?_⟩
  · rcases h'.owner s with he | he
    · rw [he]
      exact h.owner s
    · exact Or.inr he
  · rcases h'.ownerNew s with he | he
    · rw [he]
      exact h.ownerNew s
    · exact Or.inr he

end HandoverBy

namespace WorkingCore

/-- The loop of `transfer_shard` over the shards only ends pauses. -/
theorem releaseAll_handoverBy : HandoverBy w σ (releaseAll cfg w σ) := by
  constructor
  all_goals
    intro s
    rw [releaseAll_spec.1]
    simp only [releasedShard]
    split_ifs <;> simp

/-- The end of a drained ring ends pauses and acquires shards. -/
theorem drained_handoverBy : HandoverBy w σ (drained cfg w σ) := by
  constructor
  all_goals
    intro s
    rw [drained_spec.1]
    simp only [drainedShard, drainedReleased]
    split_ifs <;> simp_all

/-- **Every stage** ends pauses and acquires shards only. -/
theorem Stage.handoverBy [Double D] {σ' : Sys D} (h : Wired cfg σ) (hs : Stage cfg w σ σ') :
    HandoverBy w σ σ' := by
  cases hs with
  | takeRatios => exact .of_same takeRatios_sameHandover
  | releaseAll => exact releaseAll_handoverBy
  | drained => exact drained_handoverBy
  | forward ready accept => exact .of_same (forward_sameHandover accept _)
  | workOff accept => exact .of_same (workOff_sameHandover accept)
  | processChanges =>
    rw [processChanges_eq h.noLocal]
    exact .of_same (.of_shards rfl)
  | takeBack =>
    rw [takeBack_eq h]
    exact .of_same (.of_shards rfl)
  | receiveAll drains =>
    rw [receiveAll_eq]
    exact .of_same (.of_shards rfl)
  | exchange => exact .of_same (.of_shards exchange_repointed.shards)
  | withdraw => exact .of_same (.of_shards withdraw_repointed.shards)
  | announce => exact .of_same (.of_shards announce_repointed.shards)
  | adopt => exact .of_same (.of_shards adopt_repointed.shards)
  | doneR | doneOffloading | doneShard | doneSignal => exact .of_same (.of_shards rfl)

end WorkingCore

/-- A task ends pauses and acquires shards only. -/
theorem Wired.runTask_handoverBy [Double D] (h : Wired cfg σ) (hw : w < cfg.W)
    (inp : TaskInput) : HandoverBy w σ (WorkingCore.runTask cfg w inp σ).1 :=
  (h.runTask_inv (P := HandoverBy w σ) hw (fun _ _ hσ hl hs => hl.trans (hs.handoverBy hσ))
    (.of_same (.refl σ)) inp).2

end Fajita
