import Fajita.FlowTable

/-!
# The working core

`DyssectWorkingCore`: the three transfer routines, `process` and `run_task`,
with `DyssectQueueOut::push_batch` behind output 0. A task is a function of the
state and of what the drivers answer during it (`TaskInput`); `runTask` also
returns the log of the calls the properties speak about (`TaskLog`).

Loops over shards run on a record of just the fields they change (`Handover`,
`ChangesLoop`, `RxDrain`), so that everything else is visibly untouched.
-/

namespace Fajita

variable {D : Type}

/-- What the drivers answer during one task of a working core. -/
structure TaskInput where
  /-- the buffers each `rte_eth_rx_burst` of `transfer_shard` is ready to hand out -/
  drains : List ℕ
  /-- the buffers the `rte_eth_rx_burst` of `process` is ready to hand out -/
  rx : ℕ
  /-- the buffers `rte_eth_tx_burst` is ready to accept -/
  accept : ℕ

/-- The calls of one task. -/
structure TaskLog where
  /-- the packets `extract_state` was called on, in order -/
  extracted : List Packet := []
  /-- the packets pushed to output 0, in order -/
  pushed : List Packet := []
  /-- the packets written to `off_pkts`, in order -/
  off : List Packet := []

namespace Sys

/-- Rewrite the members of a working core. -/
def setWorker (σ : Sys D) (w : ℕ) (f : Worker → Worker) : Sys D :=
  { σ with worker := Function.update σ.worker w (f (σ.worker w)) }

/-- `rte_ring_enqueue(toRemoveQueue[e], r)` -/
def postRemove (σ : Sys D) (e : ℕ) (r : RingId) : Sys D :=
  { σ with
    toRemoveQueue := Function.update σ.toRemoveQueue e ((σ.toRemoveQueue e).enqueue r)
    posted := Function.update σ.posted e (σ.posted e ++ [.remove r]) }

/-- `rte_ring_enqueue(toAddQueue[e], r)` -/
def postAdd (σ : Sys D) (e : ℕ) (r : RingId) : Sys D :=
  { σ with
    toAddQueue := Function.update σ.toAddQueue e ((σ.toAddQueue e).enqueue r)
    posted := Function.update σ.posted e (σ.posted e ++ [.add r]) }

/-- `rte_ring_enqueue_burst(r, xs)`, whose result every caller ignores. -/
def enqueueRing (σ : Sys D) (r : RingId) (xs : List Packet) : Sys D :=
  { σ with
    ring := Function.update σ.ring r ((σ.ring r).enqueueBurst xs)
    lost := σ.lost ++ (σ.ring r).refused xs }

/-- `while(rte_ring_count(src)) { dequeue a burst; enqueue it in dst; }` -/
def moveRing (σ : Sys D) (burst : ℕ) (src dst : RingId) : Sys D :=
  let m := Fifo.moveAll burst (σ.ring src) (σ.ring dst)
  { σ with
    ring := Function.update (Function.update σ.ring src m.1) dst m.2.1
    lost := σ.lost ++ m.2.2 }

end Sys

/-! ## The output -/

/-- `DyssectQueueOut::push_batch`: at most `burst` buffers of the batch are
offered, a prefix of them is accepted. The rest of the batch is neither kept nor
freed. -/
def pushBatch (cfg : Cfg) (i accept : ℕ) (batch : List Packet) (σ : Sys D) : Sys D :=
  let sent := (batch.take (cfg.outBurst i)).take accept
  { σ with
    transmitted := σ.transmitted ++ sent
    lost := σ.lost ++ batch.drop sent.length }

namespace WorkingCore

/-! ## Releasing and acquiring shards

The loops of the source run over all shards, and test for each one what the core has to do with it.
-/

/-- The fields that the hand-over loops change. -/
structure Handover (D : Type) where
  /-- `shards` -/
  shards : ℕ → ShardInfo D
  /-- `had_changes` -/
  hadChanges : ℕ → Bool

/-- Release a shard: clear `pause`, then tell the new owner. -/
def release (s : ℕ) (h : Handover D) : Handover D where
  shards := updateShard s (fun sh => { sh with pause := false }) h.shards
  hadChanges := Function.update h.hadChanges (h.shards s).ownerNew true

/-- Acquire a shard: clear `owner_new`, then become the owner. -/
def acquire (w s : ℕ) (h : Handover D) : Handover D :=
  { h with
    shards := updateShard s (fun sh => { sh with ownerNew := uint32Max, owner := w }) h.shards }

/-- An iteration of the loop of `transfer_shard`. -/
def releaseOwned (w s : ℕ) (h : Handover D) : Handover D :=
  if (h.shards s).owner = w ∧ (h.shards s).ownerNew ≠ uint32Max then release s h else h

/-- The loop of `transfer_shard` over the shards. -/
def releaseAll (cfg : Cfg) (w : ℕ) (σ : Sys D) : Sys D :=
  let h := forRange cfg.totalShards (releaseOwned w) ⟨σ.shards, σ.hadChanges⟩
  { σ with
    shards := h.shards
    hadChanges := h.hadChanges }

/-- The first test of an iteration of the drained branch of `run_task`. -/
def drainedRelease (w s : ℕ) (h : Handover D) : Handover D :=
  if (h.shards s).pause = true ∧ (h.shards s).owner = w ∧ (h.shards s).ownerNew ≠ uint32Max then
    release s h
  else h

/-- The second test of an iteration of the drained branch of `run_task`. -/
def drainedAcquire (w s : ℕ) (h : Handover D) : Handover D :=
  if (h.shards s).pause = false ∧ (h.shards s).ownerNew = w then acquire w s h else h

/-- The branch of `run_task` for a core whose own ring has run empty. -/
def drained (cfg : Cfg) (w : ℕ) (σ : Sys D) : Sys D :=
  let h := forRange cfg.totalShards (fun s h => drainedAcquire w s (drainedRelease w s h))
    ⟨σ.shards, σ.hadChanges⟩
  { σ.setWorker w fun me => { me with myown := false } with
    shards := h.shards
    hadChanges := h.hadChanges }

/-! ## The pieces of the transfer routines -/

/-- `q` is withdrawn from the offloading core, if there is one. -/
def withdraw (w : ℕ) (σ : Sys D) : Sys D :=
  if (σ.worker w).offloadingIdx ≠ uint32Max then
    σ.postRemove (σ.worker w).offloadingIdx (σ.worker w).q
  else σ

/-- `q` is announced to the offloading core, if there is one. -/
def announce (w : ℕ) (σ : Sys D) : Sys D :=
  if (σ.worker w).offloadingIdx ≠ uint32Max then
    σ.postAdd (σ.worker w).offloadingIdx (σ.worker w).q
  else σ

/-- The end of `transfer_offloading`: `q` is announced to the new offloading
core, if one was asked for. -/
def adopt (w : ℕ) (σ : Sys D) : Sys D :=
  let idx := σ.newOffloadingFromWorking w
  if idx ≠ uint32Max then
    { (σ.postAdd idx (σ.worker w).q).setWorker w fun me => { me with offloadingIdx := idx } with
      newOffloadingFromWorking := Function.update σ.newOffloadingFromWorking w uint32Max }
  else σ

/-- `while(rte_ring_count(q) != 0)`: what waits in `q` moves to `myring`. -/
def takeBack (cfg : Cfg) (w : ℕ) (σ : Sys D) : Sys D :=
  if (σ.ring (σ.worker w).q).count ≠ 0 then
    (σ.moveRing (cfg.burst w) (σ.worker w).q (σ.worker w).myring).setWorker w
      fun me => { me with myown := true }
  else σ

/-- The fields that the receive loop of `transfer_shard` changes. -/
structure RxDrain where
  /-- the NIC queue -/
  rx : List Packet
  /-- `myring` -/
  mine : Fifo Packet
  /-- `myown` -/
  myown : Bool
  /-- history: buffers handed out by the NIC -/
  received : List Packet
  /-- history: buffers `myring` had no room for -/
  lost : List Packet

/-- `rte_eth_rx_burst`: at most `burst` of the waiting buffers, and at most as
many as the driver is ready to hand out. -/
def rxBurst (burst ready : ℕ) (rx : List Packet) : List Packet := rx.take (min ready burst)

/-- The receive loop of `transfer_shard`. `count` is a `uint32_t`; the loop ends
when it is 0 or the driver hands out nothing. -/
def rxDrain (burst : ℕ) : List ℕ → UInt32 → RxDrain → RxDrain
  | drains, count, l =>
    if count = 0 then l
    else
      match drains with
      | [] => { l with myown := true }
      | ready :: drains =>
        let pkts := rxBurst burst ready l.rx
        if pkts.length = 0 then { l with myown := true }
        else
          rxDrain burst drains (count - UInt32.ofNat pkts.length)
            { rx := l.rx.drop pkts.length
              mine := l.mine.enqueueBurst pkts
              myown := true
              received := l.received ++ pkts
              lost := l.lost ++ l.mine.refused pkts }

/-- `MIN(rte_eth_rx_queue_count(portid, queueid), qsize)`. `MIN` is a macro: the driver is asked
for the length of the queue, and asked again if its first answer is below `qsize`. -/
def rxMin (first second : ℕ) : UInt32 :=
  UInt32.ofNat (if first < Cfg.qsize then second else Cfg.qsize)

/-- Within a task nothing arrives, and both answers are the same. -/
def rxCount (w : ℕ) (σ : Sys D) : UInt32 := rxMin (σ.rx w).length (σ.rx w).length

/-- With two equal answers the macro is the minimum. -/
theorem rxCount_eq (w : ℕ) (σ : Sys D) :
    rxCount w σ = UInt32.ofNat (min (σ.rx w).length Cfg.qsize) := by
  rw [rxCount, rxMin, Nat.min_def]
  congr 1
  split <;> split <;> omega

/-- `while(count > 0)`: what waits in the NIC queue moves to `myring`. -/
def receiveAll (cfg : Cfg) (w : ℕ) (drains : List ℕ) (σ : Sys D) : Sys D :=
  let l := rxDrain (cfg.burst w) drains (rxCount w σ)
    ⟨σ.rx w, σ.ring (σ.worker w).myring, (σ.worker w).myown, σ.received, σ.lost⟩
  { σ.setWorker w fun me => { me with myown := l.myown } with
    rx := Function.update σ.rx w l.rx
    ring := Function.update σ.ring (σ.worker w).myring l.mine
    received := l.received
    lost := l.lost }

/-- The two rings change roles, as `transfer_r` does it when packets wait in `q`. -/
def swapRings (w : ℕ) (σ : Sys D) : Sys D :=
  let me := σ.worker w
  let σ := σ.postRemove me.offloadingIdx me.q
  let σ : Sys D :=
    { σ.setWorker w fun me => { me with myown := true, q := me.myring, myring := me.q } with
      queues := Function.update σ.queues w me.myring
      rings := Function.update σ.rings w me.q }
  σ.postAdd me.offloadingIdx me.myring

/-- The first half of `transfer_r`. -/
def exchange (w : ℕ) (σ : Sys D) : Sys D :=
  if (σ.ring (σ.worker w).q).count ≠ 0 then swapRings w σ else σ

/-- The loop of `transfer_r`: the owned shards take over `r_new`. -/
def takeRatios (cfg : Cfg) (w : ℕ) (σ : Sys D) : Sys D :=
  { σ with
    shards := forRange cfg.totalShards
      (fun s shards => Function.update shards s
        (if (shards s).owner = w then { shards s with r := (shards s).rNew } else shards s))
      σ.shards }

/-! ## The transfer routines -/

/-- `transfer_r` -/
def transferR (cfg : Cfg) (w : ℕ) (σ : Sys D) : Sys D :=
  let σ := takeRatios cfg w (exchange w σ)
  { σ with transferR := Function.update σ.transferR w false }

/-- `transfer_shard` up to the loop over the shards. -/
def collect (cfg : Cfg) (w : ℕ) (drains : List ℕ) (σ : Sys D) : Sys D :=
  announce w (takeBack cfg w (receiveAll cfg w drains (withdraw w σ)))

/-- `transfer_shard` -/
def transferShard (cfg : Cfg) (w : ℕ) (drains : List ℕ) (σ : Sys D) : Sys D :=
  let σ := collect cfg w drains σ
  let σ := if (σ.worker w).myown then σ else releaseAll cfg w σ
  { σ with transferShard := Function.update σ.transferShard w false }

/-- `transfer_offloading` -/
def transferOffloading (cfg : Cfg) (w : ℕ) (σ : Sys D) : Sys D :=
  let σ := adopt w (takeBack cfg w (withdraw w σ))
  { σ with transferOffloading := Function.update σ.transferOffloading w false }

/-- The test of `transfer_r` in `run_task`. -/
def serveR (cfg : Cfg) (w : ℕ) (σ : Sys D) : Sys D :=
  if σ.transferR w then transferR cfg w σ else σ

/-- The test of `transfer_offloading` in `run_task`. -/
def serveOffloading (cfg : Cfg) (w : ℕ) (σ : Sys D) : Sys D :=
  if σ.transferOffloading w then transferOffloading cfg w σ else σ

/-- The test of `transfer_shard` in `run_task`. -/
def serveShard (cfg : Cfg) (w : ℕ) (drains : List ℕ) (σ : Sys D) : Sys D :=
  if σ.transferShard w then transferShard cfg w drains σ else σ

/-- The block of `run_task` that serves `controller_signal`. -/
def signalBlock (cfg : Cfg) (w : ℕ) (drains : List ℕ) (σ : Sys D) : Sys D :=
  let σ := serveShard cfg w drains (serveOffloading cfg w (serveR cfg w σ))
  { σ with controllerSignal := Function.update σ.controllerSignal w false }

/-- The test of `controller_signal`. -/
def serveSignal (cfg : Cfg) (w : ℕ) (drains : List ℕ) (σ : Sys D) : Sys D :=
  if σ.controllerSignal w then signalBlock cfg w drains σ else σ

/-! ## Receiving -/

/-- The fields that the `had_changes` loop of `process` changes. -/
structure ChangesLoop (D : Type) where
  /-- `shards` -/
  shards : ℕ → ShardInfo D
  /-- `myring` -/
  mine : Fifo Packet
  /-- `myown` -/
  myown : Bool
  /-- history: buffers `myring` had no room for -/
  lost : List Packet

/-- An iteration of the `had_changes` loop of `process`. -/
def takeLocal (cfg : Cfg) (w s : ℕ) (l : ChangesLoop D) : ChangesLoop D :=
  if (l.shards s).ownerNew = w ∧ (l.shards s).pause = false then
    let m := Fifo.moveAll (cfg.burst w) (l.shards s).localQueue l.mine
    { shards := updateShard s (fun sh => { sh with localQueue := m.1 }) l.shards
      mine := m.2.1
      myown := false
      lost := l.lost ++ m.2.2 }
  else l

/-- The `had_changes` branch of `process`. -/
def serveChanges (cfg : Cfg) (w : ℕ) (σ : Sys D) : Sys D :=
  let me := σ.worker w
  let l := forRange cfg.totalShards (takeLocal cfg w) ⟨σ.shards, σ.ring me.myring, me.myown, σ.lost⟩
  { σ.setWorker w fun me => { me with myown := l.myown } with
    shards := l.shards
    ring := Function.update σ.ring me.myring l.mine
    lost := l.lost
    hadChanges := Function.update σ.hadChanges w false }

/-- `process` up to the receive call. -/
def processChanges (cfg : Cfg) (w : ℕ) (σ : Sys D) : Sys D :=
  if σ.hadChanges w then serveChanges cfg w σ else σ

/-- The batch `process` returns; nothing is received while `myown` is set. -/
def processBatch (cfg : Cfg) (w ready : ℕ) (σ : Sys D) : List Packet :=
  if (σ.worker w).myown then [] else rxBurst (cfg.burst w) ready (σ.rx w)

variable [Double D]

/-- The end of `run_task`: classify the received batch, push one part to output
0 and enqueue the other part in `q`. -/
def forward (cfg : Cfg) (w accept : ℕ) (batch : List Packet) (σ : Sys D) : Sys D × TaskLog :=
  let c := classify cfg w σ.epoch batch σ.shards
  let σ : Sys D :=
    { σ with
      rx := Function.update σ.rx w ((σ.rx w).drop batch.length)
      received := σ.received ++ batch
      shards := c.1 }
  let σ := pushBatch cfg w accept c.2.1 σ
  (σ.enqueueRing (σ.worker w).q c.2.2, ⟨batch, c.2.1, c.2.2⟩)

/-- The branch of `run_task` for a core that works off its own ring. -/
def workOff (cfg : Cfg) (w accept : ℕ) (σ : Sys D) : Sys D × TaskLog :=
  let me := σ.worker w
  let d := (σ.ring me.myring).dequeueBurst (min (σ.ring me.myring).count (cfg.burst w))
  let σ : Sys D :=
    { σ with
      ring := Function.update σ.ring me.myring d.2
      shards := extractAll cfg w σ.epoch d.1 σ.shards }
  (pushBatch cfg w accept d.1 σ, ⟨d.1, d.1, []⟩)

/-- `run_task` -/
def runTask (cfg : Cfg) (w : ℕ) (inp : TaskInput) (σ : Sys D) : Sys D × TaskLog :=
  if (σ.worker w).myown then
    if (σ.ring (σ.worker w).myring).count = 0 then (drained cfg w σ, {})
    else workOff cfg w inp.accept σ
  else
    let σ := processChanges cfg w (serveSignal cfg w inp.drains σ)
    forward cfg w inp.accept (processBatch cfg w inp.rx σ) σ

end WorkingCore

end Fajita
