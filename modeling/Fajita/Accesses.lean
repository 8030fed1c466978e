import Fajita.Epoch
import Fajita.Threads

/-!
# The tasks, access by access

The epoch of the controller and the tasks of the cores as programs of `Fajita.Threads`, so that
the other threads can do anything between two accesses. An access to a field on which an index
depends is an access of its own, and so is each access to one of the arrays of pointers (`Arr`).
What runs on other fields only (the counters, the flow tables, the contents of the rings) is taken
from the atomic model, a routine at a time.

`exec_program`: a program that is not interrupted is the step of the router.
-/

namespace Fajita

/-- The arrays of pointers, of which a thread uses the element at an index. -/
inductive Arr where
  /-- `queues` -/
  | queues
  /-- `rings` -/
  | rings
  /-- `toAddQueue` -/
  | toAddQueue
  /-- `toRemoveQueue` -/
  | toRemoveQueue
  /-- `transfer_r` -/
  | transferR
  /-- `transfer_shard` -/
  | transferShard
  /-- `transfer_offloading` -/
  | transferOffloading
  /-- `controller_signal` -/
  | controllerSignal
  /-- `had_changes` -/
  | hadChanges
  /-- `offloading_from_working` -/
  | offloadingFromWorking
  /-- `new_offloading_from_working` -/
  | newOffloadingFromWorking
  deriving DecidableEq

/-- The elements `configure` and `init_queues` allocate. -/
def Cfg.size (cfg : Cfg) : Arr → ℕ
  | .queues | .rings => cfg.W
  | .toAddQueue | .toRemoveQueue => cfg.E
  | _ => cfg.totalCores

/-- A part of a task. A note is a shard, whose `owner_new` is not "none". -/
abbrev Part (D α : Type) := Prog (Sys D) ℕ Arr α

namespace Accesses

open Prog

variable {D : Type}

/-! ## Accesses to the fields of a shard -/

/-- A field of the shard `s`. -/
def shard {α : Type} (s : ℕ) (f : ShardInfo D → α) : Part D α := get fun σ => f (σ.shards s)

/-- The shard `s` is written. -/
def setShard (s : ℕ) (f : ShardInfo D → ShardInfo D) : Part D Unit :=
  put fun σ => { σ with shards := updateShard s f σ.shards }

/-! ## The working core

Each routine of the atomic model is written once more, as the sequence of its accesses. Where a
variable is read twice by the source it is read twice here, and another thread may write it in
between.
-/

/-- `rte_ring_enqueue(toRemoveQueue[e], r)` -/
def postRemove (e : ℕ) (r : RingId) : Part D Unit := do
  touch .toRemoveQueue e
  put fun σ => σ.postRemove e r

/-- `rte_ring_enqueue(toAddQueue[e], r)` -/
def postAdd (e : ℕ) (r : RingId) : Part D Unit := do
  touch .toAddQueue e
  put fun σ => σ.postAdd e r

/-- `q` is withdrawn from the offloading core, if there is one. -/
def withdraw (w : ℕ) : Part D Unit := do
  let me ← get fun σ => σ.worker w
  only (me.offloadingIdx ≠ uint32Max) (postRemove me.offloadingIdx me.q)

/-- `q` is announced to the offloading core, if there is one. -/
def announce (w : ℕ) : Part D Unit := do
  let me ← get fun σ => σ.worker w
  only (me.offloadingIdx ≠ uint32Max) (postAdd me.offloadingIdx me.q)

/-- The two rings change roles. -/
def swapRings (w : ℕ) : Part D Unit := do
  let me ← get fun σ => σ.worker w
  postRemove me.offloadingIdx me.q
  put fun σ => σ.setWorker w fun me => { me with myown := true, q := me.myring }
  touch .queues w
  put fun σ => { σ with queues := Function.update σ.queues w me.myring }
  put fun σ => σ.setWorker w fun me' => { me' with myring := me.q }
  touch .rings w
  put fun σ => { σ with rings := Function.update σ.rings w me.q }
  postAdd me.offloadingIdx me.myring

/-- The loop of `transfer_r`: the owned shards take over `r_new`. -/
def takeRatios (cfg : Cfg) (w : ℕ) : Part D Unit :=
  loop cfg.totalShards fun s => do
    let owner ← shard s (·.owner)
    only (owner = w) do
      let rNew ← shard s (·.rNew)
      setShard s fun sh => { sh with r := rNew }

/-- `transfer_r` -/
def transferR (cfg : Cfg) (w : ℕ) : Part D Unit := do
  let count ← get fun σ => (σ.ring (σ.worker w).q).count
  only (count ≠ 0) (swapRings w)
  takeRatios cfg w
  touch .transferR w
  put fun σ => { σ with transferR := Function.update σ.transferR w false }

/-- `rte_atomic32_clear(&shards[s].pause)` -/
def clearPause (s : ℕ) (σ : Sys D) : Sys D :=
  { σ with shards := updateShard s (fun sh => { sh with pause := false }) σ.shards }

/-- The body of the two loops that release shards, behind the tests of the other fields:
`owner_new` is tested, and then read again. -/
def tell (s : ℕ) : Part D Unit :=
  act id (fun σ => if (σ.shards s).ownerNew ≠ uint32Max then some s else none) fun σ =>
    only ((σ.shards s).ownerNew ≠ uint32Max) <|
      act (clearPause s) (fun _ => some s) fun _ => do
        let ownerNew ← shard s (·.ownerNew)
        touch .hadChanges ownerNew
        put fun σ => { σ with hadChanges := Function.update σ.hadChanges ownerNew true }

/-- The loop of `transfer_shard`. -/
def releaseAll (cfg : Cfg) (w : ℕ) : Part D Unit :=
  loop cfg.totalShards fun s => do
    let owner ← shard s (·.owner)
    only (owner = w) (tell s)

/-- `transfer_shard` -/
def transferShard (cfg : Cfg) (w : ℕ) (drains : List ℕ) : Part D Unit := do
  withdraw w
  put (WorkingCore.receiveAll cfg w drains)
  put (WorkingCore.takeBack cfg w)
  announce w
  let me ← get fun σ => σ.worker w
  only (¬ me.myown) (releaseAll cfg w)
  touch .transferShard w
  put fun σ => { σ with transferShard := Function.update σ.transferShard w false }

/-- The end of `transfer_offloading`. -/
def adopt (w : ℕ) : Part D Unit := do
  touch .newOffloadingFromWorking w
  let idx ← get fun σ => σ.newOffloadingFromWorking w
  only (idx ≠ uint32Max) do
    let me ← get fun σ => σ.worker w
    postAdd idx me.q
    put fun σ => σ.setWorker w fun me => { me with offloadingIdx := idx }
    touch .newOffloadingFromWorking w
    put fun σ =>
      { σ with
        newOffloadingFromWorking := Function.update σ.newOffloadingFromWorking w uint32Max }

/-- `transfer_offloading` -/
def transferOffloading (cfg : Cfg) (w : ℕ) : Part D Unit := do
  withdraw w
  put (WorkingCore.takeBack cfg w)
  adopt w
  touch .transferOffloading w
  put fun σ => { σ with transferOffloading := Function.update σ.transferOffloading w false }

/-- `if(arr[w] == 1) p` -/
def serve (arr : Arr) (flag : Sys D → ℕ → Bool) (w : ℕ) (p : Part D Unit) : Part D Unit := do
  touch arr w
  let set ← get fun σ => flag σ w
  only (set = true) p

/-- The block of `run_task` that serves `controller_signal`. -/
def signalBlock (cfg : Cfg) (w : ℕ) (drains : List ℕ) : Part D Unit := do
  serve .transferR Sys.transferR w (transferR cfg w)
  serve .transferOffloading Sys.transferOffloading w (transferOffloading cfg w)
  serve .transferShard Sys.transferShard w (transferShard cfg w drains)
  touch .controllerSignal w
  put fun σ => { σ with controllerSignal := Function.update σ.controllerSignal w false }

/-- The `had_changes` branch of `process`. -/
def serveChanges (cfg : Cfg) (w : ℕ) : Part D Unit := do
  touch .hadChanges w
  put (WorkingCore.serveChanges cfg w)

/-- The first test of an iteration of the drained branch of `run_task`. -/
def drainedRelease (w s : ℕ) : Part D Unit := do
  let pause ← shard s (·.pause)
  only (pause = true) do
    let owner ← shard s (·.owner)
    only (owner = w) (tell s)

/-- The second test of an iteration of the drained branch of `run_task`. -/
def drainedAcquire (w s : ℕ) : Part D Unit := do
  let pause ← shard s (·.pause)
  only (pause = false) do
    let ownerNew ← shard s (·.ownerNew)
    only (ownerNew = w) do
      setShard s fun sh => { sh with ownerNew := uint32Max }
      setShard s fun sh => { sh with owner := w }

/-- The drained branch of `run_task`. -/
def drained (cfg : Cfg) (w : ℕ) : Part D Unit := do
  put fun σ => σ.setWorker w fun me => { me with myown := false }
  loop cfg.totalShards fun s => do
    drainedRelease w s
    drainedAcquire w s

variable [Double D]

/-- `run_task` of a working core -/
def work (cfg : Cfg) (w : ℕ) (inp : TaskInput) : Part D Unit := do
  let me ← get fun σ => σ.worker w
  if me.myown then
    let count ← get fun σ => (σ.ring (σ.worker w).myring).count
    if count = 0 then drained cfg w
    else put fun σ => (WorkingCore.workOff cfg w inp.accept σ).1
  else
    serve .controllerSignal Sys.controllerSignal w (signalBlock cfg w inp.drains)
    serve .hadChanges Sys.hadChanges w (serveChanges cfg w)
    put fun σ =>
      (WorkingCore.forward cfg w inp.accept (WorkingCore.processBatch cfg w inp.rx σ) σ).1

/-! ## The controller

The short update of an epoch in the same way. The loops go over arrays whose indices come from the
memory, so every access says which element of which array it touches.
-/

/-- An iteration of `update_ratio`, with the return value so far. -/
def ratioStep (s : ℕ) (changed : Bool) : Part D Bool := do
  setShard s fun sh => { sh with rNew := Controller.ratioNew sh }
  let same ← shard s fun sh => isEqualThan sh.r sh.rNew
  if !same then
    let owner ← shard s (·.owner)
    touch .transferR owner
    put fun σ => { σ with transferR := Function.update σ.transferR owner true }
    pure true
  else pure changed

/-- `update_ratio` -/
def updateRatio (cfg : Cfg) : Part D Bool := loopWith cfg.totalShards ratioStep false

/-- The first test of an iteration of `update_relationship`. -/
def relationGain (w e : ℕ) : Part D Unit := do
  let asked ← get fun σ => decide (σ.O e w = 0 ∧ σ.newO e w = 1)
  only (asked = true) do
    touch .offloadingFromWorking w
    let idx ← get fun σ => σ.offloadingFromWorking w
    only (idx ≠ uint32Max ∧ idx ≠ e) do
      touch .newOffloadingFromWorking w
      put fun σ =>
        { σ with newOffloadingFromWorking := Function.update σ.newOffloadingFromWorking w e }
      touch .transferOffloading w
      put fun σ => { σ with transferOffloading := Function.update σ.transferOffloading w true }

/-- The second test of an iteration of `update_relationship`. -/
def relationLose (w e : ℕ) : Part D Unit := do
  let asked ← get fun σ => decide (σ.O e w = 1 ∧ σ.newO e w = 0)
  only (asked = true) do
    touch .queues w
    let q ← get fun σ => σ.queues w
    postRemove e q

/-- `update_relationship` -/
def updateRelationship (cfg : Cfg) : Part D Bool := do
  let same ← get fun σ => Controller.sameRelation cfg σ
  if same then pure false
  else
    loop cfg.totalCores fun w => loop cfg.totalCores fun e => do
      relationGain w e
      relationLose w e
    put fun σ => { σ with O := σ.newO }
    pure true

/-- `migration_shard` -/
def migrationShard (s w : ℕ) (sendSignal : Bool) : Part D Unit := do
  let owner ← shard s (·.owner)
  only (owner ≠ w) do
    if !sendSignal then
      setShard s fun sh => { sh with ownerNew := w }
      setShard s fun sh => { sh with pause := true }
    else
      let owner ← shard s (·.owner)
      touch .transferShard owner
      put fun σ => { σ with transferShard := Function.update σ.transferShard owner true }

/-- A pass of `update_shards`. -/
def migrationPass (cfg : Cfg) (sendSignal : Bool) : Part D Unit :=
  loop cfg.totalShards fun s => loop cfg.totalCores fun w => do
    let new ← get fun σ => decide (σ.newA s w = 1 ∧ σ.A s w = 0)
    only (new = true) (migrationShard s w sendSignal)

/-- `update_shards` -/
def updateShards (cfg : Cfg) : Part D Bool := do
  let same ← get fun σ => Controller.sameAssignment cfg σ
  if same then pure false
  else
    migrationPass cfg false
    put (Controller.updateReta cfg)
    migrationPass cfg true
    put fun σ => { σ with A := σ.newA }
    pure true

/-- The signal that ends the solver branch of `update_short_epoch`. -/
def sendSignals (cfg : Cfg) : Part D Unit :=
  loop cfg.W fun i => do
    touch .controllerSignal i
    put fun σ => { σ with controllerSignal := Function.update σ.controllerSignal i true }

/-- The solver branch of `update_short_epoch`, for an answer of the solver. -/
def applyAnswer (cfg : Cfg) (ans : Answer D) : Part D Unit := do
  put (Controller.runShortSolver cfg ans)
  let r ← updateRatio cfg
  let o ← updateRelationship cfg
  let a ← updateShards cfg
  only ((r || o || a) = true) (sendSignals cfg)

/-- `update_short_epoch` -/
def epoch (cfg : Cfg) (ans : Option (Answer D)) (vec : ℕ → List FlowKey) : Part D Unit := do
  put fun σ => Controller.volumeShards cfg (Controller.swapShards cfg σ)
  match ans with
  | some ans => only (cfg.solver = true) (applyAnswer cfg ans)
  | none => pure ()
  put fun σ =>
    Controller.clearFlows cfg (Controller.orderShards cfg vec { σ with epoch := σ.epoch + 1 })

/-! ## The threads

A step of the router is a program. The task of an offloading core is one write once it has come to
its two control rings.
-/

/-- `run_task` of an offloading core -/
def offload (cfg : Cfg) (e accept : ℕ) : Part D Unit := do
  touch .toRemoveQueue e
  touch .toAddQueue e
  put fun σ => (OffloadingCore.runTask cfg e accept σ).1

/-- The program behind a step of the router. -/
def program (cfg : Cfg) : Act D → Part D Unit
  | .arrive p => put (arrive cfg p)
  | .epoch ans vec => epoch cfg ans vec
  | .work w inp => work cfg w inp
  | .offload e accept => offload cfg e accept

end Accesses

/-- The parties of the router. -/
inductive Party where
  /-- the NIC -/
  | nic
  /-- the controller -/
  | controller
  /-- a working core -/
  | working (w : ℕ)
  /-- an offloading core -/
  | offloading (e : ℕ)
  deriving DecidableEq

/-- Whose step it is. -/
def Act.party {D : Type} : Act D → Party
  | .arrive _ => .nic
  | .epoch _ _ => .controller
  | .work w _ => .working w
  | .offload e _ => .offloading e

end Fajita
