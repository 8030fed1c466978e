import Fajita.Controller
import Fajita.OffloadingCore
import Fajita.Schedule

/-!
# The router as a transition system

The parties are the NIC, the controller, the working cores and the offloading
cores; a step is the arrival of a packet, an epoch of the controller or one task
of a core. Epochs and tasks are atomic here. Every interleaving is a schedule
`List (Act D)`, and the drivers, the solver and the sort answer through the
label.
-/

namespace Fajita

variable {D : Type}

/-- The label of a step. -/
inductive Act (D : Type) where
  /-- the NIC receives a packet -/
  | arrive (p : Packet)
  /-- `update_short_epoch`, with the solver's answer and the sorted flows -/
  | epoch (ans : Option (Answer D)) (vec : ℕ → List FlowKey)
  /-- a task of a working core -/
  | work (w : ℕ) (inp : TaskInput)
  /-- a task of an offloading core -/
  | offload (e accept : ℕ)

/-- The receive queue the NIC puts a packet in. -/
def Sys.rxQueue (cfg : Cfg) (σ : Sys D) (p : Packet) : ℕ := σ.nicReta (p.rss % cfg.retaSize)

/-- The arrival of a packet. -/
def arrive (cfg : Cfg) (p : Packet) (σ : Sys D) : Sys D :=
  { σ with rx := Function.update σ.rx (σ.rxQueue cfg p) (σ.rx (σ.rxQueue cfg p) ++ [p]) }

section

variable [Double D]

/-- The step function. -/
def step (cfg : Cfg) (σ : Sys D) : Act D → Sys D
  | .arrive p => arrive cfg p σ
  | .epoch ans vec => Controller.updateShortEpoch cfg ans vec σ
  | .work w inp => (WorkingCore.runTask cfg w inp σ).1
  | .offload e accept => (OffloadingCore.runTask cfg e accept σ).1

/-- The calls of a step. -/
def taskLog (cfg : Cfg) (σ : Sys D) : Act D → TaskLog
  | .arrive _ => {}
  | .epoch _ _ => {}
  | .work w inp => (WorkingCore.runTask cfg w inp σ).2
  | .offload e accept => (OffloadingCore.runTask cfg e accept σ).2

/-- The labels that are possible in a state: the cores exist, and the flows are
left in an order a sort can leave them in. -/
def Possible (cfg : Cfg) (σ : Sys D) : Act D → Prop
  | .arrive _ => True
  | .epoch _ vec =>
    ∀ s < cfg.totalShards,
      Controller.SortedFlows ((Controller.swapShards cfg σ).shards s) (vec s)
  | .work w _ => w < cfg.W
  | .offload e _ => e < cfg.E

end

/-- The answers the solver is asked for: every shard is assigned to exactly one
working core. -/
def OneHot (cfg : Cfg) (A : ℕ → ℕ → ℕ) : Prop :=
  ∀ s < cfg.totalShards, ∃ w < cfg.W, ∀ v < cfg.totalCores, A s v = if v = w then 1 else 0

/-- The step is not an epoch whose answer fails to be an assignment. -/
def AssignsShards (cfg : Cfg) : Act D → Prop
  | .epoch (some ans) _ => OneHot cfg ans.A
  | _ => True

/-! ## Tests -/

section

variable [Double D]

instance (sh : ShardInfo D) (vec : List FlowKey) : Decidable (Controller.SortedFlows sh vec) :=
  inferInstanceAs (Decidable (_ ∧ _))

instance (cfg : Cfg) (σ : Sys D) : DecidablePred (Possible cfg σ)
  | .arrive _ => inferInstanceAs (Decidable True)
  | .epoch _ _ => inferInstanceAs (Decidable (∀ s < cfg.totalShards, Controller.SortedFlows _ _))
  | .work w _ => inferInstanceAs (Decidable (w < cfg.W))
  | .offload e _ => inferInstanceAs (Decidable (e < cfg.E))

end

instance (cfg : Cfg) (A : ℕ → ℕ → ℕ) : Decidable (OneHot cfg A) :=
  inferInstanceAs (Decidable (∀ s < cfg.totalShards, ∃ w < cfg.W, ∀ v < cfg.totalCores, _))

instance (cfg : Cfg) : DecidablePred (AssignsShards (D := D) cfg)
  | .epoch (some ans) _ => inferInstanceAs (Decidable (OneHot cfg ans.A))
  | .epoch none _ => inferInstanceAs (Decidable True)
  | .arrive _ => inferInstanceAs (Decidable True)
  | .work _ _ => inferInstanceAs (Decidable True)
  | .offload _ _ => inferInstanceAs (Decidable True)

/-! ## A small router -/

namespace Small

/-- Two working cores, two shards and `E` offloading cores. -/
def router (E : Fin 3) : Cfg where
  W := 2
  E := E
  totalShards := 2
  retaSize := 2
  solver := true
  workerSolver := fun _ => true
  burst := fun _ => 32
  coreBurst := fun _ => 32
  outBurst := fun _ => 32
  rteHashCrc := fun _ => 0
  W_pos := by decide
  cores_le := by omega
  totalShards_pos := by decide
  cells_le := by omega
  retaSize_pos := by decide
  retaSize_le := by decide

/-- A regular packet with the given RSS hash; packets with one hash are of one flow. -/
def packet (mbuf rss : ℕ) : Packet := ⟨mbuf, ⟨1, 2, rss, 4⟩, rss, 0, 100⟩

/-- The answer that gives shard `s` to core `f s` with share `r s`, and core `w`
to the offloading core `g w`. -/
def answer (f g : ℕ → ℕ) (r : ℕ → ℚ) : Answer ℚ where
  r := r
  A := fun s w => if w = f s then 1 else 0
  O := fun e w => if w < 2 ∧ e = g w then 1 else 0

/-- A task whose drivers hand out and accept up to `n` buffers a call. -/
def task (n : ℕ) : TaskInput := ⟨[n, n], n, n⟩

end Small

end Fajita
