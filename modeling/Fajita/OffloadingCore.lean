import Fajita.WorkingCore

/-!
# The offloading core

`DyssectOffloadingCore::run_task`: drain the two control rings, then poll one of
the rings in `Q` and push what it holds to the output.
-/

namespace Fajita

variable {D : Type}

namespace OffloadingCore

/-- The two control loops of `run_task`: first `toRemoveQueue`, then `toAddQueue`. -/
def control (e : ℕ) (σ : Sys D) : Sys D :=
  { σ with
    toRemoveQueue := Function.update σ.toRemoveQueue e (σ.toRemoveQueue e).clear
    toAddQueue := Function.update σ.toAddQueue e (σ.toAddQueue e).clear
    posted := Function.update σ.posted e []
    core := Function.update σ.core e
      { σ.core e with
        Q := Request.drain (σ.core e).Q (σ.toRemoveQueue e).items (σ.toAddQueue e).items } }

/-- `choose`: the ring to poll, none if `Q` is empty. -/
def choose (c : OffCore) : Option RingId := c.Q[c.count.toNat % c.Q.length]?

/-- The part of `run_task` after the control loops: poll a ring. -/
def poll (cfg : Cfg) (e accept : ℕ) (σ : Sys D) : Sys D × TaskLog :=
  match choose (σ.core e) with
  | none => (σ, {})
  | some r =>
    let d := (σ.ring r).dequeueBurst (cfg.coreBurst e)
    let σ : Sys D :=
      { σ with
        core := Function.update σ.core e { σ.core e with count := (σ.core e).count + 1 }
        ring := Function.update σ.ring r d.2 }
    (pushBatch cfg (cfg.W + e) accept d.1 σ, ⟨[], d.1, []⟩)

/-- `run_task` -/
def runTask (cfg : Cfg) (e accept : ℕ) (σ : Sys D) : Sys D × TaskLog :=
  poll cfg e accept (control e σ)

end OffloadingCore

end Fajita
