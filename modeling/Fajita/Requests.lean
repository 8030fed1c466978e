import Fajita.System

/-!
# Control requests, access by access

The transfer flags and the signal of the working cores with each `rte_atomic32_read`,
`_set` and `_clear` and each write of `r_new` as a step of its own. The controller
follows `update_short_epoch` from the solver's answer to the signals, a working core the
signal block of `run_task` with its handlers, and the loop of the drained branch that
acquires shards. What the rings hold only decides which branch a core takes, so here the
schedule decides it.

A flag is raised before the signal and cleared at the end of its handler, the signal at
the end of the block. `NotLost` says of a moment at which the controller and a core are
at neither that no request to the core is lost. That holds in every run in which the
controller does not ask a core that has the answer behind it (`Timely`):
`notLost_of_timely`.
-/

namespace Fajita

namespace Requests

/-! ## The state

The two sides meet in the flags and the signal of each core. Every write of one of them is a step,
and so is every test.
-/

/-- The transfer flags of a core, in the order in which the core tests them. -/
inductive Flag where
  /-- `transfer_r` -/
  | r
  /-- `transfer_offloading` -/
  | offloading
  /-- `transfer_shard` -/
  | shard
  deriving DecidableEq

/-- Where the controller is in `update_short_epoch`. -/
inductive Ctrl (D : Type) where
  /-- not between the solver's answer and the last signal -/
  | idle
  /-- in `run_short_solver`, before the write of `r_new` of shard `s` -/
  | answering (ans : Answer D) (s : ℕ)
  /-- in `update_ratio`, at the test of the loop, before shard `s` -/
  | ratio (s : ℕ)
  /-- before the comparison of `r` and `r_new` of shard `s` -/
  | comparing (s : ℕ)
  /-- the two differ: before `transfer_r` of the owner `v` is set -/
  | raising (s v : ℕ)
  /-- in `update_relationship`, before `transfer_offloading` of these cores is set -/
  | relating (ws : List ℕ)
  /-- before `update_shards` -/
  | assigning
  /-- in the first pass of `update_shards`, before `migration_shard` of `todo` -/
  | requesting (todo moves : List (ℕ × ℕ))
  /-- between the two writes of `migration_shard` for shard `s` -/
  | pausing (s : ℕ) (todo moves : List (ℕ × ℕ))
  /-- in the second pass, before `migration_shard` of `todo` -/
  | signalling (todo : List (ℕ × ℕ))
  /-- before `transfer_shard` of the owner `v` is set -/
  | alarming (v : ℕ) (todo : List (ℕ × ℕ))
  /-- before the test of what has changed -/
  | finishing
  /-- before the signal of core `i` is set -/
  | announcing (i : ℕ)

/-- Where a working core is. -/
inductive Pc where
  /-- neither in the signal block nor in the drained branch -/
  | idle
  /-- in the signal block, before the read of a flag -/
  | test (f : Flag)
  /-- in `transfer_r`, before shard `s` -/
  | copying (s : ℕ)
  /-- in `transfer_shard`, before shard `s` -/
  | releasing (s : ℕ)
  /-- at the end of a handler, before its flag is cleared -/
  | clearing (f : Flag)
  /-- at the end of the block, before the signal is cleared -/
  | closing
  /-- in the drained branch, before the first test of shard `s` -/
  | draining (s : ℕ)
  /-- before the second test of shard `s` -/
  | testing (s : ℕ)
  /-- with `owner_new` of shard `s` cleared -/
  | acquiring (s : ℕ)
  deriving DecidableEq

/-- The shared variables and the parties. -/
@[ext] structure State (D : Type) where
  /-- the transfer flags of each core -/
  flag : Flag → ℕ → Bool
  /-- `controller_signal` of each core -/
  signal : ℕ → Bool
  /-- `r` of each shard -/
  r : ℕ → D
  /-- `r_new` of each shard -/
  rNew : ℕ → D
  /-- the `prob2` of the flows in `ordered_flows` of each shard -/
  prob2s : ℕ → List D
  /-- `owner` of each shard -/
  owner : ℕ → ℕ
  /-- `owner_new` of each shard -/
  ownerNew : ℕ → ℕ
  /-- `pause` of each shard -/
  pause : ℕ → Bool
  /-- `A` -/
  A : ℕ → ℕ → ℕ
  /-- `newA` -/
  newA : ℕ → ℕ → ℕ
  /-- `O` -/
  O : ℕ → ℕ → ℕ
  /-- `newO` -/
  newO : ℕ → ℕ → ℕ
  /-- one of the three updates of the epoch has found a change -/
  changed : Bool
  /-- the controller -/
  ctrl : Ctrl D
  /-- the cores -/
  pc : ℕ → Pc

/-- The state after `configure` of the controller and of the cores. -/
def start (D : Type) [Double D] (cfg : Cfg) : State D where
  flag := fun _ _ => false
  signal := fun _ => false
  r := fun _ => 0
  rNew := fun _ => 0
  prob2s := fun _ => []
  owner := fun s => s % cfg.W
  ownerNew := fun _ => 0
  pause := fun _ => false
  A := Init.A cfg
  newA := Init.A cfg
  O := Init.O cfg
  newO := Init.O cfg
  changed := false
  ctrl := .idle
  pc := fun _ => .idle

namespace State

variable {D : Type} (f : Flag) (v s : ℕ) (b : Bool) (l : Pc) (c : Ctrl D) (st : State D)

/-- The core goes on at `l`. -/
def goto : State D := { st with pc := Function.update st.pc v l }

/-- The controller goes on at `c`. -/
def goOn : State D := { st with ctrl := c }

/-- A transfer flag becomes `b`. -/
def setFlag : State D :=
  { st with flag := Function.update st.flag f (Function.update (st.flag f) v b) }

/-- `controller_signal` becomes `b`. -/
def setSignal : State D := { st with signal := Function.update st.signal v b }

@[simp] theorem setFlag_flag (f' : Flag) (v' : ℕ) : (st.setFlag f v b).flag f' v' =
    if f' = f ∧ v' = v then b else st.flag f' v' := by
  by_cases hf : f' = f
  · subst hf
    simp [setFlag, Function.update_apply]
  · simp [setFlag, hf]

@[simp] theorem setSignal_signal (v' : ℕ) : (st.setSignal v b).signal v' =
    if v' = v then b else st.signal v' := Function.update_apply ..

@[simp] theorem goto_pc (v' : ℕ) : (st.goto v l).pc v' = if v' = v then l else st.pc v' :=
  Function.update_apply ..

end State

/-! ## The controller -/

section

variable {D : Type}

/-- `r_new` of a shard whose `ordered_flows` have the shares `ps`, after the walk of
`update_ratio`. -/
def snapped [Double D] (ps : List D) (x : D) : D :=
  if !isEqualThan x 0 then Controller.snapRatio x 0 ps else x

/-- The cores that `update_relationship` asks, in the order of its loops. Nothing
writes `offloading_from_working` after `configure`. -/
def asked (cfg : Cfg) (O newO : ℕ → ℕ → ℕ) : List ℕ :=
  (List.range cfg.totalCores).flatMap fun w => (List.range cfg.totalCores).filterMap fun e =>
    if O e w = 0 ∧ newO e w = 1 ∧ Init.offloadingFromWorking cfg w ≠ uint32Max ∧
        Init.offloadingFromWorking cfg w ≠ e then some w
    else none

/-- The new entries of the assignment, in the order of the loops of `update_shards`. -/
def moves (cfg : Cfg) (A newA : ℕ → ℕ → ℕ) : List (ℕ × ℕ) :=
  (List.range cfg.totalShards).flatMap fun s => (List.range cfg.totalCores).filterMap fun w =>
    if newA s w = 1 ∧ A s w = 0 then some (s, w) else none

/-- The beginning of `update_relationship`. Only the controller reads `O`, so the copy
at its end is made here. -/
def relate (cfg : Cfg) (st : State D) : State D :=
  if ∀ e < cfg.totalCores, ∀ w < cfg.totalCores, st.newO e w = st.O e w then st.goOn .assigning
  else
    { st with
      O := st.newO
      changed := true
      ctrl := .relating (asked cfg st.O st.newO) }

/-- The beginning of `update_shards`. -/
def assign (cfg : Cfg) (st : State D) : State D :=
  if ∀ s < cfg.totalShards, ∀ w < cfg.totalCores, st.A s w = st.newA s w then st.goOn .finishing
  else
    { st with
      A := st.newA
      changed := true
      ctrl := .requesting (moves cfg st.A st.newA) (moves cfg st.A st.newA) }

/-- A step of the controller. -/
def control [Double D] (cfg : Cfg) (st : State D) : State D :=
  match st.ctrl with
  | .idle => st
  | .answering ans s =>
    if s < cfg.totalShards then
      { st with rNew := Function.update st.rNew s (ans.r s), ctrl := .answering ans (s + 1) }
    else { st with newA := ans.A, newO := ans.O, ctrl := .ratio 0 }
  | .ratio s =>
    if s < cfg.totalShards then
      { st with
        rNew := Function.update st.rNew s (snapped (st.prob2s s) (st.rNew s))
        ctrl := .comparing s }
    else relate cfg st
  | .comparing s =>
    if !isEqualThan (st.r s) (st.rNew s) then
      { st with changed := true, ctrl := .raising s (st.owner s) }
    else st.goOn (.ratio (s + 1))
  | .raising s v => (st.setFlag .r v true).goOn (.ratio (s + 1))
  | .relating [] => st.goOn .assigning
  | .relating (w :: ws) => (st.setFlag .offloading w true).goOn (.relating ws)
  | .assigning => assign cfg st
  | .requesting [] moves => st.goOn (.signalling moves)
  | .requesting ((s, w) :: todo) moves =>
    if st.owner s = w then st.goOn (.requesting todo moves)
    else
      { st with ownerNew := Function.update st.ownerNew s w, ctrl := .pausing s todo moves }
  | .pausing s todo moves =>
    { st with pause := Function.update st.pause s true, ctrl := .requesting todo moves }
  | .signalling [] => st.goOn .finishing
  | .signalling ((s, w) :: todo) =>
    if st.owner s = w then st.goOn (.signalling todo)
    else st.goOn (.alarming (st.owner s) todo)
  | .alarming v todo => (st.setFlag .shard v true).goOn (.signalling todo)
  | .finishing => st.goOn (if st.changed then .announcing 0 else .idle)
  | .announcing i =>
    if i < cfg.W then (st.setSignal i true).goOn (.announcing (i + 1)) else st.goOn .idle

/-! ## The working cores -/

/-- Where a core goes on after a flag. -/
def after : Flag → Pc
  | .r => .test .offloading
  | .offloading => .test .shard
  | .shard => .closing

/-- The handler of a flag. `transfer_shard` gives no shards away if packets were
`found`. -/
def handler (found : Bool) : Flag → Pc
  | .r => .copying 0
  | .offloading => .clearing .offloading
  | .shard => if found then .clearing .shard else .releasing 0

/-- A step of core `v` in its signal block or in the drained branch. -/
def go (cfg : Cfg) (v : ℕ) (found : Bool) (st : State D) : State D :=
  match st.pc v with
  | .idle => st
  | .test f => st.goto v (if st.flag f v then handler found f else after f)
  | .copying s =>
    if s < cfg.totalShards then
      { st.goto v (.copying (s + 1)) with
        r := if st.owner s = v then Function.update st.r s (st.rNew s) else st.r }
    else st.goto v (.clearing .r)
  | .releasing s =>
    if s < cfg.totalShards then
      { st.goto v (.releasing (s + 1)) with
        pause := if st.owner s = v ∧ st.ownerNew s ≠ uint32Max then
            Function.update st.pause s false else st.pause }
    else st.goto v (.clearing .shard)
  | .clearing f => (st.setFlag f v false).goto v (after f)
  | .closing => (st.setSignal v false).goto v .idle
  | .draining s =>
    if s < cfg.totalShards then
      { st.goto v (.testing s) with
        pause := if st.pause s = true ∧ st.owner s = v ∧ st.ownerNew s ≠ uint32Max then
            Function.update st.pause s false else st.pause }
    else st.goto v .idle
  | .testing s =>
    if st.pause s = false ∧ st.ownerNew s = v then
      { st.goto v (.acquiring s) with ownerNew := Function.update st.ownerNew s uint32Max }
    else st.goto v (.draining (s + 1))
  | .acquiring s => { st.goto v (.draining (s + 1)) with owner := Function.update st.owner s v }

/-! ## The steps -/

/-- The label of a step. -/
inductive Act (D : Type) where
  /-- the solver answers; `prob2s` are the shares of the sorted flows -/
  | epoch (ans : Answer D) (prob2s : ℕ → List D)
  /-- the controller goes on -/
  | ctrl
  /-- core `v` reads its signal -/
  | serve (v : ℕ)
  /-- core `v` finds its own ring empty -/
  | drain (v : ℕ)
  /-- core `v` goes on; `found`: `transfer_shard` finds packets -/
  | go (v : ℕ) (found : Bool)

/-- The step function. An epoch begins and a core starts a task when the one before is
over. -/
def step [Double D] (cfg : Cfg) (st : State D) : Act D → State D
  | .epoch ans prob2s =>
    match st.ctrl with
    | .idle => { st with prob2s := prob2s, changed := false, ctrl := .answering ans 0 }
    | _ => st
  | .ctrl => control cfg st
  | .serve v => if st.pc v = .idle ∧ st.signal v = true then st.goto v (.test .r) else st
  | .drain v => if st.pc v = .idle then st.goto v (.draining 0) else st
  | .go v found => go cfg v found st

end

/-! ## Lost and timely requests

A request is lost if the controller raises a flag when the core has tested it already, and the
signal goes down afterwards. The steps that can do this are named here, by what the core has behind
it.
-/

/-- The core is in the signal block of `run_task`. -/
def Pc.InBlock : Pc → Prop
  | .test _ | .copying _ | .releasing _ | .clearing _ | .closing => True
  | _ => False

/-- How many flags the core has tested, counting one it is serving only when its
handler is over. -/
def Pc.passed : Pc → ℕ
  | .test .offloading | .clearing .offloading => 1
  | .test .shard | .releasing _ | .clearing .shard => 2
  | .closing => 3
  | _ => 0

/-- The place of a flag in the order of the tests. -/
def Flag.place : Flag → ℕ
  | .r => 0
  | .offloading => 1
  | .shard => 2

/-- The core has the test of the flag, and its handler, behind it in this block. -/
def Pc.Passed (f : Flag) (l : Pc) : Prop := f.place < l.passed

instance (f : Flag) (l : Pc) : Decidable (l.Passed f) :=
  inferInstanceAs (Decidable (f.place < l.passed))

/-- The core is in `transfer_r` with shard `s` behind it. -/
def Pc.Copied (s : ℕ) : Pc → Prop
  | .copying i => s < i
  | .clearing .r => True
  | _ => False

/-- The controller is still going to compare `r` and `r_new` of shard `s`. -/
def Ctrl.Ahead {D : Type} (s : ℕ) : Ctrl D → Prop
  | .answering _ _ => True
  | .ratio s' | .comparing s' => s' ≤ s
  | .raising s' _ => s' < s
  | _ => False

section

variable {D : Type} [Double D]

/-- `is_equal_than(r, r_new)` of shard `s`. -/
def Agree (s : ℕ) (st : State D) : Prop := isEqualThan (st.r s) (st.rNew s) = true

/-- No request to core `w` is lost. -/
structure NotLost (cfg : Cfg) (w : ℕ) (st : State D) : Prop where
  /-- a flag comes with the signal -/
  signal : ∀ f, st.flag f w = true → st.signal w = true
  /-- without `transfer_r` there is nothing to take over -/
  ratio : st.flag .r w = false → ∀ s < cfg.totalShards, st.owner s = w → Agree s st

/-- The step is in time. The controller neither asks a core in `transfer_r` to take
over the ratio of a shard it has behind it, nor sets the signal of a core that has a set
flag behind it in its signal block. A ratio that is taken over is a number, and a core
that acquires a shard finds its ratio in order, or is or will be asked to take it over. -/
def Timely (cfg : Cfg) (st : State D) : Act D → Prop
  | .ctrl =>
    match st.ctrl with
    | .comparing s => ¬ Agree s st → ¬ (st.pc (st.owner s)).Copied s
    | .announcing i => i < cfg.W → ∀ f, (st.pc i).Passed f → st.flag f i = false
    | _ => True
  | .go v _ =>
    match st.pc v with
    | .copying s => st.owner s = v → isEqualThan (st.rNew s) (st.rNew s) = true
    | .acquiring s => st.flag .r v = true ∨ Agree s st ∨ st.ctrl.Ahead s ∨ st.ctrl = .raising s v
    | _ => True
  | _ => True

end

/-! ## The invariant

A flag that is up comes with a signal that is up, or is going to be: as long as the controller is in
its update, it owes the signal.
-/

/-- The controller has found a change, and is still going to set the signal of core `w`. -/
def Owed {D : Type} (w : ℕ) (st : State D) : Prop :=
  match st.ctrl with
  | .idle => False
  | .announcing i => i ≤ w
  | _ => st.changed = true

/-- The controller has found a change in the update it is in. -/
def Ctrl.Asking {D : Type} : Ctrl D → Prop
  | .raising _ _ | .relating _ | .requesting _ _ | .pausing _ _ _ | .signalling _
  | .alarming _ _ => True
  | _ => False

section

variable {D : Type} [Double D] {cfg : Cfg} {st : State D}

/-- **The invariant.** -/
structure Inv (cfg : Cfg) (st : State D) : Prop where
  /-- a set flag comes with the signal, now or later in the epoch -/
  raised : ∀ w < cfg.W, ∀ f, st.flag f w = true → st.signal w = true ∨ Owed w st
  /-- if the core has the flag behind it, the signal is still to come -/
  passed : ∀ w < cfg.W, ∀ f, (st.pc w).Passed f → st.flag f w = true → Owed w st
  /-- the controller asks because of a change -/
  changed : st.ctrl.Asking → st.changed = true
  /-- the owner of a shard whose ratio is not in order is or will be asked -/
  ratio : ∀ s < cfg.totalShards, st.flag .r (st.owner s) = true ∨ Agree s st ∨
    st.ctrl.Ahead s ∨ st.ctrl = .raising s (st.owner s)
  /-- the ratios a core in `transfer_r` has behind it are in order, or will be compared -/
  copied : ∀ s < cfg.totalShards, (st.pc (st.owner s)).Copied s → Agree s st ∨ st.ctrl.Ahead s

namespace Inv

/-- The controller goes on without setting a flag or a signal or writing `r_new`. -/
theorem advance (h : Inv cfg st) {st' : State D} (hflag : st'.flag = st.flag)
    (hsignal : st'.signal = st.signal) (hpc : st'.pc = st.pc) (howner : st'.owner = st.owner)
    (hr : st'.r = st.r) (hrNew : st'.rNew = st.rNew)
    (howed : ∀ w < cfg.W, Owed w st → Owed w st')
    (hchanged : st'.ctrl.Asking → st'.changed = true)
    (hahead : ∀ s < cfg.totalShards, st.ctrl.Ahead s ∨ st.ctrl = .raising s (st.owner s) →
      Agree s st ∨ st'.ctrl.Ahead s ∨
        st'.ctrl = .raising s (st.owner s) ∧ ¬ (st.pc (st.owner s)).Copied s) :
    Inv cfg st' := by
  have hagree : ∀ s, Agree s st → Agree s st' := fun s hs => by
    rw [Agree, hr, hrNew]
    exact hs
  refine ⟨fun w hw f hf => ?_, fun w hw f hp hf => ?_, hchanged, fun s hs => ?_, fun s hs hc => ?_⟩
  · rw [hflag] at hf
    rw [hsignal]
    exact (h.raised w hw f hf).imp_right (howed w hw)
  · rw [hpc] at hp
    rw [hflag] at hf
    exact howed w hw (h.passed w hw f hp hf)
  · rw [hflag, howner]
    rcases h.ratio s hs with hf | ha | hahead'
    · exact Or.inl hf
    · exact Or.inr (Or.inl (hagree s ha))
    · rcases hahead s hs hahead' with ha | ha | ha
      · exact Or.inr (Or.inl (hagree s ha))
      · exact Or.inr (Or.inr (Or.inl ha))
      · exact Or.inr (Or.inr (Or.inr ha.1))
  · rw [hpc, howner] at hc
    rcases h.copied s hs hc with ha | ha
    · exact Or.inl (hagree s ha)
    · -- a core that has the shard behind it is not the one about to be asked
      rcases hahead s hs (Or.inl ha) with ha | ha | ha
      · exact Or.inl (hagree s ha)
      · exact Or.inr ha
      · exact absurd hc ha.2

/-- The controller writes `r_new` of a shard it is going to compare. -/
theorem answer (h : Inv cfg st) {s : ℕ} {x : D} {c : Ctrl D}
    (hasking : ¬ c.Asking) (howed : ∀ w < cfg.W, Owed w st → st.changed = true)
    (hc : ∀ w, Owed w (st.goOn c) ↔ st.changed = true)
    (hahead : ∀ s' < cfg.totalShards, st.ctrl.Ahead s' ∨ st.ctrl = .raising s' (st.owner s') →
      c.Ahead s') (hs : c.Ahead s) :
    Inv cfg { st with rNew := Function.update st.rNew s x, ctrl := c } := by
  have hagree : ∀ s', Agree s' st → c.Ahead s' ∨
      Agree s' { st with rNew := Function.update st.rNew s x, ctrl := c } := by
    intro s' ha
    -- only shard `s` has another `r_new`, and it is still to be compared
    by_cases heq : s' = s
    · exact Or.inl (heq ▸ hs)
    · have hkept : Function.update st.rNew s x s' = st.rNew s' := Function.update_of_ne heq ..
      unfold Agree at ha ⊢
      dsimp only
      rw [hkept]
      exact Or.inr ha
  refine ⟨fun w hw f hf => ?_, fun w hw f hp hf => ?_, fun ha => absurd ha hasking,
    fun s' hs' => ?_, fun s' hs' hc' => ?_⟩
  · exact (h.raised w hw f hf).imp_right fun ho => (hc w).mpr (howed w hw ho)
  · exact (hc w).mpr (howed w hw (h.passed w hw f hp hf))
  · rcases h.ratio s' hs' with hf | ha | ha
    · exact Or.inl hf
    · exact Or.inr ((hagree s' ha).elim (fun ha => Or.inr (Or.inl ha)) Or.inl)
    · exact Or.inr (Or.inr (Or.inl (hahead s' hs' ha)))
  · rcases h.copied s' hs' hc' with ha | ha
    · exact (hagree s' ha).symm
    · exact Or.inr (hahead s' hs' (Or.inl ha))

/-- The controller sets a flag. -/
theorem raise (h : Inv cfg st) {f : Flag} {v : ℕ} {c : Ctrl D} (hchanged : st.changed = true)
    (hc : ∀ w, Owed w (st.goOn c) ↔ st.changed = true)
    (hahead : ∀ s < cfg.totalShards, st.ctrl.Ahead s → c.Ahead s)
    (hraising : ∀ s < cfg.totalShards, st.ctrl = .raising s (st.owner s) →
      f = .r ∧ v = st.owner s) :
    Inv cfg ((st.setFlag f v true).goOn c) := by
  have howed : ∀ w, Owed w ((st.setFlag f v true).goOn c) := fun w => (hc w).mpr hchanged
  refine ⟨fun w _ _ _ => Or.inr (howed w), fun w _ _ _ _ => howed w, fun _ => hchanged,
    fun s hs => ?_, fun s hs hcopied => ?_⟩
  · have hflag : st.flag .r (st.owner s) = true →
        (st.setFlag f v true).flag .r (st.owner s) = true := fun hf => by
      rw [State.setFlag_flag]
      split
      · rfl
      · exact hf
    rcases h.ratio s hs with hf | ha | ha | ha
    · exact Or.inl (hflag hf)
    · exact Or.inr (Or.inl ha)
    · exact Or.inr (Or.inr (Or.inl (hahead s hs ha)))
    · -- the flag is the one the shard was waiting for
      obtain ⟨rfl, rfl⟩ := hraising s hs ha
      have hset : (st.setFlag .r (st.owner s) true).flag .r (st.owner s) = true := by simp
      exact Or.inl hset
  · exact (h.copied s hs hcopied).imp_right (hahead s hs)

/-- A core goes on, and sets neither a flag nor a signal nor an owner. -/
theorem move (h : Inv cfg st) {st' : State D} {v : ℕ} {l : Pc} (hflag : st'.flag = st.flag)
    (hsignal : st'.signal = st.signal) (howner : st'.owner = st.owner)
    (hctrl : st'.ctrl = st.ctrl) (hchanged : st'.changed = st.changed)
    (hpc : st'.pc = Function.update st.pc v l)
    (hagree : ∀ s < cfg.totalShards, Agree s st → Agree s st')
    (hpassed : ∀ f, l.Passed f → st.flag f v = true → (st.pc v).Passed f)
    (hcopied : ∀ s < cfg.totalShards, st.owner s = v → l.Copied s →
      (st.pc v).Copied s ∨ Agree s st') : Inv cfg st' := by
  have howed : ∀ w, Owed w st → Owed w st' := fun w ho => by
    rw [Owed, hctrl, hchanged]
    exact ho
  refine ⟨fun w hw f hf => ?_, fun w hw f hp hf => ?_, ?_, fun s hs => ?_, fun s hs hc => ?_⟩
  · rw [hflag] at hf
    rw [hsignal]
    exact (h.raised w hw f hf).imp_right (howed w)
  · rw [hflag] at hf
    rw [hpc] at hp
    refine howed w (h.passed w hw f ?_ hf)
    by_cases hwv : w = v
    · subst hwv
      rw [Function.update_self] at hp
      exact hpassed f hp hf
    · rw [Function.update_of_ne hwv] at hp
      exact hp
  · rw [hctrl, hchanged]
    exact h.changed
  · rw [hflag, howner, hctrl]
    exact (h.ratio s hs).imp_right (Or.imp_left (hagree s hs))
  · rw [hpc, howner] at hc
    rw [hctrl]
    -- only for shards of core `v` itself is another shard behind the owner
    by_cases hv : st.owner s = v
    · rw [hv, Function.update_self] at hc
      rcases hcopied s hs hv hc with hc | ha
      · exact (h.copied s hs (by rw [hv]; exact hc)).imp_left (hagree s hs)
      · exact Or.inl ha
    · rw [Function.update_of_ne hv] at hc
      exact (h.copied s hs hc).imp_left (hagree s hs)

/-- A core clears the flag whose handler is over. -/
theorem clear (h : Inv cfg st) {v : ℕ} {f : Flag} (hpc : st.pc v = .clearing f) :
    Inv cfg ((st.setFlag f v false).goto v (after f)) := by
  have hflag : ∀ f' w, (st.setFlag f v false).flag f' w = true →
      st.flag f' w = true ∧ ¬ (f' = f ∧ w = v) := fun f' w hf => by
    rw [State.setFlag_flag] at hf
    split at hf
    · cases hf
    · next hne => exact ⟨hf, hne⟩
  refine ⟨fun w hw f' hf => h.raised w hw f' (hflag f' w hf).1, fun w hw f' hp hf => ?_,
    h.changed, fun s hs => ?_, fun s hs hc => ?_⟩
  · obtain ⟨hf, hne⟩ := hflag f' w hf
    refine h.passed w hw f' ?_ hf
    rw [State.goto_pc] at hp
    split at hp
    · next hwv =>
      have hff : f' ≠ f := fun heq => hne ⟨heq, hwv⟩
      rw [hwv, hpc]
      revert hp hff
      cases f <;> cases f' <;> simp [Pc.Passed, Pc.passed, Flag.place, after]
    · exact hp
  · have hset : ((st.setFlag f v false).goto v (after f)).flag .r (st.owner s) =
        (st.setFlag f v false).flag .r (st.owner s) := rfl
    rw [State.setFlag_flag] at hset
    split at hset
    · next hr =>
      -- `transfer_r` is over, so the core has all its shards behind it
      rcases h.copied s hs (by rw [hr.2, hpc, ← hr.1]; trivial) with ha | ha
      · exact Or.inr (Or.inl ha)
      · exact Or.inr (Or.inr (Or.inl ha))
    · exact (h.ratio s hs).imp_left hset.trans
  · refine h.copied s hs ?_
    rw [State.goto_pc] at hc
    split at hc
    · revert hc
      cases f <;> exact False.elim
    · exact hc

/-- A core clears its signal at the end of the block. -/
theorem close (h : Inv cfg st) {v : ℕ} (hpc : st.pc v = .closing) :
    Inv cfg ((st.setSignal v false).goto v .idle) := by
  refine ⟨fun w hw f hf => ?_, fun w hw f hp hf => ?_, h.changed, h.ratio, fun s hs hc => ?_⟩
  · by_cases hwv : w = v
    · -- at the end of the block all flags are behind the core
      refine Or.inr (h.passed w hw f ?_ hf)
      rw [hwv, hpc]
      cases f <;> exact (by decide)
    · have hsignal : ((st.setSignal v false).goto v .idle).signal w = st.signal w :=
        (State.setSignal_signal ..).trans (if_neg hwv)
      rw [hsignal]
      exact h.raised w hw f hf
  · refine h.passed w hw f ?_ hf
    rw [State.goto_pc] at hp
    split at hp
    · exact absurd hp (Nat.not_lt_zero _)
    · exact hp
  · refine h.copied s hs ?_
    rw [State.goto_pc] at hc
    split at hc
    · exact hc.elim
    · exact hc

/-- A core becomes the owner of a shard. -/
theorem acquire (h : Inv cfg st) {v s : ℕ} (hs : st.flag .r v = true ∨ Agree s st ∨
    st.ctrl.Ahead s ∨ st.ctrl = .raising s v) :
    Inv cfg { st.goto v (.draining (s + 1)) with owner := Function.update st.owner s v } := by
  refine ⟨h.raised, fun w hw f hp hf => ?_, h.changed, fun s' hs' => ?_, fun s' hs' hc => ?_⟩
  · refine h.passed w hw f ?_ hf
    have hp : ((st.goto v (.draining (s + 1))).pc w).Passed f := hp
    rw [State.goto_pc] at hp
    split at hp
    · exact absurd hp (Nat.not_lt_zero _)
    · exact hp
  · by_cases heq : s' = s
    · subst heq
      dsimp only
      rw [Function.update_self]
      exact hs
    · dsimp only
      rw [Function.update_of_ne heq]
      exact h.ratio s' hs'
  · have hc : ((st.goto v (.draining (s + 1))).pc (Function.update st.owner s v s')).Copied s' := hc
    rw [State.goto_pc] at hc
    split at hc
    · exact hc.elim
    · next hne =>
      refine h.copied s' hs' ?_
      by_cases heq : s' = s
      · subst heq
        exact absurd (Function.update_self ..) hne
      · rw [Function.update_of_ne heq] at hc
        exact hc

/-- The controller sets the signal of a core. -/
theorem announce (h : Inv cfg st) {i : ℕ} (hctrl : st.ctrl = .announcing i)
    (htimely : ∀ f, (st.pc i).Passed f → st.flag f i = false) :
    Inv cfg ((st.setSignal i true).goOn (.announcing (i + 1))) := by
  have howed : ∀ w, Owed w st → w ≠ i →
      Owed w ((st.setSignal i true).goOn (.announcing (i + 1))) := fun w ho hne => by
    rw [Owed, hctrl] at ho
    have hle : i ≤ w := ho
    exact show i + 1 ≤ w by omega
  refine ⟨fun w hw f hf => ?_, fun w hw f hp hf => ?_, False.elim, fun s hs => ?_,
    fun s hs hc => ?_⟩
  · by_cases hwi : w = i
    · refine Or.inl ((State.setSignal_signal ..).trans (if_pos hwi))
    · have hsignal : ((st.setSignal i true).goOn (.announcing (i + 1))).signal w = st.signal w :=
        (State.setSignal_signal ..).trans (if_neg hwi)
      rw [hsignal]
      exact (h.raised w hw f hf).imp_right fun ho => howed w ho hwi
  · by_cases hwi : w = i
    · -- `Timely`: no set flag is behind the core whose signal is set
      subst hwi
      have hclear : st.flag f w = false := htimely f hp
      have hset : st.flag f w = true := hf
      rw [hclear] at hset
      cases hset
    · exact howed w (h.passed w hw f hp hf) hwi
  · have hratio := h.ratio s hs
    rw [hctrl] at hratio
    rcases hratio with hf | ha | ha | ha
    · exact Or.inl hf
    · exact Or.inr (Or.inl ha)
    · exact ha.elim
    · cases ha
  · have hcopied := h.copied s hs hc
    rw [hctrl] at hcopied
    exact hcopied.imp_right False.elim

/-- After `update_ratio`, the controller goes on without setting a flag or a signal. -/
theorem later (h : Inv cfg st) {st' : State D}
    (hlate : ∀ s < cfg.totalShards, ¬ (st.ctrl.Ahead s ∨ st.ctrl = .raising s (st.owner s)))
    (hflag : st'.flag = st.flag) (hsignal : st'.signal = st.signal) (hpc : st'.pc = st.pc)
    (howner : st'.owner = st.owner) (hr : st'.r = st.r) (hrNew : st'.rNew = st.rNew)
    (howed : ∀ w < cfg.W, Owed w st → Owed w st')
    (hchanged : st'.ctrl.Asking → st'.changed = true) : Inv cfg st' :=
  h.advance hflag hsignal hpc howner hr hrNew howed hchanged
    fun s hs ha => absurd ha (hlate s hs)

theorem relate (h : Inv cfg st) (howed : ∀ w, Owed w st ↔ st.changed = true)
    (hlate : ∀ s < cfg.totalShards, ¬ (st.ctrl.Ahead s ∨ st.ctrl = .raising s (st.owner s))) :
    Inv cfg (relate cfg st) := by
  simp only [Requests.relate]
  split
  · exact h.later hlate rfl rfl rfl rfl rfl rfl (fun w _ => (howed w).mp) False.elim
  · exact h.later hlate rfl rfl rfl rfl rfl rfl (fun _ _ _ => rfl) fun _ => rfl

theorem assign (h : Inv cfg st) (howed : ∀ w, Owed w st ↔ st.changed = true)
    (hlate : ∀ s < cfg.totalShards, ¬ (st.ctrl.Ahead s ∨ st.ctrl = .raising s (st.owner s))) :
    Inv cfg (assign cfg st) := by
  simp only [Requests.assign]
  split
  · exact h.later hlate rfl rfl rfl rfl rfl rfl (fun w _ => (howed w).mp) False.elim
  · exact h.later hlate rfl rfl rfl rfl rfl rfl (fun _ _ _ => rfl) fun _ => rfl

/-- In `run_short_solver`. -/
theorem answering (h : Inv cfg st) {ans : Answer D} {s : ℕ} (hctrl : st.ctrl = .answering ans s) :
    Inv cfg (control cfg st) := by
  have howed : ∀ w, Owed w st ↔ st.changed = true := fun w => by rw [Owed, hctrl]
  simp only [Requests.control, hctrl]
  split
  · exact h.answer id (fun w _ => (howed w).mp) (fun _ => Iff.rfl) (fun _ _ _ => trivial) trivial
  · -- every shard is still to be compared
    exact h.advance rfl rfl rfl rfl rfl rfl (fun w _ => (howed w).mp) False.elim
      fun s' _ _ => Or.inr (Or.inl (Nat.zero_le s'))

/-- At the loop test of `update_ratio`. -/
theorem snapping (h : Inv cfg st) {s : ℕ} (hctrl : st.ctrl = .ratio s) :
    Inv cfg (control cfg st) := by
  have howed : ∀ w, Owed w st ↔ st.changed = true := fun w => by rw [Owed, hctrl]
  simp only [Requests.control, hctrl]
  split
  · refine h.answer id (fun w _ => (howed w).mp) (fun _ => Iff.rfl) (fun s' _ ha => ?_)
      (Nat.le_refl s)
    rw [hctrl] at ha
    exact ha.elim id nofun
  · next hs =>
    refine h.relate howed fun s' hs' ha => ?_
    rw [hctrl] at ha
    rcases ha with ha | ha
    · exact hs (Nat.lt_of_le_of_lt ha hs')
    · cases ha

/-- At the comparison of `update_ratio`. -/
theorem comparing (h : Inv cfg st) {s : ℕ} (hctrl : st.ctrl = .comparing s)
    (htimely : ¬ Agree s st → ¬ (st.pc (st.owner s)).Copied s) : Inv cfg (control cfg st) := by
  have howed : ∀ w, Owed w st ↔ st.changed = true := fun w => by rw [Owed, hctrl]
  simp only [Requests.control, hctrl]
  split
  · next hne =>
    have hne : ¬ Agree s st := by simpa [Agree] using hne
    refine h.advance rfl rfl rfl rfl rfl rfl (fun _ _ _ => rfl) (fun _ => rfl) fun s' _ ha => ?_
    rw [hctrl] at ha
    -- shard `s` is taken over by nobody yet, the later ones are still to be compared
    rcases Nat.eq_or_lt_of_le (ha.elim id nofun) with rfl | hlt
    · exact Or.inr (Or.inr ⟨rfl, htimely hne⟩)
    · exact Or.inr (Or.inl hlt)
  · next heq =>
    have heq : Agree s st := by simpa [Agree] using heq
    refine h.advance rfl rfl rfl rfl rfl rfl (fun w _ => (howed w).mp) False.elim
      fun s' _ ha => ?_
    rw [hctrl] at ha
    rcases Nat.eq_or_lt_of_le (ha.elim id nofun) with rfl | hlt
    · exact Or.inl heq
    · exact Or.inr (Or.inl hlt)

/-- In `update_relationship`. -/
theorem relating (h : Inv cfg st) {ws : List ℕ} (hctrl : st.ctrl = .relating ws) :
    Inv cfg (control cfg st) := by
  have hchanged : st.changed = true := h.changed (by rw [hctrl]; trivial)
  simp only [Requests.control, hctrl]
  cases ws with
  | nil =>
    exact h.later (by simp [hctrl, Ctrl.Ahead]) rfl rfl rfl rfl rfl rfl (fun _ _ _ => hchanged)
      False.elim
  | cons w ws =>
    exact h.raise hchanged (fun _ => Iff.rfl) (by simp [hctrl, Ctrl.Ahead]) (by simp [hctrl])

/-- In the first pass of `update_shards`. -/
theorem requesting (h : Inv cfg st) {todo moves : List (ℕ × ℕ)}
    (hctrl : st.ctrl = .requesting todo moves) : Inv cfg (control cfg st) := by
  have hchanged : st.changed = true := h.changed (by rw [hctrl]; trivial)
  have hlate : ∀ s < cfg.totalShards,
      ¬ (st.ctrl.Ahead s ∨ st.ctrl = .raising s (st.owner s)) := by simp [hctrl, Ctrl.Ahead]
  simp only [Requests.control, hctrl]
  cases todo with
  | nil => exact h.later hlate rfl rfl rfl rfl rfl rfl (fun _ _ _ => hchanged) fun _ => hchanged
  | cons m todo =>
    dsimp only
    split
    · exact h.later hlate rfl rfl rfl rfl rfl rfl (fun _ _ _ => hchanged) fun _ => hchanged
    · exact h.later hlate rfl rfl rfl rfl rfl rfl (fun _ _ _ => hchanged) fun _ => hchanged

/-- In the second pass of `update_shards`. -/
theorem signalling (h : Inv cfg st) {todo : List (ℕ × ℕ)} (hctrl : st.ctrl = .signalling todo) :
    Inv cfg (control cfg st) := by
  have hchanged : st.changed = true := h.changed (by rw [hctrl]; trivial)
  have hlate : ∀ s < cfg.totalShards,
      ¬ (st.ctrl.Ahead s ∨ st.ctrl = .raising s (st.owner s)) := by simp [hctrl, Ctrl.Ahead]
  simp only [Requests.control, hctrl]
  cases todo with
  | nil => exact h.later hlate rfl rfl rfl rfl rfl rfl (fun _ _ _ => hchanged) False.elim
  | cons m todo =>
    dsimp only
    split
    · exact h.later hlate rfl rfl rfl rfl rfl rfl (fun _ _ _ => hchanged) fun _ => hchanged
    · exact h.later hlate rfl rfl rfl rfl rfl rfl (fun _ _ _ => hchanged) fun _ => hchanged

/-- At the test of what has changed. -/
theorem finishing (h : Inv cfg st) (hctrl : st.ctrl = .finishing) : Inv cfg (control cfg st) := by
  simp only [Requests.control, hctrl]
  refine h.later (by simp [hctrl, Ctrl.Ahead]) rfl rfl rfl rfl rfl rfl (fun w _ ho => ?_)
    fun ha => ?_
  · rw [Owed, hctrl] at ho
    simp [Owed, State.goOn, show st.changed = true from ho]
  · revert ha
    dsimp only [State.goOn]
    split <;> exact False.elim

/-- **The controller.** -/
theorem control (h : Inv cfg st) (htimely : Timely cfg st .ctrl) : Inv cfg (control cfg st) := by
  cases hctrl : st.ctrl with
  | idle =>
    rw [Requests.control, hctrl]
    exact h
  | answering ans s => exact h.answering hctrl
  | ratio s => exact h.snapping hctrl
  | comparing s =>
    simp only [Timely, hctrl] at htimely
    exact h.comparing hctrl htimely
  | raising s v =>
    rw [Requests.control, hctrl]
    refine h.raise (h.changed (by rw [hctrl]; trivial)) (fun _ => Iff.rfl) (fun s' _ ha => ?_)
      fun s' _ hs' => ?_
    · rw [hctrl] at ha
      exact ha
    · rw [hctrl] at hs'
      injection hs' with _ hv
      exact ⟨rfl, hv⟩
  | relating ws => exact h.relating hctrl
  | assigning =>
    rw [Requests.control, hctrl]
    exact h.assign (fun w => by rw [Owed, hctrl]) (by simp [hctrl, Ctrl.Ahead])
  | requesting todo moves => exact h.requesting hctrl
  -- a pause is a step of a migration, which sets `changed` beforehand
  | pausing s todo moves =>
    have hchanged : st.changed = true := h.changed (by rw [hctrl]; trivial)
    rw [Requests.control, hctrl]
    exact h.later (by simp [hctrl, Ctrl.Ahead]) rfl rfl rfl rfl rfl rfl (fun _ _ _ => hchanged)
      fun _ => hchanged
  | signalling todo => exact h.signalling hctrl
  | alarming v todo =>
    rw [Requests.control, hctrl]
    exact h.raise (h.changed (by rw [hctrl]; trivial)) (fun _ => Iff.rfl)
      (by simp [hctrl, Ctrl.Ahead]) (by simp [hctrl])
  | finishing => exact h.finishing hctrl
  | announcing i =>
    simp only [Timely, hctrl] at htimely
    simp only [Requests.control, hctrl]
    split
    · next hi => exact h.announce hctrl (htimely hi)
    · next hi =>
      refine h.later (by simp [hctrl, Ctrl.Ahead]) rfl rfl rfl rfl rfl rfl (fun w hw ho => ?_)
        False.elim
      rw [Owed, hctrl] at ho
      exact absurd (Nat.lt_of_le_of_lt ho hw) hi

/-- A core reads a flag: it passes a flag that is clear, and goes to the handler of one that
is set. -/
theorem test (h : Inv cfg st) {v : ℕ} {found : Bool} {f : Flag} (hpc : st.pc v = .test f) :
    Inv cfg (st.goto v (if st.flag f v then handler found f else after f)) := by
  refine h.move rfl rfl rfl rfl rfl rfl (fun _ _ ha => ha) (fun f' hp hf => ?_)
    fun s _ _ hc => ?_
  · rw [hpc]
    revert hp
    by_cases hset : st.flag f v = true
    · rw [if_pos hset]
      cases f <;> cases f' <;> cases found <;>
        simp [Pc.Passed, Pc.passed, Flag.place, handler]
    · -- a flag that is passed is clear, and the others were passed before
      have hff : f' ≠ f := fun heq => hset (heq ▸ hf)
      rw [if_neg hset]
      revert hff
      cases f <;> cases f' <;> simp [Pc.Passed, Pc.passed, Flag.place, after]
  · revert hc
    split
    · cases f <;> cases found <;> simp [Pc.Copied, handler]
    · cases f <;> simp [Pc.Copied, after]

/-- A core takes over the ratio of a shard it owns. -/
theorem copying (h : Inv cfg st) {v s : ℕ} (hpc : st.pc v = .copying s)
    (htimely : st.owner s = v → isEqualThan (st.rNew s) (st.rNew s) = true) :
    Inv cfg { st.goto v (.copying (s + 1)) with
      r := if st.owner s = v then Function.update st.r s (st.rNew s) else st.r } := by
  have hagree : ∀ s', Agree s' st ∨ (s' = s ∧ st.owner s = v) →
      Agree s' { st.goto v (.copying (s + 1)) with
        r := if st.owner s = v then Function.update st.r s (st.rNew s) else st.r } := by
    intro s' ha
    unfold Agree at ha ⊢
    dsimp only [State.goto]
    by_cases hv : st.owner s = v
    · rw [if_pos hv]
      by_cases heq : s' = s
      · subst heq
        rw [Function.update_self]
        -- the shard taken over agrees now, provided the ratio equals itself (it is no NaN)
        exact htimely hv
      · rw [Function.update_of_ne heq]
        exact ha.resolve_right fun ha => heq ha.1
    · rw [if_neg hv]
      exact ha.resolve_right fun ha => hv ha.2
  refine h.move rfl rfl rfl rfl rfl rfl (fun s' _ ha => hagree s' (Or.inl ha))
    (fun f hp _ => absurd hp (Nat.not_lt_zero _)) fun s' _ hv hc => ?_
  rw [hpc]
  -- one shard more is behind the core, the one it has just taken over
  rcases Nat.eq_or_lt_of_le (Nat.le_of_lt_succ hc) with rfl | hlt
  · exact Or.inr (hagree s' (Or.inr ⟨rfl, hv⟩))
  · exact Or.inl hlt

/-- **A core.** -/
theorem go (h : Inv cfg st) {v : ℕ} {found : Bool} (htimely : Timely cfg st (.go v found)) :
    Inv cfg (go cfg v found st) := by
  simp only [Requests.go]
  cases hpc : st.pc v with
  | idle => exact h
  | test f => exact h.test hpc
  | copying s =>
    simp only [Timely, hpc] at htimely
    dsimp only
    split
    · exact h.copying hpc htimely
    · next hs =>
      refine h.move rfl rfl rfl rfl rfl rfl (fun _ _ ha => ha)
        (fun f hp _ => absurd hp (Nat.not_lt_zero _)) fun s' hs' _ _ => ?_
      rw [hpc]
      exact Or.inl (show s' < s by omega)
  | releasing s =>
    dsimp only
    split <;> exact h.move rfl rfl rfl rfl rfl rfl (fun _ _ ha => ha)
      (fun f hp _ => by rw [hpc]; exact hp) fun s' _ _ hc => hc.elim
  | clearing f => exact h.clear hpc
  | closing => exact h.close hpc
  | draining s =>
    dsimp only
    split <;> exact h.move rfl rfl rfl rfl rfl rfl (fun _ _ ha => ha)
      (fun f hp _ => absurd hp (Nat.not_lt_zero _)) fun s' _ _ hc => hc.elim
  | testing s =>
    dsimp only
    split <;> exact h.move rfl rfl rfl rfl rfl rfl (fun _ _ ha => ha)
      (fun f hp _ => absurd hp (Nat.not_lt_zero _)) fun s' _ _ hc => hc.elim
  | acquiring s =>
    simp only [Timely, hpc] at htimely
    exact h.acquire htimely

/-- **Every step.** -/
theorem step (h : Inv cfg st) {a : Act D} (ha : Timely cfg st a) : Inv cfg (step cfg st a) := by
  cases a with
  | epoch ans prob2s =>
    dsimp only [Requests.step]
    split
    · next hidle =>
      refine h.advance rfl rfl rfl rfl rfl rfl (fun w _ ho => ?_) False.elim
        fun _ _ _ => Or.inr (Or.inl trivial)
      rw [Owed, hidle] at ho
      exact ho.elim
    · exact h
  | ctrl => exact h.control ha
  | serve v =>
    dsimp only [Requests.step]
    split
    · exact h.move rfl rfl rfl rfl rfl rfl (fun _ _ ha => ha)
        (fun f hp _ => absurd hp (Nat.not_lt_zero _)) fun _ _ _ hc => hc.elim
    · exact h
  | drain v =>
    dsimp only [Requests.step]
    split
    · exact h.move rfl rfl rfl rfl rfl rfl (fun _ _ ha => ha)
        (fun f hp _ => absurd hp (Nat.not_lt_zero _)) fun _ _ _ hc => hc.elim
    · exact h
  | go v found => exact h.go ha

end Inv

theorem inv_start (h0 : isEqualThan (0 : D) 0 = true) : Inv cfg (start D cfg) where
  raised _ _ _ hf := by cases hf
  passed _ _ _ _ hf := by cases hf
  changed := False.elim
  ratio _ _ := Or.inr (Or.inl h0)
  copied _ _ := False.elim

/-- **Requests.** In every run whose steps are in time, for any number of cores and any
interleaving, no request to a core is lost at any moment at which the controller is
outside `update_short_epoch`, wherever the core is. That 0 is equal to itself is a fact
about `double`. -/
theorem notLost_of_timely {acts : List (Act D)} (h0 : isEqualThan (0 : D) 0 = true)
    (hC : Along (step cfg) (Timely cfg) (start D cfg) acts) {w : ℕ} (hw : w < cfg.W)
    (hctrl : (runFrom (step cfg) (start D cfg) acts).ctrl = .idle) :
    NotLost cfg w (runFrom (step cfg) (start D cfg) acts) := by
  have h := hC.inv (I := Inv cfg) (fun st a h ha => h.step ha) (inv_start h0)
  refine ⟨fun f hf => ?_, fun hr s hs howner => ?_⟩
  · refine (h.raised w hw f hf).resolve_right fun ho => ?_
    rw [Owed, hctrl] at ho
    exact ho
  · rcases h.ratio s hs with hf | ha | ha | ha
    · rw [howner, hr] at hf
      cases hf
    · exact ha
    · rw [hctrl] at ha
      exact ha.elim
    · rw [hctrl] at ha
      cases ha

/-! ## Tests -/

instance (l : Pc) : Decidable l.InBlock :=
  match l with
  | .test _ | .copying _ | .releasing _ | .clearing _ | .closing => inferInstanceAs (Decidable True)
  | .idle | .draining _ | .testing _ | .acquiring _ => inferInstanceAs (Decidable False)

omit [Double D] in
instance (s : ℕ) (c : Ctrl D) : Decidable (c.Ahead s) :=
  match c with
  | .answering _ _ => inferInstanceAs (Decidable True)
  | .ratio s' => inferInstanceAs (Decidable (s' ≤ s))
  | .comparing s' => inferInstanceAs (Decidable (s' ≤ s))
  | .raising s' _ => inferInstanceAs (Decidable (s' < s))
  | .idle | .relating _ | .assigning | .requesting _ _ | .pausing _ _ _ | .signalling _
  | .alarming _ _ | .finishing | .announcing _ => inferInstanceAs (Decidable False)

omit [Double D] in
instance (c : Ctrl D) : Decidable (c = .idle) :=
  match c with
  | .idle => isTrue rfl
  | .answering _ _ | .ratio _ | .comparing _ | .raising _ _ | .relating _ | .assigning
  | .requesting _ _ | .pausing _ _ _ | .signalling _ | .alarming _ _ | .finishing
  | .announcing _ => isFalse nofun

omit [Double D] in
instance (s v : ℕ) (c : Ctrl D) : Decidable (c = .raising s v) :=
  match c with
  | .raising s' v' => decidable_of_iff (s' = s ∧ v' = v) (by simp only [Ctrl.raising.injEq])
  | .idle | .answering _ _ | .ratio _ | .comparing _ | .relating _ | .assigning
  | .requesting _ _ | .pausing _ _ _ | .signalling _ | .alarming _ _ | .finishing
  | .announcing _ => isFalse nofun

instance (s : ℕ) (l : Pc) : Decidable (l.Copied s) :=
  match l with
  | .copying i => inferInstanceAs (Decidable (s < i))
  | .clearing .r => inferInstanceAs (Decidable True)
  | .clearing .offloading | .clearing .shard | .idle | .test _ | .releasing _ | .closing
  | .draining _ | .testing _ | .acquiring _ => inferInstanceAs (Decidable False)

instance (s : ℕ) (st : State D) : Decidable (Agree s st) :=
  inferInstanceAs (Decidable (_ = true))

instance (st : State D) : DecidablePred (Timely cfg st)
  | .ctrl =>
    match h : st.ctrl with
    | .comparing s =>
      decidable_of_iff (¬ Agree s st → ¬ (st.pc (st.owner s)).Copied s) (by simp only [Timely, h])
    | .announcing i =>
      decidable_of_iff (i < cfg.W → ∀ f ∈ [Flag.r, .offloading, .shard],
        (st.pc i).Passed f → st.flag f i = false) (by
          simp only [Timely, h]
          refine imp_congr_right fun _ => ⟨fun hf f => hf f ?_, fun hf f _ => hf f⟩
          cases f <;> simp)
    | .idle | .answering _ _ | .ratio _ | .raising _ _ | .relating _ | .assigning
    | .requesting _ _ | .pausing _ _ _ | .signalling _ | .alarming _ _ | .finishing =>
      isTrue (by simp only [Timely, h])
  | .go v _ =>
    match h : st.pc v with
    | .copying s =>
      decidable_of_iff (st.owner s = v → isEqualThan (st.rNew s) (st.rNew s) = true)
        (by simp only [Timely, h])
    | .acquiring s =>
      decidable_of_iff (st.flag .r v = true ∨ Agree s st ∨ st.ctrl.Ahead s ∨
        st.ctrl = .raising s v) (by simp only [Timely, h])
    | .idle | .test _ | .releasing _ | .clearing _ | .closing | .draining _ | .testing _ =>
      isTrue (by simp only [Timely, h])
  | .epoch _ _ => isTrue trivial
  | .serve _ => isTrue trivial
  | .drain _ => isTrue trivial

end

/-! ## What goes wrong -/

/-- An epoch whose answer changes the ratio of both shards to `x`. -/
def wholeEpoch (x : ℚ) : List (Act ℚ) :=
  .epoch (Small.answer id (fun _ => 0) fun _ => x) (fun _ => []) :: List.replicate 15 .ctrl

/-- Core 0 is at the end of its signal block when the next epoch asks it to take over
another ratio. -/
def lateSignal : List (Act ℚ) :=
  wholeEpoch (1 / 2) ++ .serve 0 :: List.replicate 7 (.go 0 false) ++
    wholeEpoch (1 / 4) ++ [.go 0 false]

/-- `transfer_r` is set, and the signal is not. -/
theorem lateSignal_lost :
    (runFrom (step (Small.router 1)) (start ℚ (Small.router 1)) lateSignal).ctrl = .idle ∧
      ¬ ((runFrom (step (Small.router 1)) (start ℚ (Small.router 1)) lateSignal).pc 0).InBlock ∧
      ¬ NotLost (Small.router 1) 0
        (runFrom (step (Small.router 1)) (start ℚ (Small.router 1)) lateSignal) := by
  refine ⟨by decide +kernel, by decide +kernel, fun h => ?_⟩
  have hsignal := h.signal .r
  revert hsignal
  decide +kernel

/-- Core 0 has left its signal block before the next epoch. -/
theorem servedBetween_notLost : NotLost (Small.router 1) 0
    (runFrom (step (Small.router 1)) (start ℚ (Small.router 1))
      (wholeEpoch (1 / 2) ++ .serve 0 :: List.replicate 8 (.go 0 false) ++ wholeEpoch (1 / 4))) :=
  notLost_of_timely (by decide +kernel) (by decide +kernel) (by decide) (by decide +kernel)

end Requests

end Fajita
