import Fajita.Stages

/-!
# Ownership, write by write

The hand-over of shards with each shared write as a step of its own: the two
writes of `migration_shard`, and the two writes of a release and of an
acquisition in the loops of `transfer_shard` and `run_task`. A step reads what
guards its write. What the rings hold only decides which branch a core takes, so
here the schedule decides it.

The test that lets a core acquire a shard, `pause = 0` and `owner_new = queueid`,
is meant as evidence that the shard was requested for the core and then released
by its owner (`Evidence`). Three accidents satisfy it otherwise, and without them
(`Careful`) every acquisition has its evidence: `acquired_of_careful`.
-/

namespace Fajita

namespace Ownership

/-! ## The state

Only the variables of the hand-over are left: owners, new owners, pauses and the news. Where a
thread is between two of its writes is a part of the state, so that any other may come in between.
-/

/-- The controller, between the writes of `migration_shard`. -/
inductive Ctrl where
  /-- not in `migration_shard` -/
  | idle
  /-- `owner_new` of shard `s` is `w`, its `pause` not yet set -/
  | mid (s w : ℕ)
  deriving DecidableEq

/-- Where a working core is. -/
inductive Pc where
  /-- in neither loop -/
  | idle
  /-- before the test of shard `s` in `transfer_shard` -/
  | releasing (s : ℕ)
  /-- in `transfer_shard`, with the pause of shard `s` cleared -/
  | telling (s : ℕ)
  /-- before the first test of shard `s` in the drained branch -/
  | draining (s : ℕ)
  /-- in the drained branch, with the pause of shard `s` cleared -/
  | drainTelling (s : ℕ)
  /-- before the second test of shard `s` in the drained branch -/
  | testing (s : ℕ)
  /-- in the drained branch, with `owner_new` of shard `s` cleared -/
  | acquiring (s : ℕ)
  deriving DecidableEq

/-- What is recorded of a run. -/
inductive Event where
  /-- `migration_shard(s, w, false)` has written `owner_new` -/
  | requested (s w : ℕ)
  /-- it has set `pause` -/
  | paused (s w : ℕ)
  /-- core `v` has cleared `pause` -/
  | released (s v : ℕ)
  /-- core `v` has become the owner -/
  | acquired (s v : ℕ)
  deriving DecidableEq

/-- The shared and private variables of the hand-over. -/
structure State where
  /-- `owner` of each shard -/
  owner : ℕ → ℕ
  /-- `owner_new` of each shard -/
  ownerNew : ℕ → ℕ
  /-- `pause` of each shard -/
  pause : ℕ → Bool
  /-- `had_changes` of each core -/
  hadChanges : ℕ → Bool
  /-- `transfer_shard` of each core -/
  transferShard : ℕ → Bool
  /-- `myown` of each core -/
  myown : ℕ → Bool
  /-- the controller -/
  ctrl : Ctrl
  /-- the cores -/
  pc : ℕ → Pc
  /-- history, newest first -/
  log : List Event

/-- The state `init_shards` builds; `owner_new` is 0. -/
def start (cfg : Cfg) : State where
  owner := fun s => s % cfg.W
  ownerNew := fun _ => 0
  pause := fun _ => false
  hadChanges := fun _ => false
  transferShard := fun _ => false
  myown := fun _ => false
  ctrl := .idle
  pc := fun _ => .idle
  log := []

/-! ## The writes -/

namespace State

/-- The core goes on at `l`. -/
def goto (v : ℕ) (l : Pc) (st : State) : State := { st with pc := Function.update st.pc v l }

/-- `owner_new = w` -/
def request (s w : ℕ) (st : State) : State :=
  { st with
    ownerNew := Function.update st.ownerNew s w
    ctrl := .mid s w
    log := .requested s w :: st.log }

/-- `rte_atomic32_set(&pause, 1)` -/
def setPause (s w : ℕ) (st : State) : State :=
  { st with
    pause := Function.update st.pause s true
    ctrl := .idle
    log := .paused s w :: st.log }

/-- `rte_atomic32_clear(&pause)` -/
def release (s v : ℕ) (st : State) : State :=
  { st with
    pause := Function.update st.pause s false
    log := .released s v :: st.log }

/-- `rte_atomic32_set(had_changes[owner_new], 1)` -/
def tell (s : ℕ) (st : State) : State :=
  { st with hadChanges := Function.update st.hadChanges (st.ownerNew s) true }

/-- `owner_new = UINT32_MAX` -/
def forget (s : ℕ) (st : State) : State :=
  { st with ownerNew := Function.update st.ownerNew s uint32Max }

/-- `owner = queueid` -/
def take (s v : ℕ) (st : State) : State :=
  { st with
    owner := Function.update st.owner s v
    log := .acquired s v :: st.log }

end State

/-! ## The steps -/

/-- The label of a step. -/
inductive Act where
  /-- `migration_shard(s, w, false)` up to its first write -/
  | request (s w : ℕ)
  /-- its second write -/
  | pause
  /-- `migration_shard(s, w, true)` -/
  | signal (s w : ℕ)
  /-- core `v` serves its flags; `found`: a transfer routine finds packets -/
  | serve (v : ℕ) (found : Bool)
  /-- the `had_changes` branch of `process` of core `v` -/
  | news (v : ℕ)
  /-- core `v` finds its own ring empty -/
  | drain (v : ℕ)
  /-- core `v` goes on in the loop it is in -/
  | go (v : ℕ)

/-- A step of a core in one of its loops. -/
def go (cfg : Cfg) (v : ℕ) (st : State) : State :=
  match st.pc v with
  | .idle => st
  | .releasing s =>
    if s < cfg.totalShards then
      if st.owner s = v ∧ st.ownerNew s ≠ uint32Max then (st.release s v).goto v (.telling s)
      else st.goto v (.releasing (s + 1))
    else { st.goto v .idle with transferShard := Function.update st.transferShard v false }
  | .telling s => (st.tell s).goto v (.releasing (s + 1))
  | .draining s =>
    if s < cfg.totalShards then
      if st.pause s = true ∧ st.owner s = v ∧ st.ownerNew s ≠ uint32Max then
        (st.release s v).goto v (.drainTelling s)
      else st.goto v (.testing s)
    else st.goto v .idle
  | .drainTelling s => (st.tell s).goto v (.testing s)
  | .testing s =>
    if st.pause s = false ∧ st.ownerNew s = v then (st.forget s).goto v (.acquiring s)
    else st.goto v (.draining (s + 1))
  | .acquiring s => (st.take s v).goto v (.draining (s + 1))

/-- The step function. -/
def step (cfg : Cfg) (st : State) : Act → State
  | .request s w => if st.owner s = w then st else st.request s w
  | .pause =>
    match st.ctrl with
    | .idle => st
    | .mid s w => st.setPause s w
  | .signal s w =>
    if st.owner s = w then st
    else { st with transferShard := Function.update st.transferShard (st.owner s) true }
  | .serve v found =>
    if found then
      { st with
        myown := Function.update st.myown v true
        transferShard := Function.update st.transferShard v false }
    else if st.transferShard v then st.goto v (.releasing 0)
    else st
  | .news v =>
    { st with
      myown := if ∃ s < cfg.totalShards, st.ownerNew s = v ∧ st.pause s = false then
          Function.update st.myown v false else st.myown
      hadChanges := Function.update st.hadChanges v false }
  | .drain v => { st.goto v (.draining 0) with myown := Function.update st.myown v false }
  | .go v => go cfg v st

/-- The labels that are possible in a state. The controller calls
`migration_shard` for entries of the assignment. -/
def Possible (cfg : Cfg) (st : State) : Act → Prop
  | .request s w => st.ctrl = .idle ∧ s < cfg.totalShards ∧ w < cfg.totalCores
  | .pause => st.ctrl ≠ .idle
  | .signal s w => st.ctrl = .idle ∧ s < cfg.totalShards ∧ w < cfg.totalCores
  | .serve v _ => v < cfg.W ∧ st.pc v = .idle ∧ st.myown v = false
  | .news v => v < cfg.W ∧ st.pc v = .idle ∧ st.hadChanges v = true
  | .drain v => v < cfg.W ∧ st.pc v = .idle ∧ st.myown v = true
  | .go v => v < cfg.W ∧ st.pc v ≠ .idle

/-! ## Evidence

That a core may take a shard has to be seen from the history of the shard: it was requested for this
core, paused and released, in this order, and nobody has got it since.
-/

/-- The event ends what is known of shard `s`: it has a new owner. -/
def Event.Ends (s : ℕ) : Event → Prop
  | acquired s' _ => s' = s
  | _ => False

instance (s : ℕ) : DecidablePred (Event.Ends s)
  | .acquired s' _ => inferInstanceAs (Decidable (s' = s))
  | .requested _ _ => inferInstanceAs (Decidable False)
  | .paused _ _ => inferInstanceAs (Decidable False)
  | .released _ _ => inferInstanceAs (Decidable False)

/-- What happened since shard `s` got its owner. -/
def since (s : ℕ) (log : List Event) : List Event := log.takeWhile fun e => ¬ e.Ends s

/-- Since shard `s` got its owner `p`, it was requested for core `q`, then paused,
then released by `p`. -/
def Evidence (s q p : ℕ) (log : List Event) : Prop :=
  [Event.released s p, .paused s q, .requested s q].Sublist (since s log)

instance (s q p : ℕ) (log : List Event) : Decidable (Evidence s q p log) :=
  inferInstanceAs (Decidable (List.Sublist _ _))

/-- A core becomes the owner of a shard only on evidence. -/
def Justified (st : State) : Act → Prop
  | .go v =>
    match st.pc v with
    | .acquiring s => Evidence s v (st.owner s) st.log
    | _ => True
  | _ => True

/-- The event is a request for shard `s`. -/
def Event.Requests (s : ℕ) : Event → Prop
  | requested s' _ => s' = s
  | _ => False

instance (s : ℕ) : DecidablePred (Event.Requests s)
  | .requested s' _ => inferInstanceAs (Decidable (s' = s))
  | .paused _ _ => inferInstanceAs (Decidable False)
  | .released _ _ => inferInstanceAs (Decidable False)
  | .acquired _ _ => inferInstanceAs (Decidable False)

/-- Shard `s` has been requested for some core. -/
def Requested (s : ℕ) (log : List Event) : Prop := ∃ e ∈ log, e.Requests s

instance (s : ℕ) (log : List Event) : Decidable (Requested s log) :=
  inferInstanceAs (Decidable (∃ e ∈ log, _))

/-- The steps that keep the three accidents out:

* no request is made for a shard while a core is acquiring it;
* no core tests a shard for itself between the two writes of the request for it;
* core 0 — the value `owner_new` is zeroed to — tests no shard before its first
  request. -/
def Careful (cfg : Cfg) (st : State) : Act → Prop
  | .request s w => st.owner s ≠ w → ∀ v < cfg.W, st.pc v ≠ .acquiring s
  | .go v =>
    match st.pc v with
    | .testing s => st.ctrl ≠ .mid s v ∧ (v = 0 → Requested s st.log)
    | _ => True
  | _ => True

/-! ## The history -/

variable {s : ℕ} {e : Event} {log l : List Event}

theorem since_cons (h : ¬ e.Ends s) : since s (e :: log) = e :: since s log := by
  rw [since, List.takeWhile_cons_of_pos (by simpa using h), since]

/-- What has happened stays. -/
theorem sublist_since_cons (h : ¬ e.Ends s) (hl : l.Sublist (since s log)) :
    l.Sublist (since s (e :: log)) := by
  rw [since_cons h]
  exact hl.cons e

/-- The event completes what has happened before. -/
theorem cons_sublist_since (h : ¬ e.Ends s) (hl : l.Sublist (since s log)) :
    (e :: l).Sublist (since s (e :: log)) := by
  rw [since_cons h]
  exact hl.cons_cons e

theorem Requested.cons (h : Requested s log) : Requested s (e :: log) := by
  obtain ⟨e', he', hs⟩ := h
  exact ⟨e', List.mem_cons_of_mem _ he', hs⟩

/-- Only a request makes a shard requested. -/
theorem Requested.of_cons (h : Requested s (e :: log)) (he : ∀ w, e ≠ .requested s w) :
    Requested s log := by
  obtain ⟨e', he', hs⟩ := h
  rcases List.mem_cons.mp he' with rfl | he'
  · cases e' with
    | requested s' w =>
      obtain rfl : s' = s := hs
      exact absurd rfl (he w)
    | paused _ _ => cases hs
    | released _ _ => cases hs
    | acquired _ _ => cases hs
  · exact ⟨e', he', hs⟩

/-! ## The invariant

What the variables say about the history. A shard that is not paused and has a new owner has been
released; a core that is about to acquire a shard has evidence for it, and nobody else is about to.
-/

/-- The controller is between its two writes for shard `s`. -/
def Ctrl.At (s : ℕ) : Ctrl → Prop
  | idle => False
  | mid s' _ => s' = s

/-- What the variables of a shard say about its history. -/
structure Sound (st : State) : Prop where
  /-- an untouched shard -/
  fresh : ∀ s, ¬ Requested s st.log → st.ownerNew s = 0
  /-- a request that is being made -/
  mid : ∀ s w, st.ctrl = .mid s w →
    st.ownerNew s = w ∧ [Event.requested s w].Sublist (since s st.log)
  /-- a paused shard has been requested -/
  paused : ∀ s, st.pause s = true → ¬ st.ctrl.At s →
    [Event.paused s (st.ownerNew s), .requested s (st.ownerNew s)].Sublist (since s st.log)
  /-- a requested shard that is not paused has been released -/
  released : ∀ s, st.pause s = false → ¬ st.ctrl.At s → Requested s st.log →
    st.ownerNew s ≠ uint32Max → Evidence s (st.ownerNew s) (st.owner s) st.log
  /-- a shard that is being acquired -/
  acquiring : ∀ v s, st.pc v = .acquiring s → st.ownerNew s = uint32Max ∧ st.pause s = false ∧
    ¬ st.ctrl.At s ∧ Evidence s v (st.owner s) st.log
  /-- by a single core -/
  single : ∀ v v' s, st.pc v = .acquiring s → st.pc v' = .acquiring s → v = v'

namespace Sound

variable {cfg : Cfg} {st : State} {v w : ℕ}

theorem init (cfg : Cfg) : Sound (start cfg) where
  fresh _ _ := rfl
  mid _ _ h := by cases h
  paused _ h := by cases h
  released s _ _ h := by obtain ⟨_, he, -⟩ := h; cases he
  acquiring _ _ h := by cases h
  single _ _ _ h := by cases h

/-- A step that writes nothing of the hand-over. -/
theorem quiet {st' : State} (h : Sound st) (howner : st'.owner = st.owner)
    (hnew : st'.ownerNew = st.ownerNew) (hpause : st'.pause = st.pause) (hctrl : st'.ctrl = st.ctrl)
    (hlog : st'.log = st.log)
    (hpc : ∀ v s, st'.pc v = .acquiring s → st.pc v = .acquiring s) : Sound st' where
  fresh := by rw [hlog, hnew]; exact h.fresh
  mid := by rw [hctrl, hlog, hnew]; exact h.mid
  paused := by rw [hctrl, hlog, hnew, hpause]; exact h.paused
  released := by rw [hctrl, hlog, hnew, hpause, howner]; exact h.released
  acquiring v s hv := by rw [hctrl, hlog, hnew, hpause, howner]; exact h.acquiring v s (hpc v s hv)
  single v v' s hv hv' := h.single v v' s (hpc v s hv) (hpc v' s hv')

theorem goto (h : Sound st) (v : ℕ) {l : Pc} (hl : ∀ s, l ≠ .acquiring s) :
    Sound (st.goto v l) := by
  refine h.quiet rfl rfl rfl rfl rfl fun v' s hv' => ?_
  by_cases hvv : v' = v
  · subst hvv
    rw [State.goto] at hv'
    simp only [Function.update_self] at hv'
    exact absurd hv' (hl s)
  · simpa only [State.goto, Function.update_of_ne hvv] using hv'

theorem request (h : Sound st) (s w : ℕ) (hidle : st.ctrl = .idle)
    (hno : ∀ v, st.pc v ≠ .acquiring s) : Sound (st.request s w) where
  fresh s' hr := by
    by_cases hs : s' = s
    · exact absurd ⟨_, List.mem_cons_self .., hs.symm⟩ hr
    · simp only [State.request, Function.update_of_ne hs]
      exact h.fresh s' fun hr' => hr hr'.cons
  mid s' w' hm := by
    cases hm
    exact ⟨Function.update_self .., cons_sublist_since (fun h => h) (List.nil_sublist _)⟩
  paused s' hp hat := by
    have hs : s' ≠ s := fun hs => hat hs.symm
    simp only [State.request, Function.update_of_ne hs]
    exact sublist_since_cons (fun h => h) (h.paused s' hp (by rw [hidle]; exact fun h => h))
  released s' hp hat hr hn := by
    have hs : s' ≠ s := fun hs => hat hs.symm
    simp only [State.request, Function.update_of_ne hs] at hn ⊢
    have hr' := hr.of_cons fun w' he => hs (by cases he; rfl)
    exact sublist_since_cons (fun h => h)
      (h.released s' hp (by rw [hidle]; exact fun h => h) hr' hn)
  acquiring v s' hv := by
    have hs : s' ≠ s := by rintro rfl; exact hno v hv
    obtain ⟨hnew, hpause, -, hev⟩ := h.acquiring v s' hv
    refine ⟨?_, hpause, fun hat => hs hat.symm, sublist_since_cons (fun h => h) hev⟩
    simp only [State.request, Function.update_of_ne hs]
    exact hnew
  single := h.single

theorem setPause (h : Sound st) (hmid : st.ctrl = .mid s w) : Sound (st.setPause s w) where
  fresh s' hr := h.fresh s' fun hr' => hr hr'.cons
  mid s' w' hm := by cases hm
  paused s' hp _ := by
    by_cases hs : s' = s
    · subst hs
      obtain ⟨hnew, hreq⟩ := h.mid s' w hmid
      have hnew' : (st.setPause s' w).ownerNew s' = w := hnew
      rw [hnew']
      -- the request is the last that has happened to the shard
      exact cons_sublist_since (fun h => h) hreq
    · simp only [State.setPause, Function.update_of_ne hs] at hp ⊢
      refine sublist_since_cons (fun h => h) (h.paused s' hp ?_)
      rw [hmid]
      exact fun hat => hs hat.symm
  released s' hp _ hr hn := by
    by_cases hs : s' = s
    · subst hs
      simp [State.setPause] at hp
    · simp only [State.setPause, Function.update_of_ne hs] at hp hn ⊢
      refine sublist_since_cons (fun h => h) (h.released s' hp ?_ (hr.of_cons nofun) hn)
      rw [hmid]
      exact fun hat => hs hat.symm
  acquiring v s' hv := by
    obtain ⟨hnew, hpause, hat, hev⟩ := h.acquiring v s' hv
    have hs : s' ≠ s := by
      rintro rfl
      exact hat (by rw [hmid]; rfl)
    refine ⟨hnew, ?_, fun h => h, sublist_since_cons (fun h => h) hev⟩
    simp only [State.setPause, Function.update_of_ne hs]
    exact hpause
  single := h.single

/-- **A release is the last piece of evidence.** -/
theorem release (h : Sound st) (howner : st.owner s = v) (hnew : st.ownerNew s ≠ uint32Max) :
    Sound (st.release s v) where
  fresh s' hr := h.fresh s' fun hr' => hr hr'.cons
  mid s' w' hm := by
    obtain ⟨hw, hreq⟩ := h.mid s' w' hm
    exact ⟨hw, sublist_since_cons (fun h => h) hreq⟩
  paused s' hp hat := by
    have hs : s' ≠ s := by
      rintro rfl
      simp [State.release] at hp
    simp only [State.release, Function.update_of_ne hs] at hp
    exact sublist_since_cons (fun h => h) (h.paused s' hp hat)
  released s' hp hat hr hn := by
    by_cases hs : s' = s
    · subst hs
      -- a paused shard has been requested, and one that is not has been released before
      cases hpause : st.pause s' with
      | true =>
        have howner' : (st.release s' v).owner s' = v := howner
        rw [howner']
        exact cons_sublist_since (fun h => h) (h.paused s' hpause hat)
      | false =>
        exact sublist_since_cons (fun h => h) (h.released s' hpause hat (hr.of_cons nofun) hn)
    · simp only [State.release, Function.update_of_ne hs] at hp
      exact sublist_since_cons (fun h => h) (h.released s' hp hat (hr.of_cons nofun) hn)
  acquiring v' s' hv := by
    obtain ⟨hmax, hpause, hat, hev⟩ := h.acquiring v' s' hv
    have hs : s' ≠ s := by
      rintro rfl
      exact hnew hmax
    refine ⟨hmax, ?_, hat, sublist_since_cons (fun h => h) hev⟩
    simp only [State.release, Function.update_of_ne hs]
    exact hpause
  single := h.single

/-- The controller is not at a shard that a core finds requested for itself, unless it
is just making the request. -/
theorem not_at (h : Sound st) (hnew : st.ownerNew s = v) (hmid : st.ctrl ≠ .mid s v) :
    ¬ st.ctrl.At s := by
  intro hat
  cases hc : st.ctrl with
  | idle => rw [hc] at hat; exact hat
  | mid s' w =>
    rw [hc] at hat
    obtain rfl : s' = s := hat
    have hw := (h.mid s' w hc).1
    rw [hnew] at hw
    exact hmid (by rw [hc, hw])

/-- A shard in which a core finds its own number has been requested; only core 0 needs
to be told, since `owner_new` is zeroed. -/
theorem requested_of_new (h : Sound st) (hnew : st.ownerNew s = v)
    (hreq : v = 0 → Requested s st.log) : Requested s st.log := by
  by_contra hno
  have h0 := h.fresh s hno
  rw [hnew] at h0
  exact hno (hreq h0)

/-- Nobody acquires a shard that is requested. -/
theorem unacquired (h : Sound st) (hv : v ≠ uint32Max) (hnew : st.ownerNew s = v) (v' : ℕ) :
    st.pc v' ≠ .acquiring s := by
  intro hv'
  have hmax := (h.acquiring v' s hv').1
  rw [hnew] at hmax
  exact hv hmax

/-- A core that starts to acquire an unacquired shard is the only one there. -/
theorem forget_pc (hother : ∀ v', st.pc v' ≠ .acquiring s) {v' s' : ℕ}
    (hv' : ((st.forget s).goto v (.acquiring s)).pc v' = .acquiring s') :
    v' = v ∧ s' = s ∨ s' ≠ s ∧ st.pc v' = .acquiring s' := by
  by_cases hvv : v' = v
  · subst hvv
    simp only [State.goto, Function.update_self, Pc.acquiring.injEq] at hv'
    exact Or.inl ⟨rfl, hv'.symm⟩
  · simp only [State.goto, State.forget, Function.update_of_ne hvv] at hv'
    exact Or.inr ⟨fun hs => hother v' (hs ▸ hv'), hv'⟩

/-- **The test of a core finds evidence**, if its shard is requested and no request
for it is being made. -/
theorem forget (h : Sound st) (hv : v ≠ uint32Max) (hpause : st.pause s = false)
    (hnew : st.ownerNew s = v) (hmid : st.ctrl ≠ .mid s v) (hreq : v = 0 → Requested s st.log) :
    Sound ((st.forget s).goto v (.acquiring s)) := by
  -- `Careful` rules out that the request is only half made, or was never made
  have hat := h.not_at hnew hmid
  have hrequested := h.requested_of_new hnew hreq
  have hev : Evidence s v (st.owner s) st.log := by
    have hreleased := h.released s hpause hat hrequested (by rw [hnew]; exact hv)
    rwa [hnew] at hreleased
  have hother := h.unacquired hv hnew
  have hsame : ∀ s' ≠ s, ((st.forget s).goto v (.acquiring s)).ownerNew s' = st.ownerNew s' :=
    fun s' hs => Function.update_of_ne hs ..
  have hself : ((st.forget s).goto v (.acquiring s)).ownerNew s = uint32Max :=
    Function.update_self ..
  refine ⟨fun s' hr => ?_, fun s' w' hm => ?_, fun s' hp hat' => ?_, fun s' hp hat' hr hn => ?_,
    fun v' s' hv' => ?_, fun v₁ v₂ s' hv₁ hv₂ => ?_⟩
  · have hs : s' ≠ s := by rintro rfl; exact hr hrequested
    rw [hsame s' hs]
    exact h.fresh s' hr
  · have hs : s' ≠ s := by
      rintro rfl
      have hm' : st.ctrl = .mid s' w' := hm
      exact hat (by rw [hm']; rfl)
    rw [hsame s' hs]
    exact h.mid s' w' hm
  · have hs : s' ≠ s := by
      rintro rfl
      have hp' : st.pause s' = true := hp
      rw [hpause] at hp'
      cases hp'
    rw [hsame s' hs]
    exact h.paused s' hp hat'
  · have hs : s' ≠ s := by
      rintro rfl
      exact hn hself
    rw [hsame s' hs] at hn ⊢
    exact h.released s' hp hat' hr hn
  · rcases forget_pc hother hv' with ⟨rfl, rfl⟩ | ⟨hs, hv'⟩
    · exact ⟨hself, hpause, hat, hev⟩
    · rw [hsame s' hs]
      exact h.acquiring v' s' hv'
  · rcases forget_pc hother hv₁ with ⟨h₁, hs₁⟩ | ⟨hs₁, h₁⟩ <;>
      rcases forget_pc hother hv₂ with ⟨h₂, hs₂⟩ | ⟨hs₂, h₂⟩
    · rw [h₁, h₂]
    · exact absurd hs₁ hs₂
    · exact absurd hs₂ hs₁
    · exact h.single v₁ v₂ s' h₁ h₂

/-- The second write of an acquisition. -/
theorem take (h : Sound st) (hv : st.pc v = .acquiring s) :
    Sound ((st.take s v).goto v (.draining (s + 1))) := by
  obtain ⟨hmax, hpause, hat, -⟩ := h.acquiring v s hv
  have hpc : ∀ v' s', ((st.take s v).goto v (.draining (s + 1))).pc v' = .acquiring s' →
      s' ≠ s ∧ st.pc v' = .acquiring s' := by
    intro v' s' hv'
    have hvv : v' ≠ v := by
      rintro rfl
      simp [State.goto] at hv'
    simp only [State.goto, State.take, Function.update_of_ne hvv] at hv'
    exact ⟨fun hs => hvv (h.single v' v s (hs ▸ hv') hv), hv'⟩
  -- the acquisition ends the history of shard `s`, and of no other
  have hmono : ∀ s' ≠ s, ∀ l : List Event, l.Sublist (since s' st.log) →
      l.Sublist (since s' (.acquired s v :: st.log)) :=
    fun s' hs l hl => sublist_since_cons (fun he => hs he.symm) hl
  refine ⟨fun s' hr => h.fresh s' fun hr' => hr hr'.cons, fun s' w' hm => ?_,
    fun s' hp hat' => ?_, fun s' hp hat' hr hn => ?_, fun v' s' hv' => ?_,
    fun v₁ v₂ s' hv₁ hv₂ => h.single v₁ v₂ s' (hpc v₁ s' hv₁).2 (hpc v₂ s' hv₂).2⟩
  · have hs : s' ≠ s := by
      rintro rfl
      have hm' : st.ctrl = .mid s' w' := hm
      exact hat (by rw [hm']; rfl)
    obtain ⟨hw, hreq⟩ := h.mid s' w' hm
    exact ⟨hw, hmono s' hs _ hreq⟩
  · have hs : s' ≠ s := by
      rintro rfl
      have hp' : st.pause s' = true := hp
      rw [hpause] at hp'
      cases hp'
    exact hmono s' hs _ (h.paused s' hp hat')
  · have hs : s' ≠ s := by
      rintro rfl
      exact hn hmax
    have howner : ((st.take s v).goto v (.draining (s + 1))).owner s' = st.owner s' :=
      Function.update_of_ne hs ..
    rw [howner]
    exact hmono s' hs _ (h.released s' hp hat' (hr.of_cons nofun) hn)
  · obtain ⟨hs, hv'⟩ := hpc v' s' hv'
    obtain ⟨hmax', hpause', hat', hev⟩ := h.acquiring v' s' hv'
    have howner : ((st.take s v).goto v (.draining (s + 1))).owner s' = st.owner s' :=
      Function.update_of_ne hs ..
    rw [howner]
    exact ⟨hmax', hpause', hat', hmono s' hs _ hev⟩

theorem go (h : Sound st) (hv : v ≠ uint32Max) (hc : Careful cfg st (.go v)) :
    Sound (go cfg v st) := by
  simp only [Careful] at hc
  simp only [Ownership.go]
  cases hpc : st.pc v with
  | idle => exact h
  | releasing s =>
    dsimp only
    split
    · split
      · next hr => exact (h.release hr.1 hr.2).goto v nofun
      · exact h.goto v nofun
    · -- the end of the loop, where the flag is cleared
      exact (h.goto (l := .idle) v nofun).quiet rfl rfl rfl rfl rfl fun _ _ hv => hv
  | telling s =>
    have h' : Sound (st.tell s) := h.quiet rfl rfl rfl rfl rfl fun _ _ hv => hv
    exact h'.goto v nofun
  | draining s =>
    dsimp only
    split
    · split
      · next hr => exact (h.release hr.2.1 hr.2.2).goto v nofun
      · exact h.goto v nofun
    · exact h.goto v nofun
  | drainTelling s =>
    have h' : Sound (st.tell s) := h.quiet rfl rfl rfl rfl rfl fun _ _ hv => hv
    exact h'.goto v nofun
  | testing s =>
    rw [hpc] at hc
    dsimp only
    split
    · next ht => exact h.forget hv ht.1 ht.2 hc.1 hc.2
    · exact h.goto v nofun
  | acquiring s => exact h.take hpc

/-- **Every careful step keeps the variables sound.** -/
theorem step (h : Sound st) (hidle : ∀ v, cfg.W ≤ v → st.pc v = .idle) {a : Act}
    (hp : Possible cfg st a) (hc : Careful cfg st a) : Sound (step cfg st a) := by
  cases a with
  | request s w =>
    simp only [Ownership.step]
    split
    · exact h
    · next hne =>
      refine h.request s w hp.1 fun v hv => ?_
      by_cases hvW : v < cfg.W
      · exact hc hne v hvW hv
      · -- only the cores of the router can be about to acquire
        rw [hidle v (Nat.le_of_not_lt hvW)] at hv
        cases hv
  | pause =>
    simp only [Ownership.step]
    cases hm : st.ctrl with
    | idle => exact h
    | mid s w => exact h.setPause hm
  | signal s w =>
    simp only [Ownership.step]
    split
    · exact h
    · exact h.quiet rfl rfl rfl rfl rfl fun _ _ hv => hv
  | serve v found =>
    simp only [Ownership.step]
    split
    · exact h.quiet rfl rfl rfl rfl rfl fun _ _ hv => hv
    · split
      · exact h.goto v nofun
      · exact h
  | news v => exact h.quiet rfl rfl rfl rfl rfl fun _ _ hv => hv
  | drain v => exact (h.goto (l := .draining 0) v nofun).quiet rfl rfl rfl rfl rfl fun _ _ hv => hv
  | go v => exact h.go (Cfg.ne_uint32Max hp.1) hc

end Sound

/-! ## Runs -/

variable {cfg : Cfg} {st : State}

theorem goto_pc {v v' : ℕ} (hv : v' ≠ v) (l : Pc) (st : State) : (st.goto v l).pc v' = st.pc v' :=
  Function.update_of_ne hv ..

/-- Only the cores of the router move. -/
theorem step_idle {a : Act} (hp : Possible cfg st a) {v : ℕ} (hv : cfg.W ≤ v)
    (h : st.pc v = .idle) : (step cfg st a).pc v = .idle := by
  have hne : ∀ v' < cfg.W, v ≠ v' := fun v' hv' => by omega
  cases a with
  | request s w =>
    simp only [step]
    split <;> exact h
  | pause =>
    simp only [step]
    cases st.ctrl <;> exact h
  | signal s w =>
    simp only [step]
    split <;> exact h
  | news v' => exact h
  | serve v' found =>
    simp only [step]
    split
    · exact h
    · split
      · exact (goto_pc (hne v' hp.1) _ st).trans h
      · exact h
  | drain v' => exact (goto_pc (hne v' hp.1) _ st).trans h
  | go v' =>
    have hgo : (go cfg v' st).pc v = st.pc v := by
      simp only [go]
      cases st.pc v' with
      | idle => rfl
      | releasing s => dsimp only; split_ifs <;> exact goto_pc (hne v' hp.1) _ _
      | telling s => exact goto_pc (hne v' hp.1) _ _
      | draining s => dsimp only; split_ifs <;> exact goto_pc (hne v' hp.1) _ _
      | drainTelling s => exact goto_pc (hne v' hp.1) _ _
      | testing s => dsimp only; split_ifs <;> exact goto_pc (hne v' hp.1) _ _
      | acquiring s => exact goto_pc (hne v' hp.1) _ _
    exact hgo.trans h

/-- **Ownership moves only through a requested and released hand-over.** In every
run from the state `init_shards` builds whose steps are careful, every core that
becomes the owner of a shard does so on evidence. -/
theorem acquired_of_careful {acts : List Act}
    (hC : Along (step cfg) (fun st a => Possible cfg st a ∧ Careful cfg st a) (start cfg) acts) :
    Along (step cfg) Justified (start cfg) acts := by
  refine Along.imp_inv (I := fun st => Sound st ∧ ∀ v, cfg.W ≤ v → st.pc v = .idle)
    (fun st a h ha => ⟨h.1.step h.2 ha.1 ha.2, fun v hv => step_idle ha.1 hv (h.2 v hv)⟩)
    (fun st a h ha => ?_) ⟨.init cfg, fun _ _ => rfl⟩ hC
  cases a with
  | go v =>
    simp only [Justified]
    cases hpc : st.pc v with
    | acquiring s => exact (h.1.acquiring v s hpc).2.2.2
    | _ => trivial
  | _ => trivial

instance (st : State) : DecidablePred (Possible cfg st)
  | .request _ _ => inferInstanceAs (Decidable (_ ∧ _ ∧ _))
  | .pause => inferInstanceAs (Decidable (_ ≠ _))
  | .signal _ _ => inferInstanceAs (Decidable (_ ∧ _ ∧ _))
  | .serve _ _ => inferInstanceAs (Decidable (_ ∧ _ ∧ _))
  | .news _ => inferInstanceAs (Decidable (_ ∧ _ ∧ _))
  | .drain _ => inferInstanceAs (Decidable (_ ∧ _ ∧ _))
  | .go _ => inferInstanceAs (Decidable (_ ∧ _))

instance (st : State) : DecidablePred (Careful cfg st)
  | .go v =>
    match h : st.pc v with
    | .testing s =>
      decidable_of_iff (st.ctrl ≠ .mid s v ∧ (v = 0 → Requested s st.log))
        (by simp only [Careful, h])
    | .idle | .releasing _ | .telling _ | .draining _ | .drainTelling _ | .acquiring _ =>
      isTrue (by simp only [Careful, h])
  | .request s w =>
    inferInstanceAs (Decidable (st.owner s ≠ w → ∀ v < cfg.W, st.pc v ≠ .acquiring s))
  | .pause => isTrue trivial
  | .signal _ _ => isTrue trivial
  | .serve _ _ => isTrue trivial
  | .news _ => isTrue trivial
  | .drain _ => isTrue trivial

instance (st : State) : DecidablePred (Justified st)
  | .go v =>
    match h : st.pc v with
    | .acquiring s =>
      decidable_of_iff (Evidence s v (st.owner s) st.log) (by simp only [Justified, h])
    | .idle | .releasing _ | .telling _ | .draining _ | .drainTelling _ | .testing _ =>
      isTrue (by simp only [Justified, h])
  | .request _ _ => isTrue trivial
  | .pause => isTrue trivial
  | .signal _ _ => isTrue trivial
  | .serve _ _ => isTrue trivial
  | .news _ => isTrue trivial
  | .drain _ => isTrue trivial

/-! ## The loops as uninterrupted runs

A loop that nobody interrupts does what the atomic model lets it do in one step.
-/

section

variable {D : Type} {w : ℕ}

open WorkingCore

/-- The variables are those of the atomic model. -/
structure Matches (st : State) (h : Handover D) : Prop where
  /-- owners -/
  owner : ∀ s, st.owner s = (h.shards s).owner
  /-- new owners -/
  ownerNew : ∀ s, st.ownerNew s = (h.shards s).ownerNew
  /-- pauses -/
  pause : ∀ s, st.pause s = (h.shards s).pause
  /-- news of releases -/
  hadChanges : st.hadChanges = h.hadChanges

namespace Matches

variable {h : Handover D}

theorem goto (hm : Matches st h) (v : ℕ) (l : Pc) : Matches (st.goto v l) h :=
  ⟨hm.owner, hm.ownerNew, hm.pause, hm.hadChanges⟩

theorem release (hm : Matches st h) (s v : ℕ) :
    Matches ((st.release s v).tell s) (WorkingCore.release s h) := by
  refine ⟨fun s' => ?_, fun s' => ?_, fun s' => ?_, ?_⟩
  rotate_right
  · simp only [WorkingCore.release, State.tell, State.release, hm.hadChanges, hm.ownerNew]
  all_goals
    simp only [WorkingCore.release, updateShard, State.tell, State.release]
    by_cases hs : s' = s
  · subst hs
    rw [Function.update_self]
    exact hm.owner s'
  · rw [Function.update_of_ne hs]
    exact hm.owner s'
  · subst hs
    rw [Function.update_self]
    exact hm.ownerNew s'
  · rw [Function.update_of_ne hs]
    exact hm.ownerNew s'
  · subst hs
    rw [Function.update_self, Function.update_self]
  · rw [Function.update_of_ne hs, Function.update_of_ne hs]
    exact hm.pause s'

theorem acquire (hm : Matches st h) (s v : ℕ) :
    Matches ((st.forget s).take s v) (WorkingCore.acquire v s h) := by
  refine ⟨fun s' => ?_, fun s' => ?_, fun s' => ?_, hm.hadChanges⟩
  all_goals
    simp only [WorkingCore.acquire, updateShard, State.take, State.forget]
    by_cases hs : s' = s
  · subst hs
    rw [Function.update_self, Function.update_self]
  · rw [Function.update_of_ne hs, Function.update_of_ne hs]
    exact hm.owner s'
  · subst hs
    rw [Function.update_self, Function.update_self]
  · rw [Function.update_of_ne hs, Function.update_of_ne hs]
    exact hm.ownerNew s'
  · subst hs
    rw [Function.update_self]
    exact hm.pause s'
  · rw [Function.update_of_ne hs]
    exact hm.pause s'

end Matches

/-- The loop of `transfer_shard`, shard by shard. -/
theorem goes_releaseOwned {h : Handover D} {s : ℕ} (hm : Matches st h) (hs : s < cfg.totalShards)
    (hpc : st.pc w = .releasing s) : ∃ st', GoesTo (step cfg) (.go w) st st' ∧
      Matches st' (releaseOwned w s h) ∧ st'.pc w = .releasing (s + 1) := by
  by_cases ho : st.owner s = w ∧ st.ownerNew s ≠ uint32Max
  · have h₁ : go cfg w st = (st.release s w).goto w (.telling s) := by
      simp only [go, hpc, if_pos hs, if_pos ho]
    have h₂ : go cfg w ((st.release s w).goto w (.telling s)) =
        ((st.release s w).tell s).goto w (.releasing (s + 1)) := by
      simp only [go, State.goto, State.tell, Function.update_self, Function.update_idem]
    refine ⟨_, .head h₁ (.one h₂), ?_, Function.update_self ..⟩
    rw [hm.owner, hm.ownerNew] at ho
    rw [releaseOwned, if_pos ho]
    exact (hm.release s w).goto w _
  · have h₁ : go cfg w st = st.goto w (.releasing (s + 1)) := by
      simp only [go, hpc, if_pos hs, if_neg ho]
    refine ⟨_, .one h₁, ?_, Function.update_self ..⟩
    rw [hm.owner, hm.ownerNew] at ho
    rw [releaseOwned, if_neg ho]
    exact hm.goto w _

/-- The first test of the drained branch. -/
theorem goes_drainedRelease {h : Handover D} {s : ℕ} (hm : Matches st h)
    (hs : s < cfg.totalShards) (hpc : st.pc w = .draining s) :
    ∃ st', GoesTo (step cfg) (.go w) st st' ∧
      Matches st' (drainedRelease w s h) ∧ st'.pc w = .testing s := by
  by_cases ho : st.pause s = true ∧ st.owner s = w ∧ st.ownerNew s ≠ uint32Max
  · have h₁ : go cfg w st = (st.release s w).goto w (.drainTelling s) := by
      simp only [go, hpc, if_pos hs, if_pos ho]
    have h₂ : go cfg w ((st.release s w).goto w (.drainTelling s)) =
        ((st.release s w).tell s).goto w (.testing s) := by
      simp only [go, State.goto, State.tell, Function.update_self, Function.update_idem]
    refine ⟨_, .head h₁ (.one h₂), ?_, Function.update_self ..⟩
    rw [hm.pause, hm.owner, hm.ownerNew] at ho
    rw [drainedRelease, if_pos ho]
    exact (hm.release s w).goto w _
  · have h₁ : go cfg w st = st.goto w (.testing s) := by
      simp only [go, hpc, if_pos hs, if_neg ho]
    refine ⟨_, .one h₁, ?_, Function.update_self ..⟩
    rw [hm.pause, hm.owner, hm.ownerNew] at ho
    rw [drainedRelease, if_neg ho]
    exact hm.goto w _

/-- The second test of the drained branch. -/
theorem goes_drainedAcquire {h : Handover D} {s : ℕ} (hm : Matches st h)
    (hpc : st.pc w = .testing s) : ∃ st', GoesTo (step cfg) (.go w) st st' ∧
      Matches st' (drainedAcquire w s h) ∧ st'.pc w = .draining (s + 1) := by
  by_cases ho : st.pause s = false ∧ st.ownerNew s = w
  · have h₁ : go cfg w st = (st.forget s).goto w (.acquiring s) := by
      simp only [go, hpc, if_pos ho]
    have h₂ : go cfg w ((st.forget s).goto w (.acquiring s)) =
        ((st.forget s).take s w).goto w (.draining (s + 1)) := by
      simp only [go, State.goto, State.take, Function.update_self, Function.update_idem]
    refine ⟨_, .head h₁ (.one h₂), ?_, Function.update_self ..⟩
    rw [hm.pause, hm.ownerNew] at ho
    rw [drainedAcquire, if_pos ho]
    exact (hm.acquire s w).goto w _
  · have h₁ : go cfg w st = st.goto w (.draining (s + 1)) := by
      simp only [go, hpc, if_neg ho]
    refine ⟨_, .one h₁, ?_, Function.update_self ..⟩
    rw [hm.pause, hm.ownerNew] at ho
    rw [drainedAcquire, if_neg ho]
    exact hm.goto w _

/-- A loop over the shards whose iterations the core carries out. -/
theorem goes_loop (cfg : Cfg) {f : ℕ → Handover D → Handover D} {l : ℕ → Pc}
    (hf : ∀ s < cfg.totalShards, ∀ st h, Matches st h → st.pc w = l s →
      ∃ st', GoesTo (step cfg) (.go w) st st' ∧ Matches st' (f s h) ∧ st'.pc w = l (s + 1))
    {h : Handover D} (hm : Matches st h) (hpc : st.pc w = l 0) :
    ∃ st', GoesTo (step cfg) (.go w) st st' ∧ Matches st' (forRange cfg.totalShards f h) ∧
      st'.pc w = l cfg.totalShards := by
  refine forRange_rule (fun i h' => ∃ st', GoesTo (step cfg) (.go w) st st' ∧ Matches st' h' ∧
    st'.pc w = l i) ⟨st, .refl st, hm, hpc⟩ ?_
  rintro i hi h' ⟨st₁, hgo, hm₁, hpc₁⟩
  obtain ⟨st₂, hgo', hm₂, hpc₂⟩ := hf i hi st₁ h' hm₁ hpc₁
  exact ⟨st₂, hgo.trans hgo', hm₂, hpc₂⟩

/-- The state both models start from. -/
theorem start_matches [Double D] (cfg : Cfg) :
    Matches (start cfg) ⟨(init D cfg).shards, (init D cfg).hadChanges⟩ :=
  ⟨fun _ => rfl, fun _ => rfl, fun _ => rfl, rfl⟩

/-- **The loop of `transfer_shard` is an uninterrupted run.** -/
theorem goes_releaseAll {σ : Sys D} (hm : Matches st ⟨σ.shards, σ.hadChanges⟩)
    (hpc : st.pc w = .releasing 0) : ∃ st', GoesTo (step cfg) (.go w) st st' ∧
      Matches st' ⟨(releaseAll cfg w σ).shards, (releaseAll cfg w σ).hadChanges⟩ ∧
        st'.pc w = .idle := by
  obtain ⟨st₁, hgo, hm₁, hpc₁⟩ := goes_loop cfg (f := releaseOwned w)
    (fun s hs st h hm hpc => goes_releaseOwned hm hs hpc) hm hpc
  have hend : go cfg w st₁ = { st₁.goto w .idle with
      transferShard := Function.update st₁.transferShard w false } := by
    simp only [go, hpc₁, if_neg (Nat.lt_irrefl _)]
  exact ⟨_, hgo.trans (.one hend),
    ⟨hm₁.owner, hm₁.ownerNew, hm₁.pause, hm₁.hadChanges⟩, Function.update_self ..⟩

/-- **The drained branch is an uninterrupted run.** -/
theorem goes_drained {σ : Sys D} (hm : Matches st ⟨σ.shards, σ.hadChanges⟩)
    (hpc : st.pc w = .draining 0) : ∃ st', GoesTo (step cfg) (.go w) st st' ∧
      Matches st' ⟨(drained cfg w σ).shards, (drained cfg w σ).hadChanges⟩ ∧
        st'.pc w = .idle := by
  obtain ⟨st₁, hgo, hm₁, hpc₁⟩ := goes_loop cfg
    (f := fun s h => drainedAcquire w s (drainedRelease w s h))
    (fun s hs st h hm hpc => by
      obtain ⟨st₁, hgo, hm₁, hpc₁⟩ := goes_drainedRelease hm hs hpc
      obtain ⟨st₂, hgo', hm₂, hpc₂⟩ := goes_drainedAcquire hm₁ hpc₁
      exact ⟨st₂, hgo.trans hgo', hm₂, hpc₂⟩) hm hpc
  have hend : go cfg w st₁ = st₁.goto w .idle := by
    simp only [go, hpc₁, if_neg (Nat.lt_irrefl _)]
  exact ⟨_, hgo.trans (.one hend), hm₁.goto w _, Function.update_self ..⟩

end

/-! ## What goes wrong -/

/-- Core 0 has worked off its ring before any shard was ever moved. -/
def grabRun : List Act := [.serve 0 true, .drain 0, .go 0, .go 0, .go 0, .go 0, .go 0, .go 0]

/-- Core 0 makes itself the owner of both shards, though none was requested for it. -/
theorem grabRun_unjustified :
    Along (step (Small.router 1)) (Possible (Small.router 1)) (start (Small.router 1)) grabRun ∧
      ¬ Along (step (Small.router 1)) Justified (start (Small.router 1)) grabRun := by
  decide +kernel

/-- Shard 0 is requested for core 1, released by core 0, then acquired. -/
def dueRun : List Act :=
  [.request 0 1, .pause, .signal 0 1, .serve 0 false, .go 0, .go 0, .go 0, .go 0,
    .serve 1 true, .drain 1, .go 1, .go 1, .go 1]

theorem dueRun_justified :
    Along (step (Small.router 1)) Justified (start (Small.router 1)) dueRun :=
  acquired_of_careful (by decide +kernel)

end Ownership

end Fajita
