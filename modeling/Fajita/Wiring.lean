import Fajita.System

/-!
# Rings, frames and locality

The standing facts about the rings of a router, and the frames in which the
stages of a task are specified:

* `Wired` — each core's `q` and `myring` are its own two rings, nothing waits in
  the rings of a core that never receives, and the local queues of the shards are
  empty;
* `qItems`, `myItems` — the two own rings seen through the pointers;
* `LocalTo w` — everything of the cores other than `w` is left alone;
* `SameHandover`, `SameTraffic` — the hand-over state, or the packets, are left
  alone.
-/

namespace Fajita

variable {D : Type} {cfg : Cfg} {σ : Sys D} {w : ℕ}

/-- What waits in the ring towards the offloading core. -/
def Sys.qItems (σ : Sys D) (w : ℕ) : List Packet := (σ.ring (σ.worker w).q).items

/-- What waits in the core's own ring. -/
def Sys.myItems (σ : Sys D) (w : ℕ) : List Packet := (σ.ring (σ.worker w).myring).items

/-! ## Wiring -/

/-- The core's two ring pointers are its two rings, in either order. -/
def Worker.Paired (w : ℕ) (me : Worker) : Prop :=
  (me.q = .queue w ∧ me.myring = .ring w) ∨ (me.q = .ring w ∧ me.myring = .queue w)

namespace Worker.Paired

variable {me me' : Worker}

/-- Both rings of a core are its own. -/
theorem q_core (h : me.Paired w) : me.q.core = w := by
  rcases h with ⟨h, -⟩ | ⟨h, -⟩ <;> rw [h] <;> rfl

theorem myring_core (h : me.Paired w) : me.myring.core = w := by
  rcases h with ⟨-, h⟩ | ⟨-, h⟩ <;> rw [h] <;> rfl

/-- The two rings of a core are not the same. -/
theorem q_ne_myring (h : me.Paired w) : me.q ≠ me.myring := by
  rcases h with ⟨h, h'⟩ | ⟨h, h'⟩ <;> rw [h, h'] <;> simp

/-- Only the two pointers matter. -/
theorem congr (h : me.Paired w) (hq : me'.q = me.q) (hm : me'.myring = me.myring) :
    me'.Paired w := by
  rw [Worker.Paired, hq, hm]
  exact h

/-- The two pointers may change roles. -/
theorem swap (h : me.Paired w) (hq : me'.q = me.myring) (hm : me'.myring = me.q) :
    me'.Paired w := by
  rcases h with ⟨h, h'⟩ | ⟨h, h'⟩
  · exact Or.inr ⟨by rw [hq, h'], by rw [hm, h]⟩
  · exact Or.inl ⟨by rw [hq, h'], by rw [hm, h]⟩

end Worker.Paired

/-- The standing facts about rings and queues. -/
structure Wired (cfg : Cfg) (σ : Sys D) : Prop where
  /-- every core has its own two rings -/
  pair : ∀ w, (σ.worker w).Paired w
  /-- the static copy of `q` is up to date -/
  queues : ∀ w, σ.queues w = (σ.worker w).q
  /-- a core with burst 0 never receives -/
  idle : ∀ w, cfg.burst w = 0 → ∀ r : RingId, r.core = w → (σ.ring r).items = []
  /-- there is no core behind the other rings -/
  foreign : ∀ r : RingId, cfg.W ≤ r.core → (σ.ring r).items = []
  /-- nothing is ever put in a local queue -/
  noLocal : ∀ s, (σ.shards s).localQueue.items = []

/-- Rings of different cores are different. -/
theorem RingId.ne_of_core {v : ℕ} (hvw : v ≠ w) {r r' : RingId} (hr : r.core = v)
    (hr' : r'.core = w) : r ≠ r' := by
  rintro rfl
  exact hvw (hr.symm.trans hr')

namespace Wired

/-- A core can empty `q` burst by burst. -/
theorem burst_pos (h : Wired cfg σ) (hq : σ.qItems w ≠ []) : 0 < cfg.burst w := by
  rcases Nat.eq_zero_or_pos (cfg.burst w) with h0 | hpos
  · exact absurd (h.idle w h0 _ (h.pair w).q_core) hq
  · exact hpos

end Wired

/-! ## Frames

What a piece of a task leaves alone, in three sizes: everything of the other cores, the hand-over
state of the shards, the packets.
-/

/-- Going from `σ` to `σ'` leaves everything of the cores other than `w`, the
controller's tables and the NIC's redirection table alone. -/
structure LocalTo (w : ℕ) (σ σ' : Sys D) : Prop where
  /-- members of the other cores -/
  worker : ∀ v ≠ w, σ'.worker v = σ.worker v
  /-- static copies of the other cores' rings -/
  queues : ∀ v ≠ w, σ'.queues v = σ.queues v
  /-- contents of the other cores' rings -/
  ring : ∀ r : RingId, r.core ≠ w → σ'.ring r = σ.ring r
  /-- receive queues of the other cores -/
  rx : ∀ v ≠ w, σ'.rx v = σ.rx v
  /-- flags of the other cores -/
  transferR : ∀ v ≠ w, σ'.transferR v = σ.transferR v
  /-- flags of the other cores -/
  transferShard : ∀ v ≠ w, σ'.transferShard v = σ.transferShard v
  /-- flags of the other cores -/
  transferOffloading : ∀ v ≠ w, σ'.transferOffloading v = σ.transferOffloading v
  /-- flags of the other cores -/
  controllerSignal : ∀ v ≠ w, σ'.controllerSignal v = σ.controllerSignal v
  /-- requests to the other cores -/
  newOffloading : ∀ v ≠ w, σ'.newOffloadingFromWorking v = σ.newOffloadingFromWorking v
  /-- the offloading cores -/
  core : σ'.core = σ.core
  /-- the assignment -/
  A : σ'.A = σ.A
  /-- the relation -/
  O : σ'.O = σ.O
  /-- the controller's view of the relation -/
  offloadingFromWorking : σ'.offloadingFromWorking = σ.offloadingFromWorking
  /-- the table the controller builds -/
  retaConf : σ'.retaConf = σ.retaConf
  /-- the redirection table -/
  nicReta : σ'.nicReta = σ.nicReta

namespace LocalTo

variable {σ₁ σ₂ σ₃ : Sys D}

theorem refl (w : ℕ) (σ : Sys D) : LocalTo w σ σ := by constructor <;> intros <;> rfl

theorem trans (h : LocalTo w σ₁ σ₂) (h' : LocalTo w σ₂ σ₃) : LocalTo w σ₁ σ₃ where
  worker v hv := (h'.worker v hv).trans (h.worker v hv)
  queues v hv := (h'.queues v hv).trans (h.queues v hv)
  ring r hr := (h'.ring r hr).trans (h.ring r hr)
  rx v hv := (h'.rx v hv).trans (h.rx v hv)
  transferR v hv := (h'.transferR v hv).trans (h.transferR v hv)
  transferShard v hv := (h'.transferShard v hv).trans (h.transferShard v hv)
  transferOffloading v hv := (h'.transferOffloading v hv).trans (h.transferOffloading v hv)
  controllerSignal v hv := (h'.controllerSignal v hv).trans (h.controllerSignal v hv)
  newOffloading v hv := (h'.newOffloading v hv).trans (h.newOffloading v hv)
  core := h'.core.trans h.core
  A := h'.A.trans h.A
  O := h'.O.trans h.O
  offloadingFromWorking := h'.offloadingFromWorking.trans h.offloadingFromWorking
  retaConf := h'.retaConf.trans h.retaConf
  nicReta := h'.nicReta.trans h.nicReta

/-- The rings of the other cores, through their pointers. -/
theorem qItems (h : LocalTo w σ₁ σ₂) {v : ℕ} (hv : v ≠ w) (hp : (σ₁.worker v).Paired v) :
    σ₂.qItems v = σ₁.qItems v := by
  have hcore : (σ₁.worker v).q.core ≠ w := by rw [hp.q_core]; exact hv
  rw [Sys.qItems, h.worker v hv, h.ring _ hcore, Sys.qItems]

/-- Local steps leave what waits in the other cores' own rings. -/
theorem myItems (h : LocalTo w σ₁ σ₂) {v : ℕ} (hv : v ≠ w) (hp : (σ₁.worker v).Paired v) :
    σ₂.myItems v = σ₁.myItems v := by
  have hcore : (σ₁.worker v).myring.core ≠ w := by rw [hp.myring_core]; exact hv
  rw [Sys.myItems, h.worker v hv, h.ring _ hcore, Sys.myItems]

end LocalTo

/-- The hand-over state is left alone. -/
structure SameHandover (σ σ' : Sys D) : Prop where
  /-- owners -/
  owner : ∀ s, (σ'.shards s).owner = (σ.shards s).owner
  /-- new owners -/
  ownerNew : ∀ s, (σ'.shards s).ownerNew = (σ.shards s).ownerNew
  /-- pauses -/
  pause : ∀ s, (σ'.shards s).pause = (σ.shards s).pause
  /-- local queues -/
  localQueue : ∀ s, (σ'.shards s).localQueue = (σ.shards s).localQueue

namespace SameHandover

variable {σ₁ σ₂ σ₃ : Sys D}

theorem refl (σ : Sys D) : SameHandover σ σ := by constructor <;> intros <;> rfl

theorem trans (h : SameHandover σ₁ σ₂) (h' : SameHandover σ₂ σ₃) : SameHandover σ₁ σ₃ where
  owner s := (h'.owner s).trans (h.owner s)
  ownerNew s := (h'.ownerNew s).trans (h.ownerNew s)
  pause s := (h'.pause s).trans (h.pause s)
  localQueue s := (h'.localQueue s).trans (h.localQueue s)

/-- The hand-over state is a part of the shards. -/
theorem of_shards {σ σ' : Sys D} (h : σ'.shards = σ.shards) : SameHandover σ σ' := by
  constructor <;> intro s <;> rw [h]

/-- The hand-over state is a part of the settings of the shards. -/
theorem of_settings {σ σ' : Sys D} (h : ∀ s, (σ'.shards s).settings = (σ.shards s).settings) :
    SameHandover σ σ' where
  owner s := congrArg Settings.owner (h s)
  ownerNew s := congrArg Settings.ownerNew (h s)
  pause s := congrArg Settings.pause (h s)
  localQueue s := congrArg Settings.localQueue (h s)

end SameHandover

/-- No packet moves. -/
structure SameTraffic (σ σ' : Sys D) : Prop where
  /-- receive queues -/
  rx : σ'.rx = σ.rx
  /-- rings -/
  ring : σ'.ring = σ.ring
  /-- history of receptions -/
  received : σ'.received = σ.received
  /-- history of transmissions -/
  transmitted : σ'.transmitted = σ.transmitted
  /-- history of losses -/
  lost : σ'.lost = σ.lost

namespace SameTraffic

variable {σ₁ σ₂ σ₃ : Sys D}

theorem refl (σ : Sys D) : SameTraffic σ σ := by constructor <;> rfl

theorem trans (h : SameTraffic σ₁ σ₂) (h' : SameTraffic σ₂ σ₃) : SameTraffic σ₁ σ₃ where
  rx := h'.rx.trans h.rx
  ring := h'.ring.trans h.ring
  received := h'.received.trans h.received
  transmitted := h'.transmitted.trans h.transmitted
  lost := h'.lost.trans h.lost

end SameTraffic

/-- A change that moves no packet, no ring pointer and no local queue keeps the wiring. -/
theorem Wired.of_same {σ' : Sys D} (h : Wired cfg σ) (hring : σ'.ring = σ.ring)
    (hworker : ∀ v, (σ'.worker v).q = (σ.worker v).q ∧ (σ'.worker v).myring = (σ.worker v).myring)
    (hqueues : σ'.queues = σ.queues)
    (hlocal : ∀ s, (σ'.shards s).localQueue = (σ.shards s).localQueue) : Wired cfg σ' where
  pair v := (h.pair v).congr (hworker v).1 (hworker v).2
  queues v := by rw [hqueues, h.queues, (hworker v).1]
  idle := by rw [hring]; exact h.idle
  foreign := by rw [hring]; exact h.foreign
  noLocal s := by rw [hlocal, h.noLocal]

/-- A task of core `w` keeps the wiring if it keeps that of `w`. -/
theorem Wired.of_localTo {σ' : Sys D} (h : Wired cfg σ) (hw : w < cfg.W) (hl : LocalTo w σ σ')
    (hpair : (σ'.worker w).Paired w) (hqueues : σ'.queues w = (σ'.worker w).q)
    (hidle : cfg.burst w = 0 → ∀ r : RingId, r.core = w → (σ'.ring r).items = [])
    (hlocal : ∀ s, (σ'.shards s).localQueue = (σ.shards s).localQueue) : Wired cfg σ' where
  pair v := by
    by_cases hv : v = w
    · subst hv
      exact hpair
    · rw [hl.worker v hv]
      exact h.pair v
  queues v := by
    by_cases hv : v = w
    · subst hv
      exact hqueues
    · rw [hl.worker v hv, hl.queues v hv]
      exact h.queues v
  idle v h0 r hr := by
    by_cases hv : v = w
    · subst hv
      exact hidle h0 r hr
    · rw [hl.ring r (by rw [hr]; exact hv)]
      exact h.idle v h0 r hr
  foreign r hr := by
    have hne : r.core ≠ w := by omega
    rw [hl.ring r hne]
    exact h.foreign r hr
  noLocal s := by rw [hlocal, h.noLocal]

/-! ## The initial state -/

/-- The system starts wired. -/
theorem wired_init [Double D] : Wired cfg (init D cfg) where
  pair _ := Or.inl ⟨rfl, rfl⟩
  queues _ := rfl
  idle _ _ _ _ := rfl
  foreign _ _ := rfl
  noLocal _ := rfl

end Fajita
