import Fajita.Rotation

/-!
# When the generator sends

`get_packet` says which packet comes next; whether one comes is up to `pull`, the task, the timer
and the write handlers.

* Since a restart no more than `LIMIT` packets are sent, whatever else happens: `pull` counts them,
  and only `reset` and `active` set the count back (`limit_kept`).
* The task goes back on the schedule only if it has got a packet, and otherwise the timer brings it
  back only if there is a `RATE`. So a generator without one that has found nothing to send, because
  it was inactive or at its limit, has stopped for good: `reset`, `active` and `limit` change what
  `pull` would do, but nobody calls it (`silent_after_idle`). With a `RATE` it always comes back
  (`awake_of_rate`), and then can be made to send (`sends_again_iff`).

Two handlers are not among the events. `rate` changes when an update of the rate is due, which is
part of what a call of `pull` finds. `length` initializes the task a second time, and what becomes
of its place on the schedule is up to the framework.
-/

namespace Fajita

namespace FastUdp

variable {M Ref : Type}

/-! ## The element -/

/-- `NO_LIMIT` -/
def noLimit : UInt32 := 0xFFFFFFFF

/-- What a call of `pull` finds. -/
structure Tick where
  /-- `click_jiffies()` -/
  jiffies : UInt32
  /-- `_rate.need_update(Timestamp::now())` -/
  due : Bool

/-- How the element has been set up. -/
structure Pace where
  /-- `_rate_limited`: `RATE` is not 0 -/
  rateLimited : Bool
  /-- `output_is_push(0)` -/
  push : Bool
  /-- `in_batch_mode` -/
  batch : Bool

/-- The element that sends. -/
structure Sender (M Ref : Type) where
  /-- what `get_packet` works on, and what it has returned -/
  run : Run M Ref
  /-- `_active` -/
  active : Bool
  /-- `_limit` -/
  limit : UInt32
  /-- `_stop` -/
  stop : Bool
  /-- `_count` -/
  count : UInt32
  /-- `_first` -/
  first : UInt32
  /-- `_last` -/
  last : UInt32
  /-- `_task` is on the schedule -/
  scheduled : Bool
  /-- `_timer` is set -/
  timer : Bool
  /-- history: the packets that had been sent at the last restart -/
  before : ℕ
  /-- history: the calls of `please_stop_driver` -/
  stops : ℕ

/-- What happens next. -/
inductive Event
  /-- the task runs; `ticks` are what its calls of `pull` find -/
  | task (ticks : ℕ → Tick)
  /-- the timer expires -/
  | timer
  /-- downstream calls `pull` -/
  | pull (tick : Tick)
  /-- downstream gives up the `i`-th of the packets that it holds -/
  | kill (i : ℕ)
  /-- `reset` is written -/
  | reset
  /-- `active` is written -/
  | active (active : Bool)
  /-- `limit` is written -/
  | limit (limit : Int32)
  /-- `stop` is written -/
  | stop (stop : Bool)

variable (cfg : Config) (click : Click M Ref) (pace : Pace)

namespace Sender

/-- The last lines of `pull`, for a packet. -/
def counted (jiffies : UInt32) (run : Run M Ref) (t : Sender M Ref) : Sender M Ref :=
  let count := t.count + 1
  let full : Bool := t.limit ≠ noLimit ∧ t.limit ≤ count
  { t with
    run := run
    count := count
    first := if count = 1 then jiffies else t.first
    last := if full then jiffies else t.last
    stops := if full && t.stop then t.stops + 1 else t.stops }

/-- `pull`, and whether it returns a packet. -/
def pull (tick : Tick) (t : Sender M Ref) : Option (Bool × Sender M Ref) :=
  if t.active = false ∨ t.limit ≠ noLimit ∧ t.limit ≤ t.count then some (false, t)
  else if pace.rateLimited && !tick.due then some (false, t)
  else (Run.step cfg click .get t.run).map fun run => (true, t.counted tick.jiffies run)

/-- `MAKE_BATCH(pull(0), batch, n)`, and how many packets the batch has: it ends with the first call
that returns none. -/
def pullUpTo : ℕ → (ℕ → Tick) → Sender M Ref → Option (ℕ × Sender M Ref)
  | 0, _, t => some (0, t)
  | n + 1, ticks, t =>
    (pull cfg click pace (ticks 0) t).bind fun r =>
      if r.1 then (pullUpTo n (fun i => ticks (i + 1)) r.2).map fun u => (u.1 + 1, u.2)
      else some (0, r.2)

/-- `run_task`, for which the task has been taken off the schedule, and how many packets
it pushes. -/
def runTask (ticks : ℕ → Tick) (t : Sender M Ref) : Option (ℕ × Sender M Ref) :=
  (pullUpTo cfg click pace (if pace.batch then 32 else 1) ticks { t with scheduled := false }).map
    fun u =>
      if u.1 ≠ 0 then (u.1, { u.2 with scheduled := true })
      else if pace.rateLimited then (0, { u.2 with timer := true })
      else (0, u.2)

/-- `run_timer` -/
def runTimer (t : Sender M Ref) : Sender M Ref := { t with timer := false, scheduled := true }

/-- `reset` -/
def reset (t : Sender M Ref) : Sender M Ref :=
  { t with count := 0, first := 0, last := 0, before := t.run.out.length }

/-- `FastUDPFlows_active_write_handler` -/
def activeWrite (active : Bool) (t : Sender M Ref) : Sender M Ref :=
  if active then { t with active := active }.reset else { t with active := active }

/-- What `configure` and `FastUDPFlows_limit_write_handler` make of a limit. -/
def limitOf (limit : Int32) : UInt32 := if 0 ≤ limit then limit.toUInt32 else noLimit

/-- After `initialize` has left `s`. -/
def start (s : Gen M Ref) (active stop : Bool) (limit : Int32) : Sender M Ref where
  run := ⟨s, [], []⟩
  active := active
  limit := limitOf limit
  stop := stop
  count := 0
  first := 0
  last := 0
  scheduled := pace.push
  timer := false
  before := 0
  stops := 0

/-- One event, if it can happen: the task runs when it is on the schedule, the timer expires when it
has been set, and downstream pulls if the output is a pull. -/
def step : Event → Sender M Ref → Option (Sender M Ref)
  | .task ticks, t => if t.scheduled then (t.runTask cfg click pace ticks).map Prod.snd else none
  | .timer, t => if t.timer then some t.runTimer else none
  | .pull tick, t => if pace.push then none else (t.pull cfg click pace tick).map Prod.snd
  | .kill i, t => (Run.step cfg click (.kill i) t.run).map fun run => { t with run := run }
  | .reset, t => some t.reset
  | .active active, t => some (t.activeWrite active)
  | .limit limit, t => some { t with limit := limitOf limit }
  | .stop stop, t => some { t with stop := stop }

variable {cfg click pace} {t t' : Sender M Ref} {n k : ℕ} {ticks : ℕ → Tick} {tick : Tick}
  {b : Bool}

/-! ## What a call of `pull` can do

Every call falls into one of a few cases, and the laws below are proved for the cases.
-/

/-- A call of `pull` returns nothing and changes nothing, or it counts a packet. -/
theorem pull_cases (h : t.pull cfg click pace tick = some (b, t')) :
    (b = false ∧ t' = t) ∨
      (b = true ∧ (t.limit = noLimit ∨ t.count < t.limit) ∧
        ∃ run, Run.step cfg click .get t.run = some run ∧ t' = t.counted tick.jiffies run) := by
  simp only [pull] at h
  split at h
  · obtain ⟨rfl, rfl⟩ := Prod.mk.inj (Option.some.inj h)
    exact .inl ⟨rfl, rfl⟩
  · next hopen =>
    split at h
    · obtain ⟨rfl, rfl⟩ := Prod.mk.inj (Option.some.inj h)
      exact .inl ⟨rfl, rfl⟩
    · obtain ⟨run, hrun, hcounted⟩ := Option.map_eq_some_iff.mp h
      obtain ⟨rfl, rfl⟩ := Prod.mk.inj hcounted
      refine .inr ⟨rfl, ?_, run, hrun, rfl⟩
      by_contra hnot
      obtain ⟨hlimit, hcount⟩ := not_or.mp hnot
      exact hopen (.inr ⟨hlimit, UInt32.not_lt.mp hcount⟩)

/-- `get_packet` returns one packet. -/
theorem out_get {run run' : Run M Ref} (h : Run.step cfg click .get run = some run') :
    run'.out.length = run.out.length + 1 := by
  obtain ⟨g, -, rfl⟩ := Option.map_eq_some_iff.mp h
  rw [List.length_append, List.length_singleton]

/-- Giving up a packet returns none. -/
theorem out_kill {run run' : Run M Ref} {i : ℕ}
    (h : Run.step cfg click (.kill i) run = some run') : run'.out = run.out := by
  simp only [Run.step] at h
  split at h <;> obtain rfl := Option.some.inj h <;> rfl

/-- What counting a packet keeps, a batch keeps. -/
theorem pullUpTo_inv {I : Sender M Ref → Prop}
    (hcount : ∀ t jiffies run, I t → (t.limit = noLimit ∨ t.count < t.limit) →
      Run.step cfg click .get t.run = some run → I (t.counted jiffies run))
    (h : pullUpTo cfg click pace n ticks t = some (k, t')) (ht : I t) : I t' := by
  induction n generalizing ticks t k with
  | zero =>
    obtain ⟨-, rfl⟩ := Prod.mk.inj (Option.some.inj h)
    exact ht
  | succ n ih =>
    obtain ⟨⟨b, u⟩, hpull, hrest⟩ := Option.bind_eq_some_iff.mp h
    obtain ⟨rfl, rfl⟩ | ⟨rfl, hlimit, run, hrun, rfl⟩ := pull_cases hpull
    · obtain ⟨-, rfl⟩ := Prod.mk.inj (Option.some.inj hrest)
      exact ht
    · obtain ⟨⟨k', u'⟩, hbatch, heq⟩ := Option.map_eq_some_iff.mp hrest
      obtain ⟨-, rfl⟩ := Prod.mk.inj heq
      exact ih hbatch (hcount t _ run ht hlimit hrun)

/-! ## The limit

While no limit above `L` is in force, the count stays at or below `L`, and it is the number of the
packets since the last restart: `Counts` is the invariant. A limit that is set below the count does
not undo it, so the bound is the largest limit that has been in force.
-/

/-- The count is right, and has not passed the limits so far. -/
structure Counts (L : ℕ) (t : Sender M Ref) : Prop where
  /-- the limit in force -/
  limit : t.limit.toNat ≤ L
  /-- the count -/
  count : t.count.toNat ≤ L
  /-- counts the packets since the last restart -/
  sent : t.run.out.length = t.before + t.count.toNat

/-- An event that sets no limit above `L`. -/
def Limited (L : ℕ) : Event → Prop
  | .limit limit => (limitOf limit).toNat ≤ L
  | _ => True

/-- Counting a packet below the limit. -/
theorem Counts.counted {L : ℕ} (hL : L < noLimit.toNat) (h : Counts L t) {jiffies : UInt32}
    {run : Run M Ref} (hlimit : t.limit = noLimit ∨ t.count < t.limit)
    (hrun : Run.step cfg click .get t.run = some run) : Counts L (t.counted jiffies run) := by
  have hbelow : t.count.toNat < t.limit.toNat := by
    rcases hlimit with hno | hlt
    · exact absurd h.limit (Nat.not_le.mpr (by rw [hno]; exact hL))
    · exact UInt32.lt_iff_toNat_lt.mp hlt
  have hlt := t.limit.toNat_lt
  have hlimit := h.limit
  have hcount : (t.count + 1).toNat = t.count.toNat + 1 := by
    rw [UInt32.toNat_add, UInt32.toNat_one, Nat.mod_eq_of_lt (by omega)]
  refine ⟨h.limit, ?_, ?_⟩
  · change (t.count + 1).toNat ≤ L
    omega
  · change run.out.length = t.before + (t.count + 1).toNat
    rw [out_get hrun, h.sent, hcount, Nat.add_assoc]

/-- A restart counts from 0. -/
theorem Counts.reset {L : ℕ} (h : Counts L t) : Counts L t.reset :=
  ⟨h.limit, Nat.zero_le L, rfl⟩

/-- **A task keeps the count**, as each call of `pull` does. -/
theorem Counts.runTask {L : ℕ} (hL : L < noLimit.toNat) (h : Counts L t)
    (htask : t.runTask cfg click pace ticks = some (k, t')) : Counts L t' := by
  obtain ⟨⟨k', u⟩, hbatch, heq⟩ := Option.map_eq_some_iff.mp htask
  have hu : Counts L u :=
    pullUpTo_inv (fun _ _ _ ht hlimit hrun => ht.counted hL hlimit hrun) hbatch
      ⟨h.limit, h.count, h.sent⟩
  dsimp only at heq
  split at heq
  · obtain ⟨-, rfl⟩ := Prod.mk.inj heq
    exact ⟨hu.limit, hu.count, hu.sent⟩
  · split at heq <;> obtain ⟨-, rfl⟩ := Prod.mk.inj heq <;>
      exact ⟨hu.limit, hu.count, hu.sent⟩

/-- **Every event keeps the count.** -/
theorem Counts.step {L : ℕ} (hL : L < noLimit.toNat) (h : Counts L t) {e : Event}
    (he : Limited L e) (hstep : Sender.step cfg click pace e t = some t') : Counts L t' := by
  cases e with
  | task ticks =>
    simp only [Sender.step] at hstep
    split at hstep
    · obtain ⟨⟨k, u⟩, htask, rfl⟩ := Option.map_eq_some_iff.mp hstep
      exact h.runTask hL htask
    · cases hstep
  | timer =>
    simp only [Sender.step] at hstep
    split at hstep
    · obtain rfl := Option.some.inj hstep
      exact ⟨h.limit, h.count, h.sent⟩
    · cases hstep
  | pull tick =>
    simp only [Sender.step] at hstep
    split at hstep
    · cases hstep
    · obtain ⟨⟨b, u⟩, hpull, rfl⟩ := Option.map_eq_some_iff.mp hstep
      obtain ⟨-, rfl⟩ | ⟨-, hlimit, run, hrun, rfl⟩ := pull_cases hpull
      · exact h
      · exact h.counted hL hlimit hrun
  | kill i =>
    obtain ⟨run, hrun, rfl⟩ := Option.map_eq_some_iff.mp hstep
    exact ⟨h.limit, h.count, (congrArg List.length (out_kill hrun)).trans h.sent⟩
  | reset =>
    obtain rfl := Option.some.inj hstep
    exact h.reset
  | active active =>
    obtain rfl := Option.some.inj hstep
    rw [activeWrite]
    split
    · exact Counts.reset ⟨h.limit, h.count, h.sent⟩
    · exact ⟨h.limit, h.count, h.sent⟩
  | limit limit =>
    obtain rfl := Option.some.inj hstep
    exact ⟨he, h.count, h.sent⟩
  | stop stop =>
    obtain rfl := Option.some.inj hstep
    exact ⟨h.limit, h.count, h.sent⟩

/-- **The limit is kept**: whatever happens, no more packets are sent since the last restart than
the largest limit that has been in force. -/
theorem limit_kept {L : ℕ} (hL : L < noLimit.toNat) {s : Gen M Ref} {active stop : Bool}
    {limit : Int32} (hlimit : (limitOf limit).toNat ≤ L) {es : List Event}
    (hes : ∀ e ∈ es, Limited L e)
    (h : tryAll (step cfg click pace) es (start pace s active stop limit) = some t) :
    t.run.out.length ≤ t.before + L := by
  have hstart : Counts L (start pace s active stop limit) := ⟨hlimit, Nat.zero_le L, rfl⟩
  have hcounts : Counts L t :=
    tryAll_inv (fun e he u u' hu hstep => hu.step hL (hes e he) hstep) hstart h
  rw [hcounts.sent]
  exact Nat.add_le_add_left hcounts.count _

/-! ## Coming back

With a push output nobody but the task calls `pull`. What brings the task back is the schedule or
the timer, and both are only ever set by the task and the timer themselves; no handler touches them.
-/

/-- What a task leaves: it is on the schedule again if it has pushed something, and otherwise the
timer is set if there is a `RATE`. -/
theorem runTask_schedule (h : t.runTask cfg click pace ticks = some (k, t')) :
    t'.scheduled = decide (k ≠ 0) ∧
      t'.timer = if k = 0 ∧ pace.rateLimited = true then true else t.timer := by
  obtain ⟨⟨m, u⟩, hbatch, heq⟩ := Option.map_eq_some_iff.mp h
  -- counting packets touches neither
  obtain ⟨hscheduled, htimer⟩ : u.scheduled = false ∧ u.timer = t.timer :=
    @pullUpTo_inv _ _ _ _ _ _ _ _ _ _ (fun u => u.scheduled = false ∧ u.timer = t.timer)
      (fun _ _ _ hu _ _ => hu) hbatch ⟨rfl, rfl⟩
  dsimp only at heq
  split at heq
  · next hsome =>
    obtain ⟨rfl, rfl⟩ := Prod.mk.inj heq
    exact ⟨(decide_eq_true hsome).symm, by rw [if_neg fun h => hsome h.1]; exact htimer⟩
  · split at heq
    · next hrate =>
      obtain ⟨rfl, rfl⟩ := Prod.mk.inj heq
      exact ⟨hscheduled, by rw [if_pos ⟨rfl, hrate⟩]⟩
    · next hrate =>
      obtain ⟨rfl, rfl⟩ := Prod.mk.inj heq
      exact ⟨hscheduled, by rw [if_neg fun h => hrate h.2]; exact htimer⟩

/-- **What an event can do** to an element with a push output: the task runs, or the timer brings it
back, or the schedule, the timer and what has been sent stay what they were. -/
theorem step_cases (hpush : pace.push = true) {e : Event}
    (h : step cfg click pace e t = some t') :
    (t.scheduled = true ∧ ∃ ticks k, t.runTask cfg click pace ticks = some (k, t')) ∨
      (t.timer = true ∧ t' = t.runTimer) ∨
      (t'.scheduled = t.scheduled ∧ t'.timer = t.timer ∧ t'.run.out = t.run.out) := by
  cases e with
  | task ticks =>
    simp only [step] at h
    split at h
    · next hscheduled =>
      obtain ⟨⟨k, u⟩, htask, rfl⟩ := Option.map_eq_some_iff.mp h
      exact .inl ⟨hscheduled, ticks, k, htask⟩
    · cases h
  | timer =>
    simp only [step] at h
    split at h
    · next htimer => exact .inr (.inl ⟨htimer, (Option.some.inj h).symm⟩)
    · cases h
  | pull tick =>
    rw [step, if_pos hpush] at h
    cases h
  | kill i =>
    obtain ⟨run, hrun, rfl⟩ := Option.map_eq_some_iff.mp h
    exact .inr (.inr ⟨rfl, rfl, out_kill hrun⟩)
  | reset =>
    obtain rfl := Option.some.inj h
    exact .inr (.inr ⟨rfl, rfl, rfl⟩)
  | active active =>
    obtain rfl := Option.some.inj h
    rw [activeWrite]
    split <;> exact .inr (.inr ⟨rfl, rfl, rfl⟩)
  | limit limit =>
    obtain rfl := Option.some.inj h
    exact .inr (.inr ⟨rfl, rfl, rfl⟩)
  | stop stop =>
    obtain rfl := Option.some.inj h
    exact .inr (.inr ⟨rfl, rfl, rfl⟩)

/-- **An element whose task is not on the schedule and whose timer is not set** never
sends again. -/
theorem idle_silent (hpush : pace.push = true) (hscheduled : t.scheduled = false)
    (htimer : t.timer = false) {es : List Event}
    (h : tryAll (step cfg click pace) es t = some t') : t'.run.out = t.run.out := by
  have hidle : (t'.scheduled = false ∧ t'.timer = false) ∧ t'.run.out = t.run.out := by
    refine tryAll_inv (P := fun u => (u.scheduled = false ∧ u.timer = false) ∧
      u.run.out = t.run.out) (fun e _ u u' hu hstep => ?_) ⟨⟨hscheduled, htimer⟩, rfl⟩ h
    obtain ⟨⟨hno, hnone⟩, hout⟩ := hu
    obtain ⟨hyes, -⟩ | ⟨hyes, -⟩ | ⟨hsame, hsame', hout'⟩ := step_cases hpush hstep
    · rw [hno] at hyes
      cases hyes
    · rw [hnone] at hyes
      cases hyes
    · exact ⟨⟨hsame.trans hno, hsame'.trans hnone⟩, hout'.trans hout⟩
  exact hidle.2

/-- **With a `RATE`** the task is on the schedule or the timer is set, in every run. -/
theorem awake_of_rate (hpush : pace.push = true) (hrate : pace.rateLimited = true) {s : Gen M Ref}
    {active stop : Bool} {limit : Int32} {es : List Event}
    (h : tryAll (step cfg click pace) es (start pace s active stop limit) = some t) :
    t.scheduled = true ∨ t.timer = true := by
  refine tryAll_inv (P := fun u => u.scheduled = true ∨ u.timer = true)
    (fun e _ u u' hu hstep => ?_) (.inl hpush) h
  obtain ⟨-, ticks, k, htask⟩ | ⟨-, rfl⟩ | ⟨hsame, hsame', -⟩ := step_cases hpush hstep
  · obtain ⟨hscheduled, htimer⟩ := runTask_schedule htask
    by_cases hk : k = 0
    · exact .inr (by rw [htimer, if_pos ⟨hk, hrate⟩])
    · exact .inl (hscheduled.trans (decide_eq_true hk))
  · exact .inl rfl
  · rw [hsame, hsame']
    exact hu

/-- **Without a `RATE`** a task that has pushed nothing was the last one: whatever is written to the
element afterwards, nothing is sent. -/
theorem silent_after_idle (hpush : pace.push = true) (hrate : pace.rateLimited = false)
    {s : Gen M Ref} {active stop : Bool} {limit : Int32} {es es' : List Event} {u : Sender M Ref}
    (h : tryAll (step cfg click pace) es (start pace s active stop limit) = some t)
    (htask : t.runTask cfg click pace ticks = some (0, t'))
    (h' : tryAll (step cfg click pace) es' t' = some u) : u.run.out = t'.run.out := by
  -- the timer is never set
  have htimer : t.timer = false := by
    refine tryAll_inv (P := fun u => u.timer = false) (fun e _ u u' hu hstep => ?_) rfl h
    obtain ⟨-, ticks, k, htask⟩ | ⟨hyes, -⟩ | ⟨-, hsame, -⟩ := step_cases hpush hstep
    · rw [(runTask_schedule htask).2, hrate, if_neg fun h => Bool.false_ne_true h.2]
      exact hu
    · rw [hu] at hyes
      cases hyes
    · exact hsame.trans hu
  obtain ⟨hscheduled, htimer'⟩ := runTask_schedule htask
  rw [hrate, if_neg fun h => Bool.false_ne_true h.2, htimer] at htimer'
  exact idle_silent hpush hscheduled htimer' h'

/-- A call of `pull` that nothing keeps from getting a packet. -/
theorem pull_open {run : Run M Ref} (hactive : t.active = true)
    (hlimit : ¬ (t.limit ≠ noLimit ∧ t.limit ≤ t.count)) (hdue : tick.due = true)
    (hget : Run.step cfg click .get t.run = some run) :
    t.pull cfg click pace tick = some (true, t.counted tick.jiffies run) := by
  have hopen : ¬ (t.active = false ∨ t.limit ≠ noLimit ∧ t.limit ≤ t.count) := by
    rw [hactive]
    exact fun h => hlimit (h.resolve_left (by decide))
  rw [pull, if_neg hopen, hdue, Bool.not_true, Bool.and_false, if_neg Bool.false_ne_true, hget,
    Option.map_some]

/-- A batch ends at the limit. -/
theorem pullUpTo_full (hlimit : t.limit ≠ noLimit ∧ t.limit ≤ t.count) :
    pullUpTo cfg click pace n ticks t = some (0, t) := by
  cases n with
  | zero => rfl
  | succ n => rw [pullUpTo, pull, if_pos (.inr hlimit), Option.bind_some, if_neg Bool.false_ne_true]

/-- What the task finds after a restart with a limit of 1. -/
def restarted (t : Sender M Ref) : Sender M Ref := { t with limit := 1, active := true }.reset

/-- The task of a restarted element sends one packet, if one is to be had. -/
theorem runTask_restarted {run : Run M Ref} (hget : Run.step cfg click .get t.run = some run) :
    t.restarted.runTask cfg click pace (fun _ => ⟨0, true⟩) =
      some (1, { t.restarted.counted 0 run with scheduled := true }) := by
  have hpull : pull cfg click pace ⟨0, true⟩ { t.restarted with scheduled := false } =
      some (true, { t.restarted.counted 0 run with scheduled := false }) :=
    pull_open rfl (show ¬ ((1 : UInt32) ≠ noLimit ∧ (1 : UInt32) ≤ 0) by decide) rfl hget
  have hfull : ∀ u : Sender M Ref, u.limit = 1 → u.count = 1 →
      u.limit ≠ noLimit ∧ u.limit ≤ u.count := by
    intro u hlimit hcount
    rw [hlimit, hcount]
    decide
  have hbatch : ∀ n, pullUpTo cfg click pace (n + 1) (fun _ => ⟨0, true⟩)
      { t.restarted with scheduled := false } =
        some (1, { t.restarted.counted 0 run with scheduled := false }) := by
    intro n
    rw [pullUpTo, hpull, Option.bind_some, if_pos rfl, pullUpTo_full (hfull _ rfl rfl),
      Option.map_some]
  rw [runTask]
  cases pace.batch with
  | true => rw [if_pos rfl, hbatch 31]; rfl
  | false => rw [if_neg Bool.false_ne_true, hbatch 0]; rfl

/-- A restart with a limit of 1 makes a task on the schedule send a packet, if one is to be had. -/
theorem restart_sends {run : Run M Ref} (hget : Run.step cfg click .get t.run = some run)
    (hscheduled : t.scheduled = true) :
    ∃ u, tryAll (step cfg click pace)
        [.limit 1, .active true, .task fun _ => ⟨0, true⟩] t = some u ∧
      u.run.out.length = t.run.out.length + 1 := by
  refine ⟨{ t.restarted.counted 0 run with scheduled := true }, ?_, out_get hget⟩
  have htask : step cfg click pace (.task fun _ => ⟨0, true⟩) t.restarted =
      some { t.restarted.counted 0 run with scheduled := true } := by
    rw [step, if_pos (show t.restarted.scheduled = true from hscheduled), runTask_restarted hget]
    rfl
  -- the two writes lead to `t.restarted`
  change tryAll (step cfg click pace) [.task fun _ => ⟨0, true⟩] t.restarted = _
  rw [tryAll_cons, htask, Option.bind_some, tryAll_nil]

/-- **With a push output, the element can be made to send** as long as its task is on the schedule
or its timer is set; otherwise nothing that is written to it makes it send. -/
theorem sends_again_iff (hpush : pace.push = true) {run : Run M Ref}
    (hget : Run.step cfg click .get t.run = some run) :
    (∃ es u, tryAll (step cfg click pace) es t = some u ∧
        t.run.out.length < u.run.out.length) ↔ t.scheduled = true ∨ t.timer = true := by
  constructor
  · rintro ⟨es, u, hrun, hlt⟩
    by_contra hnot
    obtain ⟨hscheduled, htimer⟩ := not_or.mp hnot
    have hsilent := idle_silent hpush (Bool.eq_false_iff.mpr hscheduled)
      (Bool.eq_false_iff.mpr htimer) hrun
    rw [hsilent] at hlt
    exact lt_irrefl _ hlt
  · intro h
    by_cases hscheduled : t.scheduled = true
    · obtain ⟨u, hrun, hlength⟩ := @restart_sends _ _ cfg click pace t run hget hscheduled
      exact ⟨_, u, hrun, by omega⟩
    · have htimer := h.resolve_left hscheduled
      obtain ⟨u, hrun, hlength⟩ := @restart_sends _ _ cfg click pace t.runTimer run hget rfl
      refine ⟨.timer :: [.limit 1, .active true, .task fun _ => ⟨0, true⟩], u, ?_, ?_⟩
      · rw [tryAll_cons, step, if_pos htimer, Option.bind_some]
        exact hrun
      · rw [hlength]
        exact Nat.lt_succ_self _

end Sender

/-! ## A small generator -/

namespace Small

/-- A push output without a `RATE`, in batches. -/
def pushing : Pace := ⟨false, true, true⟩

/-- A generator of two flows, with a limit of 0. -/
def waiting : Sender (Buffers Datagram) ℕ := Sender.start pushing (started 2 1) true false 0

/-- The first task of `waiting` is its last one: a limit that is set afterwards comes too late. -/
theorem waiting_silent : ∃ t u : Sender (Buffers Datagram) ℕ,
    waiting.runTask (config 2 1) packets pushing (fun _ => ⟨0, true⟩) = some (0, t) ∧
      tryAll (Sender.step (config 2 1) packets pushing) [.limit 5, .active true] t = some u ∧
        u.run.out = t.run.out := by
  have htask : waiting.runTask (config 2 1) packets pushing (fun _ => ⟨0, true⟩) =
      some (0, { waiting with scheduled := false }) := rfl
  have hwrites : tryAll (Sender.step (config 2 1) packets pushing) [.limit 5, .active true]
      { waiting with scheduled := false } =
        some { waiting with scheduled := false, limit := 5 } := rfl
  exact ⟨_, _, htask, hwrites, Sender.silent_after_idle rfl rfl (tryAll_nil ..) htask hwrites⟩

end Small

end FastUdp

end Fajita
