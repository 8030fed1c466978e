import Fajita.Steps
import Mathlib.Data.List.Perm.Basic

/-!
# Taking packets back

What waits in `q` for the offloading core goes back to the core before a ratio or an offloading
core changes, and before a shard is handed over. Whether packets get out of order is a question
about two places, the ring `q` and the NIC queue, of which `q` has the older packets.

`transfer_r` and `transfer_offloading` leave the NIC queue alone: `takenBack` says that the tasks
that follow push what was in `q`, in order, before they read from it. `transfer_shard` empties the
NIC queue first and `q` after it, and `transferShard_inOrder_iff` says what comes of it.
-/

namespace Fajita

/-! ## Order for each key

Packets of different flows may overtake each other. Two lists are the same for this purpose if, key
by key, they have the same items in the same order.
-/

section Order

variable {α κ : Type} [DecidableEq κ] {key : α → κ} {xs ys : List α}

/-- The items of each key are in the same order. -/
def SameOrder (key : α → κ) (xs ys : List α) : Prop :=
  ∀ k, xs.filter (fun x => key x = k) = ys.filter (fun x => key x = k)

/-- Lists with the items of each key in the same order have the same items. -/
theorem SameOrder.perm [DecidableEq α] (h : SameOrder key xs ys) : xs.Perm ys := by
  refine List.perm_iff_count.mpr fun x => ?_
  have hx : decide (key x = key x) = true := decide_eq_true rfl
  rw [← List.count_filter (p := fun y => key y = key x) hx, h,
    List.count_filter (p := fun y => key y = key x) hx]

/-- Two lists may change places exactly if no key is in both. -/
theorem sameOrder_swap_iff (hnodup : (xs ++ ys).Nodup) :
    SameOrder key (ys ++ xs) (xs ++ ys) ↔ ∀ x ∈ xs, ∀ y ∈ ys, key x ≠ key y := by
  constructor
  · intro h x hx y hy hkey
    have hk := h (key x)
    rw [List.filter_append, List.filter_append] at hk
    have hx' : x ∈ xs.filter fun z => key z = key x :=
      List.mem_filter.mpr ⟨hx, decide_eq_true rfl⟩
    have hy' : y ∈ ys.filter fun z => key z = key x :=
      List.mem_filter.mpr ⟨hy, decide_eq_true hkey.symm⟩
    -- the first item of the key would be in both lists
    obtain ⟨a, as, ha⟩ := List.exists_cons_of_ne_nil (List.ne_nil_of_mem hx')
    obtain ⟨b, bs, hb⟩ := List.exists_cons_of_ne_nil (List.ne_nil_of_mem hy')
    rw [ha, hb, List.cons_append, List.cons_append] at hk
    obtain rfl := (List.cons.inj hk).1
    have hbx : b ∈ xs := List.mem_of_mem_filter (ha ▸ List.mem_cons_self ..)
    have hby : b ∈ ys := List.mem_of_mem_filter (hb ▸ List.mem_cons_self ..)
    exact (List.nodup_append.mp hnodup).2.2 b hbx b hby rfl
  · intro h k
    rw [List.filter_append, List.filter_append]
    by_cases hxs : xs.filter (fun x => key x = k) = []
    · rw [hxs, List.append_nil, List.nil_append]
    · have hys : ys.filter (fun y => key y = k) = [] := by
        obtain ⟨x, hx⟩ := List.exists_mem_of_ne_nil _ hxs
        obtain ⟨hmem, hkey⟩ := List.mem_filter.mp hx
        refine List.filter_eq_nil_iff.mpr fun y hy hky => h x hmem y hy ?_
        rw [of_decide_eq_true hkey, of_decide_eq_true hky]
      rw [hys, List.append_nil, List.nil_append]

end Order

variable {D : Type} {cfg : Cfg} {σ : Sys D} {w : ℕ}

open Function (update_self update_of_ne)

namespace WorkingCore

/-! ## `transfer_shard` -/

/-- Older and newer packets have come together without loss, each flow in order. -/
structure InOrder (old new mine : List Packet) : Prop where
  /-- nothing more and nothing less -/
  content : mine.Perm (old ++ new)
  /-- each flow in the order of its packets -/
  order : SameOrder Packet.flow mine (old ++ new)

/-- A driver that hands out packets as long as there are any empties a queue that is no longer
than the budget. -/
theorem rxTaken_all {burst : ℕ} (hburst : 0 < burst) {drains : List ℕ} {rx : List Packet}
    (hdriver : ∀ ready ∈ drains, 0 < ready) (hlong : rx.length ≤ drains.length)
    (hwidth : rx.length < 2 ^ 32) :
    rxTaken burst drains (UInt32.ofNat rx.length) rx = rx.length := by
  induction drains generalizing rx with
  | nil => rw [rxTaken, Nat.le_zero.mp hlong]
  | cons ready drains ih =>
    rcases Nat.eq_zero_or_pos rx.length with h0 | hpos
    · rw [h0]
      exact rxTaken_of_zero ..
    · obtain ⟨hready, hdriver⟩ := List.forall_mem_cons.mp hdriver
      obtain ⟨n, hn⟩ : ∃ n, n = (rxBurst burst ready rx).length := ⟨_, rfl⟩
      have hmin : n = min (min ready burst) rx.length := by rw [hn, rxBurst, List.length_take]
      have hcount : UInt32.ofNat rx.length ≠ 0 := by
        intro h
        have := congrArg UInt32.toNat h
        rw [UInt32.toNat_ofNat', Nat.mod_eq_of_lt hwidth, UInt32.toNat_zero] at this
        omega
      have hrest : UInt32.ofNat rx.length - UInt32.ofNat n =
          UInt32.ofNat (rx.drop n).length := by
        rw [List.length_drop, UInt32.ofNat_sub (by omega)]
      rw [rxTaken, ← hn, if_neg (not_or.mpr ⟨hcount, by omega⟩), hrest,
        ih hdriver (by rw [List.length_drop]; simp only [List.length_cons] at hlong; omega)
          (by rw [List.length_drop]; omega), List.length_drop]
      omega

/-- Such a driver hands out the whole NIC queue. -/
theorem rxPrefix_all (hburst : 0 < cfg.burst w) {drains : List ℕ}
    (hdriver : ∀ ready ∈ drains, 0 < ready) (hlong : (σ.rx w).length ≤ drains.length)
    (hsize : (σ.rx w).length ≤ Cfg.qsize) : rxPrefix cfg w drains σ = σ.rx w := by
  have hwidth : (σ.rx w).length < 2 ^ 32 := Nat.lt_of_le_of_lt hsize (by decide)
  rw [rxPrefix, rxCount_eq, Nat.min_eq_left hsize, rxTaken_all hburst hdriver hlong hwidth,
    List.take_length]

/-- **What `transfer_shard` collects**: the NIC queue, and behind it what waited in `q`. -/
theorem transferShard_myItems (hburst : 0 < cfg.burst w)
    (hrings : (σ.worker w).q ≠ (σ.worker w).myring) (drains : List ℕ) :
    (transferShard cfg w drains σ).myItems w =
      ((σ.ring (σ.worker w).myring).enqueueBurst
        (rxPrefix cfg w drains σ ++ σ.qItems w)).items := by
  obtain ⟨hworker, hring, -⟩ := @withdraw_buffers _ σ w
  have hpre : rxPrefix cfg w drains (withdraw w σ) = rxPrefix cfg w drains σ := by
    rw [rxPrefix, rxPrefix, rxCount, rxCount, withdraw_desk.rx]
  rw [(transferShard_desk drains).mine, collect, announce_desk.mine,
    takeBack_eq_of_burst fun _ => hburst, receiveAll_eq]
  simp only [Sys.myItems, Sys.qItems, Sys.setWorker, poured, update_self, hworker, hring, hpre]
  rw [update_of_ne hrings, Fifo.enqueueBurst_append]

/-- **`transfer_shard` keeps the order** exactly if no flow has packets in both places and
`myring` has room for all. -/
theorem transferShard_inOrder_iff (hburst : 0 < cfg.burst w)
    (hrings : (σ.worker w).q ≠ (σ.worker w).myring) (hmine : σ.myItems w = [])
    (hsize : (σ.rx w).length ≤ Cfg.qsize) (hbuffers : (σ.qItems w ++ σ.rx w).Nodup)
    (drains : List ℕ) (hdriver : ∀ ready ∈ drains, 0 < ready)
    (hlong : (σ.rx w).length ≤ drains.length) :
    InOrder (σ.qItems w) (σ.rx w) ((transferShard cfg w drains σ).myItems w) ↔
      (∀ p ∈ σ.qItems w, ∀ p' ∈ σ.rx w, p.flow ≠ p'.flow) ∧
        (σ.qItems w).length + (σ.rx w).length ≤ (σ.ring (σ.worker w).myring).capacity := by
  have hfree : (σ.ring (σ.worker w).myring).free = (σ.ring (σ.worker w).myring).capacity := by
    have hnil : (σ.ring (σ.worker w).myring).items = [] := hmine
    rw [Fifo.free, hnil, List.length_nil, Nat.sub_zero]
  have htake : (transferShard cfg w drains σ).myItems w =
      (σ.rx w ++ σ.qItems w).take (σ.ring (σ.worker w).myring).capacity := by
    rw [transferShard_myItems hburst hrings, rxPrefix_all hburst hdriver hlong hsize,
      Fifo.enqueueBurst_items, hfree, ← Sys.myItems, hmine, List.nil_append]
  rw [htake, ← sameOrder_swap_iff hbuffers]
  constructor
  · rintro ⟨hcontent, horder⟩
    -- nothing is lost, so `myring` has taken all of it
    have hroom : (σ.qItems w).length + (σ.rx w).length ≤
        (σ.ring (σ.worker w).myring).capacity := by
      have hlength := hcontent.length_eq
      rw [List.length_take, List.length_append, List.length_append] at hlength
      omega
    rw [List.take_of_length_le (by rw [List.length_append]; omega)] at horder
    exact ⟨horder, hroom⟩
  · rintro ⟨horder, hroom⟩
    rw [List.take_of_length_le (by rw [List.length_append]; omega)]
    exact ⟨horder.perm, horder⟩

/-! ## `transfer_r` and `transfer_offloading` -/

/-- The routines of a signal that leave the NIC queue alone. -/
inductive Routine
  /-- `transfer_r` -/
  | transferR
  /-- `transfer_offloading` -/
  | transferOffloading
  /-- `transfer_r` followed by `transfer_offloading` -/
  | both

/-- What the routine does. -/
def Routine.run (cfg : Cfg) (w : ℕ) (σ : Sys D) : Routine → Sys D
  | transferR => WorkingCore.transferR cfg w σ
  | transferOffloading => WorkingCore.transferOffloading cfg w σ
  | both => WorkingCore.transferOffloading cfg w (WorkingCore.transferR cfg w σ)

/-- The flags `transfer_r` and `transfer_offloading` that lead to it. -/
def Routine.flags : Routine → Bool × Bool
  | transferR => (true, false)
  | transferOffloading => (false, true)
  | both => (true, true)

/-- Nothing is read from a NIC. -/
structure ReadsNothing (σ σ' : Sys D) : Prop where
  /-- the NIC queues -/
  rx : σ'.rx = σ.rx
  /-- history: the packets received -/
  received : σ'.received = σ.received

theorem ReadsNothing.trans {σ₁ σ₂ σ₃ : Sys D} (h : ReadsNothing σ₁ σ₂)
    (h' : ReadsNothing σ₂ σ₃) : ReadsNothing σ₁ σ₃ :=
  ⟨h'.rx.trans h.rx, h'.received.trans h.received⟩

theorem transferR_readsNothing : ReadsNothing σ (transferR cfg w σ) :=
  ⟨exchange_repointed.rx, exchange_repointed.received⟩

theorem transferOffloading_readsNothing : ReadsNothing σ (transferOffloading cfg w σ) := by
  have hwithdraw : ReadsNothing σ (withdraw w σ) :=
    ⟨withdraw_repointed.rx, withdraw_repointed.received⟩
  have htake : ∀ σ : Sys D, ReadsNothing σ (takeBack cfg w σ) := by
    intro σ
    simp only [takeBack]
    split <;> exact ⟨rfl, rfl⟩
  have hadopt : ∀ σ : Sys D, ReadsNothing σ (adopt w σ) := fun σ =>
    ⟨adopt_repointed.rx, adopt_repointed.received⟩
  have h := hwithdraw.trans ((htake _).trans (hadopt _))
  exact ⟨h.rx, h.received⟩

theorem Routine.run_readsNothing (ρ : Routine) : ReadsNothing σ (ρ.run cfg w σ) := by
  cases ρ with
  | transferR => exact transferR_readsNothing
  | transferOffloading => exact transferOffloading_readsNothing
  | both => exact transferR_readsNothing.trans transferOffloading_readsNothing

theorem Routine.run_kept (ρ : Routine) : Kept σ (ρ.run cfg w σ) := by
  cases ρ with
  | transferR => exact transferR_kept
  | transferOffloading => exact transferOffloading_kept
  | both => exact transferR_kept.trans transferOffloading_kept

/-- What is ready to be worked off: `q` is empty, and the packets are in `myring` for a core that
has some. -/
structure Ready (w : ℕ) (ps : List Packet) (σ : Sys D) : Prop where
  /-- nothing waits for the offloading core -/
  q : σ.qItems w = []
  /-- the packets wait in the core's own ring -/
  mine : σ.myItems w = ps
  /-- which the core is to work off if there are any -/
  myown : (σ.worker w).myown = decide (ps ≠ [])

theorem transferR_ready (hmyown : (σ.worker w).myown = false) (hmine : σ.myItems w = []) :
    Ready w (σ.qItems w) (transferR cfg w σ) := by
  by_cases hq : σ.qItems w = []
  · have hd := @transferR_desk _ cfg σ w hq
    refine ⟨hd.q.trans hq, ?_, ?_⟩
    · rw [hd.mine, hmine, hq]
    · rw [hd.myown, hmyown, hq]
      rfl
  · obtain ⟨hown, hq', hmine', -⟩ := @transferR_of_ne _ cfg σ w hq
    exact ⟨hq'.trans hmine, hmine', hown.trans (decide_eq_true hq).symm⟩

/-- The loop over `q` with room for all of it. -/
theorem transferOffloading_rings (hburst : 0 < cfg.burst w)
    (hrings : (σ.worker w).q ≠ (σ.worker w).myring)
    (hroom : (σ.qItems w).length ≤ (σ.ring (σ.worker w).myring).free) :
    (transferOffloading cfg w σ).qItems w = [] ∧
      (transferOffloading cfg w σ).myItems w = σ.myItems w ++ σ.qItems w ∧
      ((transferOffloading cfg w σ).worker w).myown =
        ((σ.worker w).myown || decide (σ.qItems w ≠ [])) := by
  obtain ⟨hworker, hring, -⟩ := @withdraw_buffers _ σ w
  have hq : (withdraw w σ).qItems w = σ.qItems w := withdraw_desk.q
  have htake := @takeBack_eq_of_burst _ cfg (withdraw w σ) w fun _ => hburst
  refine ⟨adopt_desk.q.trans ?_, adopt_desk.mine.trans ?_, adopt_desk.myown.trans ?_⟩ <;> rw [htake]
  · simp only [Sys.qItems, Sys.setWorker, update_self, poured, hworker]
    rw [update_of_ne hrings, update_self, Fifo.clear_items]
  · simp only [Sys.myItems, Sys.setWorker, update_self, poured, hq, hring, hworker]
    exact Fifo.enqueueBurst_items_of_fits hroom
  · simp only [Sys.setWorker, update_self, hq, hworker]

theorem transferR_rings : ((transferR cfg w σ).worker w).q ≠ ((transferR cfg w σ).worker w).myring ↔
    (σ.worker w).q ≠ (σ.worker w).myring := by
  by_cases hq : σ.qItems w = []
  · rw [transferR, exchange_of_nil hq]
    rfl
  · rw [transferR, exchange, if_pos (by rw [ne_eq, Fifo.count_eq_zero]; exact hq)]
    simp only [takeRatios, swapRings, Sys.postAdd, Sys.setWorker, update_self]
    exact ne_comm

/-- **The three routines** leave in `myring` what was in `q`. -/
theorem Routine.run_ready (hburst : 0 < cfg.burst w)
    (hrings : (σ.worker w).q ≠ (σ.worker w).myring)
    (hcapacity : (σ.ring (σ.worker w).q).capacity = (σ.ring (σ.worker w).myring).capacity)
    (hmyown : (σ.worker w).myown = false) (hmine : σ.myItems w = []) (ρ : Routine) :
    Ready w (σ.qItems w) (ρ.run cfg w σ) := by
  cases ρ with
  | transferR => exact transferR_ready hmyown hmine
  | transferOffloading =>
    have hroom : (σ.qItems w).length ≤ (σ.ring (σ.worker w).myring).free := by
      have hnil : (σ.ring (σ.worker w).myring).items = [] := hmine
      rw [Fifo.free, hnil, List.length_nil, Nat.sub_zero, ← hcapacity]
      exact (σ.ring (σ.worker w).q).fits
    obtain ⟨hq', hmine', hown⟩ := transferOffloading_rings hburst hrings hroom
    refine ⟨hq', ?_, ?_⟩
    · rw [Routine.run, hmine', hmine, List.nil_append]
    · rw [Routine.run, hown, hmyown, Bool.false_or]
  | both =>
    -- after `transfer_r` nothing waits in `q`, and the second routine finds nothing to move
    obtain ⟨hq, hmineR, hownR⟩ := @transferR_ready _ cfg σ w hmyown hmine
    obtain ⟨hq', hmine', hown⟩ := transferOffloading_rings hburst (transferR_rings.mpr hrings)
      (σ := WorkingCore.transferR cfg w σ) (by rw [hq]; exact Nat.zero_le _)
    refine ⟨hq', ?_, ?_⟩
    · rw [Routine.run, hmine', hmineR, hq, List.append_nil]
    · rw [Routine.run, hown, hownR, hq]
      simp

/-! ## The tasks that follow

What has been taken back is in `myring`, and the following tasks push it from there, a burst at a
time. Until then the core receives nothing.
-/

section Tasks

variable [Double D]

/-- `run_task` behind the routines. -/
def restOfTask (cfg : Cfg) (w : ℕ) (inp : TaskInput) (σ : Sys D) : Sys D × TaskLog :=
  let σ := { σ with controllerSignal := Function.update σ.controllerSignal w false }
  let σ := processChanges cfg w σ
  forward cfg w inp.accept (processBatch cfg w inp.rx σ) σ

/-- A task that serves a signal without `transfer_shard`. -/
theorem runTask_routine {ρ : Routine} {inp : TaskInput} (hmyown : (σ.worker w).myown = false)
    (hsignal : σ.controllerSignal w = true) (hshard : σ.transferShard w = false)
    (hflags : (σ.transferR w, σ.transferOffloading w) = ρ.flags) :
    runTask cfg w inp σ = restOfTask cfg w inp (ρ.run cfg w σ) := by
  obtain ⟨hR, hO⟩ := Prod.mk.inj hflags
  have hbefore : serveOffloading cfg w (serveR cfg w σ) = ρ.run cfg w σ := by
    have hflag := (@serveR_kept _ cfg σ w).2.1
    cases ρ with
    | transferR =>
      rw [serveOffloading, hflag, hO, serveR, hR]
      rfl
    | transferOffloading =>
      rw [serveOffloading, hflag, hO, serveR, hR]
      rfl
    | both =>
      rw [serveOffloading, hflag, hO, serveR, hR]
      rfl
  have hserve : serveShard cfg w inp.drains (ρ.run cfg w σ) = ρ.run cfg w σ := by
    have hflag := (@beforeShard_kept _ cfg σ w).2
    rw [beforeShard, hbefore] at hflag
    rw [serveShard, hflag, hshard]
    rfl
  rw [runTask, hmyown, serveSignal, hsignal, if_pos rfl, signalBlock, hbefore, hserve]
  rfl

/-- Tasks of core `w` in a row. -/
def tasks (cfg : Cfg) (w : ℕ) : List TaskInput → Sys D → Sys D × List TaskLog
  | [], σ => (σ, [])
  | inp :: inps, σ =>
    let t := runTask cfg w inp σ
    let rest := tasks cfg w inps t.1
    (rest.1, t.2 :: rest.2)

/-- The tasks it takes to push so many packets. -/
def rounds (burst len : ℕ) : ℕ := (len + burst - 1) / burst

theorem rounds_zero {burst : ℕ} (hburst : 0 < burst) : rounds burst 0 = 0 :=
  Nat.div_eq_of_lt (by omega)

theorem rounds_of_pos {burst len : ℕ} (hburst : 0 < burst) (hlen : 0 < len) :
    rounds burst len = rounds burst (len - burst) + 1 := by
  rcases Nat.lt_or_ge burst len with hlt | hge
  · have hsplit : len + burst - 1 = len - burst + burst - 1 + burst := by omega
    rw [rounds, hsplit, Nat.add_div_right _ hburst, rounds]
  · have hone : len + burst - 1 = len - 1 + burst := by omega
    rw [Nat.sub_eq_zero_of_le hge, rounds_zero hburst, rounds, hone,
      Nat.add_div_right _ hburst, Nat.div_eq_of_lt (by omega)]

/-- The tasks it takes push `ps`, in order, and read nothing from a NIC; and neither does the task
after them, which ends the core's work on its own ring. -/
def WorksOff (cfg : Cfg) (w : ℕ) (ps : List Packet) (σ : Sys D) : Prop :=
  ∀ inps : List TaskInput, inps.length = rounds (cfg.burst w) ps.length → ∀ inp : TaskInput,
    (tasks cfg w inps σ).2.flatMap TaskLog.pushed = ps ∧
      ((tasks cfg w inps σ).1.worker w).myown = true ∧
      ReadsNothing σ (tasks cfg w inps σ).1 ∧
      (runTask cfg w inp (tasks cfg w inps σ).1).2 = {} ∧
      ((runTask cfg w inp (tasks cfg w inps σ).1).1.worker w).myown = false ∧
      ReadsNothing σ (runTask cfg w inp (tasks cfg w inps σ).1).1

/-- A task with packets in `myring` pushes a burst of them. -/
theorem runTask_workOff (hmyown : (σ.worker w).myown = true) (hmine : σ.myItems w ≠ [])
    (inp : TaskInput) :
    (runTask cfg w inp σ).2.pushed = (σ.myItems w).take (cfg.burst w) ∧
      (runTask cfg w inp σ).1.myItems w = (σ.myItems w).drop (cfg.burst w) ∧
      (runTask cfg w inp σ).1.worker = σ.worker ∧ ReadsNothing σ (runTask cfg w inp σ).1 := by
  have hcount : (σ.ring (σ.worker w).myring).count ≠ 0 := by
    rw [ne_eq, Fifo.count_eq_zero]
    exact hmine
  rw [runTask, if_pos hmyown, if_neg hcount]
  have htake : (σ.myItems w).take (min (σ.ring (σ.worker w).myring).count (cfg.burst w)) =
      (σ.myItems w).take (cfg.burst w) := by
    rw [List.take_eq_take_iff, Fifo.count, Sys.myItems]
    omega
  have hdrop : (σ.myItems w).drop (min (σ.ring (σ.worker w).myring).count (cfg.burst w)) =
      (σ.myItems w).drop (cfg.burst w) := by
    rw [List.drop_eq_drop_iff, Fifo.count, Sys.myItems]
    omega
  refine ⟨htake, ?_, rfl, rfl, rfl⟩
  rw [← hdrop]
  simp only [workOff, pushBatch, Sys.myItems, update_self, Fifo.dequeueBurst_items]

/-- A task with nothing in `myring` ends the work on it. -/
theorem runTask_drained (hmyown : (σ.worker w).myown = true) (hmine : σ.myItems w = [])
    (inp : TaskInput) :
    (runTask cfg w inp σ).2 = {} ∧ ((runTask cfg w inp σ).1.worker w).myown = false ∧
      ReadsNothing σ (runTask cfg w inp σ).1 := by
  have hcount : (σ.ring (σ.worker w).myring).count = 0 := Fifo.count_eq_zero.mpr hmine
  rw [runTask, if_pos hmyown, if_pos hcount]
  refine ⟨rfl, ?_, rfl, rfl⟩
  simp only [drained, Sys.setWorker, update_self]

/-- **Working off `myring`**, by induction on the tasks. -/
theorem worksOff (hburst : 0 < cfg.burst w) {ps : List Packet}
    (hmyown : (σ.worker w).myown = true) (hmine : σ.myItems w = ps) : WorksOff cfg w ps σ := by
  intro inps
  induction inps generalizing ps σ with
  | nil =>
    intro hinps inp
    have hnil : ps = [] := by
      by_contra hne
      rw [rounds_of_pos hburst (List.length_pos_iff.mpr hne)] at hinps
      cases hinps
    subst hnil
    exact ⟨rfl, hmyown, ⟨rfl, rfl⟩, runTask_drained hmyown hmine inp⟩
  | cons first inps ih =>
    intro hinps inp
    have hne : ps ≠ [] := by
      rintro rfl
      rw [List.length_nil, rounds_zero hburst] at hinps
      cases hinps
    obtain ⟨hpushed, hleft, hworker, hreads⟩ :=
      @runTask_workOff _ cfg σ w _ hmyown (by rwa [hmine]) first
    rw [hmine] at hpushed hleft
    rw [rounds_of_pos hburst (List.length_pos_iff.mpr hne), List.length_cons] at hinps
    obtain ⟨hall, hown, hquiet, hlog, hdone, hquiet'⟩ :=
      ih (by rw [hworker, hmyown]) hleft (by rw [List.length_drop]; exact Nat.succ.inj hinps) inp
    refine ⟨?_, hown, hreads.trans hquiet, hlog, hdone, hreads.trans hquiet'⟩
    rw [tasks, List.flatMap_cons, hpushed, hall, List.take_append_drop]

/-- Nothing to classify. -/
theorem forward_nil (accept : ℕ) : forward cfg w accept [] σ = (σ, {}) := by
  simp [forward, classify, pushBatch, Sys.enqueueRing]

/-- **Nothing is lost or reordered**: what was in `q` before is in `myring` behind a routine, and
the rest of the task leaves it for the tasks that follow. -/
structure TakenBack (cfg : Cfg) (w : ℕ) (ps : List Packet) (σ σ' : Sys D) : Prop where
  /-- `q` is empty -/
  emptied : σ'.qItems w = []
  /-- `myown` is set if there was something -/
  myown : (σ'.worker w).myown = true ↔ ps ≠ []
  /-- the routine does not read from a NIC -/
  reads : ReadsNothing σ σ'
  /-- the rest of the task does nothing, and the tasks that follow push the packets -/
  workedOff : ps ≠ [] → ∀ inp : TaskInput,
    (restOfTask cfg w inp σ').2 = {} ∧ ReadsNothing σ (restOfTask cfg w inp σ').1 ∧
      WorksOff cfg w ps (restOfTask cfg w inp σ').1

/-- **Taking offloaded packets back** with `transfer_r`, `transfer_offloading` or both. -/
theorem takenBack (hburst : 0 < cfg.burst w)
    (hrings : (σ.worker w).q ≠ (σ.worker w).myring)
    (hcapacity : (σ.ring (σ.worker w).q).capacity = (σ.ring (σ.worker w).myring).capacity)
    (hmyown : (σ.worker w).myown = false) (hmine : σ.myItems w = [])
    (hchanges : σ.hadChanges w = false) (ρ : Routine) :
    TakenBack cfg w (σ.qItems w) σ (ρ.run cfg w σ) := by
  obtain ⟨hq, hmine', hown⟩ := ρ.run_ready hburst hrings hcapacity hmyown hmine
  have hreads := @Routine.run_readsNothing _ cfg σ w ρ
  refine ⟨hq, by rw [hown, decide_eq_true_eq], hreads, fun hne inp => ?_⟩
  obtain ⟨σ', hσ'⟩ : ∃ σ', σ' = { ρ.run cfg w σ with
      controllerSignal := Function.update (ρ.run cfg w σ).controllerSignal w false } := ⟨_, rfl⟩
  have howns : (σ'.worker w).myown = true := by
    rw [hσ']
    exact hown.trans (decide_eq_true hne)
  have hrest : restOfTask cfg w inp (ρ.run cfg w σ) = (σ', {}) := by
    have hquiet : σ'.hadChanges w = false := by
      rw [hσ']
      exact (congrFun (@Routine.run_kept _ cfg σ w ρ).hadChanges w).trans hchanges
    rw [restOfTask, ← hσ']
    simp only [processChanges, hquiet, Bool.false_eq_true, if_false, processBatch, howns, if_true]
    exact forward_nil ..
  rw [hrest]
  refine ⟨rfl, ?_, worksOff hburst howns ?_⟩
  · rw [hσ']
    exact ⟨hreads.rx, hreads.received⟩
  · rw [hσ']
    exact hmine'

end Tasks

end WorkingCore

/-! ## A core with packets in both places -/

namespace Small

open WorkingCore

/-- Core 0 has `old` in `q` and `new` in its NIC queue. -/
def waiting (cfg : Cfg) (old new : List Packet) : Sys ℚ :=
  { init ℚ cfg with
    ring := Function.update (init ℚ cfg).ring (.queue 0)
      ((Fifo.empty 4095).enqueueBurst old)
    rx := Function.update (fun _ => []) 0 new }

/-- Two flows, one in each place. -/
theorem twoFlows_inOrder :
    InOrder [packet 1 0] [packet 2 2] ((transferShard (router 1) 0 [32]
      (waiting (router 1) [packet 1 0] [packet 2 2])).myItems 0) :=
  (@transferShard_inOrder_iff _ (router 1) (waiting (router 1) [packet 1 0] [packet 2 2]) 0
    (by decide) (by decide) rfl (by decide) (by decide) [32] (by decide) (by decide)).mpr
    ⟨by decide, by decide⟩

/-- One flow, with an older packet in `q` and a newer one in the NIC queue. -/
theorem oneFlow_not_inOrder :
    ¬ InOrder [packet 1 0] [packet 2 0] ((transferShard (router 1) 0 [32]
      (waiting (router 1) [packet 1 0] [packet 2 0])).myItems 0) := by
  have hmine : (transferShard (router 1) 0 [32]
      (waiting (router 1) [packet 1 0] [packet 2 0])).myItems 0 = [packet 2 0, packet 1 0] :=
    transferShard_myItems (by decide) (by decide) [32]
  intro h
  have horder := h.order ⟨1, 2, 0, 4⟩
  rw [hmine] at horder
  revert horder
  decide

/-- Two packets of two flows, taken back through both routines. -/
theorem twoPackets_takenBack :
    TakenBack (router 1) 0 [packet 1 0, packet 2 2]
      (waiting (router 1) [packet 1 0, packet 2 2] [packet 3 0])
      (Routine.both.run (router 1) 0
        (waiting (router 1) [packet 1 0, packet 2 2] [packet 3 0])) :=
  @takenBack _ (router 1) (waiting (router 1) [packet 1 0, packet 2 2] [packet 3 0]) 0 _
    (by decide) (by decide) rfl rfl rfl rfl .both

end Small

end Fajita
