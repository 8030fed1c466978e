import Fajita.WorkingCore
import Mathlib.Logic.Function.Iterate
import Mathlib.Data.Nat.Find

/-!
# The receive loop of `transfer_shard`

Before it gives shards away, a core moves what waits in its NIC queue to `myring`. The loop counts
down from the length of the queue, while the queue goes on filling: `count` is a `uint32_t`, and a
burst may hand out more packets than `count` says there are. Nor is `count` always at most `qsize`:
`MIN` is a macro, which asks for the length a second time once the first answer was below `qsize`.

`RxLoop` is the loop with both answers, and with what the driver hands out in each iteration, as
parameters; `rxDrain_eq` says that it is the loop of the model. `bounded_iff` says what it takes:
what the bursts hand out has to add up to the first `count` exactly before it exceeds it, unless a
burst hands out nothing first; where `count` is more than `qsize`, that has to happen within the
bounds. With a burst of 1 and no such `count` it always does, and `bounded_all_iff` says that
nothing else is safe.
-/

namespace Fajita

/-- The receive loop of `transfer_shard`, and what it has done. -/
structure RxLoop where
  /-- `count` -/
  count : UInt32
  /-- `myring` -/
  mine : Fifo Packet
  /-- `myown` -/
  myown : Bool
  /-- the driver handed out nothing: the loop has been left -/
  left : Bool
  /-- history: the iterations begun -/
  begun : ℕ
  /-- history: the packets handed out -/
  moved : List Packet
  /-- history: `count -= cnt` went below zero -/
  wrapped : Bool

namespace RxLoop

/-- The loop before its first iteration, where the driver has said that there are `first` packets
in the NIC queue, and would say `second` if it were asked again. -/
def start (first second : ℕ) (mine : Fifo Packet) (myown : Bool) : RxLoop where
  count := WorkingCore.rxMin first second
  mine := mine
  myown := myown
  left := false
  begun := 0
  moved := []
  wrapped := false

/-- The next iteration, if there is one; `returned k` is what `rte_eth_rx_burst` hands out in the
`k`-th. -/
def next (returned : ℕ → List Packet) (x : RxLoop) : RxLoop :=
  if x.left ∨ x.count = 0 then x
  else if (returned x.begun).length = 0 then
    { x with
      myown := true
      left := true
      begun := x.begun + 1 }
  else
    { count := x.count - UInt32.ofNat (returned x.begun).length
      mine := x.mine.enqueueBurst (returned x.begun)
      myown := true
      left := false
      begun := x.begun + 1
      moved := x.moved ++ returned x.begun
      wrapped := x.wrapped || x.count.toNat < (returned x.begun).length }

/-- The loop after `n` iterations, or at its end. -/
def after (returned : ℕ → List Packet) (x : RxLoop) (n : ℕ) : RxLoop := (next returned)^[n] x

variable {returned : ℕ → List Packet} {x : RxLoop}

theorem after_succ (n : ℕ) :
    after returned x (n + 1) = next returned (after returned x n) :=
  Function.iterate_succ_apply' ..

/-- A loop that is over stays as it is. -/
theorem after_of_over (h : x.left ∨ x.count = 0) (n : ℕ) : after returned x n = x :=
  Function.iterate_fixed (by rw [next, if_pos h]) n

/-- The last iteration, in which the driver hands out nothing. -/
theorem next_none (hleft : x.left = false) (hcount : x.count ≠ 0)
    (hnone : (returned x.begun).length = 0) :
    next returned x =
      { x with
        myown := true
        left := true
        begun := x.begun + 1 } := by
  have hrunning : ¬ (x.left ∨ x.count = 0) := by simp [hleft, hcount]
  rw [next, if_neg hrunning, if_pos hnone]

/-- An iteration in which it hands out something. -/
theorem next_some (hleft : x.left = false) (hcount : x.count ≠ 0)
    (hsome : (returned x.begun).length ≠ 0) :
    next returned x =
      { count := x.count - UInt32.ofNat (returned x.begun).length
        mine := x.mine.enqueueBurst (returned x.begun)
        myown := true
        left := false
        begun := x.begun + 1
        moved := x.moved ++ returned x.begun
        wrapped := x.wrapped || x.count.toNat < (returned x.begun).length } := by
  have hrunning : ¬ (x.left ∨ x.count = 0) := by simp [hleft, hcount]
  rw [next, if_neg hrunning, if_neg hsome]

/-! ## The loop of the model -/

/-- There is nothing to be done for an empty queue. -/
theorem rxDrain_zero (burst : ℕ) (drains : List ℕ) (l : WorkingCore.RxDrain) :
    WorkingCore.rxDrain burst drains 0 l = l := by
  cases drains <;> rw [WorkingCore.rxDrain.eq_def] <;> exact if_pos rfl

/-- **The loop is `rxDrain`**, for a driver that hands out `returned` and a loop that is over
after `n` iterations. -/
theorem rxDrain_eq {burst : ℕ} (hret : ∀ k, (returned k).length ≤ burst) {n : ℕ}
    (hleft : x.left = false)
    (hover : (after returned x n).left ∨ (after returned x n).count = 0)
    (rest received lost : List Packet) :
    ∃ l more, WorkingCore.rxDrain burst
        ((List.range' x.begun n).map fun k => (returned k).length) x.count
        ⟨(List.range' x.begun n).flatMap returned ++ rest, x.mine, x.myown, received, lost⟩ = l ∧
      l.mine = (after returned x n).mine ∧ l.myown = (after returned x n).myown ∧
      l.received = received ++ more ∧ (after returned x n).moved = x.moved ++ more := by
  induction n generalizing x received lost with
  | zero =>
    have hcount : x.count = 0 := by
      rcases hover with h | h
      · exact absurd (hleft.symm.trans h) Bool.false_ne_true
      · exact h
    rw [hcount, rxDrain_zero]
    exact ⟨_, [], rfl, rfl, rfl, (List.append_nil _).symm, (List.append_nil _).symm⟩
  | succ n ih =>
    by_cases hcount : x.count = 0
    · rw [after_of_over (.inr hcount), hcount, rxDrain_zero]
      exact ⟨_, [], rfl, rfl, rfl, (List.append_nil _).symm, (List.append_nil _).symm⟩
    · have hburst : WorkingCore.rxBurst burst (returned x.begun).length
          ((List.range' x.begun (n + 1)).flatMap returned ++ rest) = returned x.begun := by
        rw [WorkingCore.rxBurst, Nat.min_eq_left (hret _), List.range'_succ, List.flatMap_cons,
          List.append_assoc, List.take_left]
      have hunfold := Function.iterate_succ_apply (next returned) n x
      rw [List.range'_succ, List.map_cons, WorkingCore.rxDrain, if_neg hcount,
        ← List.range'_succ]
      simp only [hburst]
      by_cases hnone : (returned x.begun).length = 0
      · -- the driver hands out nothing
        have hnext := next_none hleft hcount hnone
        have hend : after returned x (n + 1) = next returned x := by
          rw [after, hunfold]
          exact after_of_over (.inl (by rw [hnext])) n
        rw [if_pos hnone, hend, hnext]
        exact ⟨_, [], rfl, rfl, rfl, (List.append_nil _).symm, (List.append_nil _).symm⟩
      · have hend : after returned x (n + 1) = after returned (next returned x) n := hunfold
        rw [hend] at hover ⊢
        rw [next_some hleft hcount hnone] at hover ⊢
        obtain ⟨l, more, hl, hmine, hmyown, hreceived, hmoved⟩ := ih rfl hover
          (received ++ returned x.begun) (lost ++ x.mine.refused (returned x.begun))
        have hrest : (returned x.begun ++ (List.range' (x.begun + 1) n).flatMap returned ++
            rest).drop (returned x.begun).length =
              (List.range' (x.begun + 1) n).flatMap returned ++ rest := by
          rw [List.append_assoc, List.drop_left]
        refine ⟨l, returned x.begun ++ more, ?_, hmine, hmyown, ?_, ?_⟩
        · rw [if_neg hnone, List.range'_succ, List.flatMap_cons, hrest]
          exact hl
        · rw [hreceived, List.append_assoc]
        · rw [hmoved, List.append_assoc]

/-! ## The budget

Two numbers bound the loop. The one it counts down from is what `MIN` has given. The one it is meant
to stay within is the length that the driver has given last, or `qsize` if that is less. They differ
where the queue has grown past `qsize` between the two answers.
-/

/-- `min(rx_queue_count, qsize)`, for the answer that the driver has given last. -/
def budget (first second : ℕ) : ℕ :=
  min (if first < Cfg.qsize then second else first) Cfg.qsize

/-- **The bound**: `count` never wraps, there are at most `most` iterations, and they move fewer
than a burst more packets. -/
structure Bounded (burst most : ℕ) (returned : ℕ → List Packet) (x : RxLoop) : Prop where
  /-- `count` stays above zero -/
  nowrap : ∀ n, (after returned x n).wrapped = false
  /-- the iterations -/
  iterations : ∀ n, (after returned x n).begun ≤ most
  /-- the packets -/
  moved : ∀ n, (after returned x n).moved.length < most + burst

/-- What the first `k` bursts hand out. -/
def handedOut (returned : ℕ → List Packet) (k : ℕ) : ℕ :=
  ((List.range k).map fun i => (returned i).length).sum

/-- The bursts come to `count` exactly, or one hands out nothing below it, and that within `most`
iterations and fewer than a burst more packets. -/
def Fits (burst most count : ℕ) (returned : ℕ → List Packet) : Prop :=
  ∃ k, handedOut returned k < most + burst ∧
    (handedOut returned k = count ∧ k ≤ most ∨
      handedOut returned k < count ∧ (returned k).length = 0 ∧ k < most)

/-- One more burst. -/
theorem handedOut_succ (k : ℕ) :
    handedOut returned (k + 1) = handedOut returned k + (returned k).length := by
  rw [handedOut, List.range_succ, List.map_append, List.sum_append]
  simp [handedOut]

/-- More bursts hand out no less. -/
theorem handedOut_mono (returned : ℕ → List Packet) {j k : ℕ} (h : j ≤ k) :
    handedOut returned j ≤ handedOut returned k := by
  induction h with
  | refl => exact le_rfl
  | step _ ih => exact ih.trans (by rw [handedOut_succ]; exact Nat.le_add_right ..)

/-- Bursts that hand out something each hand out at least a packet each. -/
theorem le_handedOut {k : ℕ} (h : ∀ j < k, (returned j).length ≠ 0) :
    k ≤ handedOut returned k := by
  induction k with
  | zero => exact Nat.zero_le _
  | succ k ih =>
    have hle := ih fun j hj => h j (Nat.lt_succ_of_lt hj)
    have hsome := h k k.lt_succ_self
    rw [handedOut_succ]
    omega

/-- Where `count` is no more than the budget, it is enough that the bursts come to it, or that one
hands out nothing first. -/
theorem fits_of_le {burst most count : ℕ} (hburst : 0 < burst) (hle : count ≤ most)
    (h : ∃ k, handedOut returned k = count ∨
      handedOut returned k < count ∧ (returned k).length = 0) :
    Fits burst most count returned := by
  classical
  -- the first such burst: those before it hand out something, so there are no more than `count`
  obtain ⟨k, hk, hfirst⟩ : ∃ k, (handedOut returned k = count ∨
      handedOut returned k < count ∧ (returned k).length = 0) ∧
      ∀ j < k, ¬ (handedOut returned j = count ∨
        handedOut returned j < count ∧ (returned j).length = 0) :=
    ⟨Nat.find h, Nat.find_spec h, fun j hj => Nat.find_min h hj⟩
  have hbelow : handedOut returned k ≤ count := by
    rcases hk with hk | hk
    · exact hk.le
    · exact hk.1.le
  have hcount : k ≤ handedOut returned k := by
    refine le_handedOut fun j hj hnone => ?_
    obtain ⟨hne, hnot⟩ := not_or.mp (hfirst j hj)
    have hmono := handedOut_mono returned hj.le
    exact hnot ⟨by omega, hnone⟩
  refine ⟨k, by omega, ?_⟩
  rcases hk with hk | ⟨hk, hnone⟩
  · exact .inl ⟨hk, by omega⟩
  · exact .inr ⟨hk, hnone, by omega⟩

/-- What is left of `count`, after an iteration that does not wrap. -/
theorem toNat_sub_length {c : UInt32} {pkts : List Packet} (h : pkts.length ≤ c.toNat) :
    (c - UInt32.ofNat pkts.length).toNat = c.toNat - pkts.length := by
  have hlen : (UInt32.ofNat pkts.length).toNat = pkts.length := by
    rw [UInt32.toNat_ofNat', Nat.mod_eq_of_lt (h.trans_lt c.toNat_lt)]
  rw [UInt32.toNat_sub_of_le _ _ (by rw [UInt32.le_iff_toNat_le, hlen]; exact h), hlen]

section Runs

variable {burst most first second count : ℕ} {mine : Fifo Packet} {myown : Bool}

/-- While the bursts stay below `count`, the loop counts what they hand out. -/
structure Running (count : ℕ) (returned : ℕ → List Packet) (x : RxLoop) : Prop where
  /-- every burst has handed out something -/
  left : x.left = false
  /-- `count` has not wrapped -/
  wrapped : x.wrapped = false
  /-- it has lost what has been moved -/
  count : x.count.toNat + x.moved.length = count
  /-- which is what the bursts have handed out -/
  moved : x.moved.length = handedOut returned x.begun

/-- Before the first iteration. -/
theorem running_start : Running (WorkingCore.rxMin first second).toNat returned
    (start first second mine myown) :=
  ⟨rfl, rfl, rfl, rfl⟩

/-- An iteration that takes part of what is left. -/
theorem Running.next (h : Running count returned x) (hcount : x.count ≠ 0)
    (hsome : (returned x.begun).length ≠ 0) (hle : (returned x.begun).length ≤ x.count.toNat) :
    Running count returned (RxLoop.next returned x) ∧
      (RxLoop.next returned x).begun = x.begun + 1 := by
  rw [next_some h.left hcount hsome]
  have hsub := toNat_sub_length hle
  have hcounted := h.count
  have hmoved := h.moved
  refine ⟨⟨rfl, ?_, ?_, ?_⟩, rfl⟩
  · simp only [h.wrapped, Bool.false_or, decide_eq_false_iff_not]
    exact Nat.not_lt.mpr hle
  · simp only [hsub, List.length_append]
    omega
  · simp only [List.length_append, handedOut_succ, hmoved]

/-- The loop within its bounds, where the bursts come to `count`, or stop, after `k` of them: on its
way, or left after a burst that handed out nothing. -/
def Sound (most count : ℕ) (returned : ℕ → List Packet) (k : ℕ) (x : RxLoop) : Prop :=
  (Running count returned x ∧ x.begun ≤ k) ∨
    (x.left = true ∧ x.wrapped = false ∧ x.moved.length ≤ handedOut returned k ∧ x.begun ≤ most)

/-- One iteration. -/
theorem Sound.next {k : ℕ} (hk : handedOut returned k = count ∧ k ≤ most ∨
      handedOut returned k < count ∧ (returned k).length = 0 ∧ k < most)
    (h : Sound most count returned k x) :
    Sound most count returned k (RxLoop.next returned x) := by
  by_cases hover : x.left ∨ x.count = 0
  · rwa [RxLoop.next, if_pos hover]
  obtain ⟨hleft, hcount⟩ := not_or.mp hover
  rcases h with ⟨hx, hbegun⟩ | ⟨hl, -⟩
  · have hpos : 0 < x.count.toNat :=
      Nat.pos_of_ne_zero fun h0 => hcount (UInt32.toNat_inj.mp h0)
    have hcounted := hx.count
    have hmoved := hx.moved
    have hmono := handedOut_mono returned hbegun
    -- a loop that still counts has not come to the end of the `k` bursts, unless it stops there
    have hlt : x.begun < k ∨ x.begun = k ∧ (returned k).length = 0 ∧ k < most := by
      rcases Nat.lt_or_eq_of_le hbegun with hlt | heq
      · exact .inl hlt
      · rcases hk with ⟨hk, -⟩ | ⟨-, hk⟩
        · rw [heq, hk] at hmoved
          omega
        · exact .inr ⟨heq, hk⟩
    by_cases hnone : (returned x.begun).length = 0
    · rw [next_none hx.left hcount hnone]
      exact .inr ⟨rfl, hx.wrapped, by dsimp only; omega, by dsimp only; omega⟩
    · have hbefore : x.begun < k := by
        rcases hlt with hlt | ⟨heq, hempty, -⟩
        · exact hlt
        · rw [heq] at hnone
          exact absurd hempty hnone
      have hsucc := handedOut_mono returned (Nat.succ_le_of_lt hbefore)
      rw [Nat.succ_eq_add_one, handedOut_succ] at hsucc
      obtain ⟨hnext, hbegun'⟩ := hx.next hcount hnone (by omega)
      exact .inl ⟨hnext, by omega⟩
  · exact absurd hl hleft

/-- A bounded loop whose bursts do not fit takes another packet in every iteration, up to the last
it may begin. -/
theorem running_of_not_fits
    (h : Bounded burst most returned (start first second mine myown))
    (hfits : ¬ Fits burst most (WorkingCore.rxMin first second).toNat returned) {n : ℕ}
    (hn : n ≤ most + 1) :
    Running (WorkingCore.rxMin first second).toNat returned
        (after returned (start first second mine myown) n) ∧
      (after returned (start first second mine myown) n).begun = n := by
  induction n with
  | zero => exact ⟨running_start, rfl⟩
  | succ n ih =>
    obtain ⟨hx, hbegun⟩ := ih (Nat.le_of_succ_le hn)
    have hmoved := hx.moved
    have hcounted := hx.count
    have hfew := h.moved n
    rw [hbegun] at hmoved
    rw [hmoved] at hfew hcounted
    have hcount : (after returned (start first second mine myown) n).count ≠ 0 := by
      intro h0
      rw [h0, UInt32.toNat_zero] at hcounted
      exact hfits ⟨n, hfew, .inl ⟨by omega, by omega⟩⟩
    have hpos := Nat.pos_of_ne_zero fun h0 => hcount (UInt32.toNat_inj.mp h0)
    have hsome :
        (returned (after returned (start first second mine myown) n).begun).length ≠ 0 := by
      intro h0
      have hlast := h.iterations (n + 1)
      rw [after_succ, next_none hx.left hcount h0] at hlast
      rw [hbegun] at h0
      exact hfits ⟨n, hfew, .inr ⟨by omega, h0, by dsimp only at hlast; omega⟩⟩
    -- the burst is not larger than what is left of `count`
    have hle := h.nowrap (n + 1)
    rw [after_succ] at hle ⊢
    simp only [next_some hx.left hcount hsome, hx.wrapped, Bool.false_or,
      decide_eq_false_iff_not, Nat.not_lt] at hle
    obtain ⟨hnext, hsucc⟩ := hx.next hcount hsome hle
    exact ⟨hnext, by rw [hsucc, hbegun]⟩

/-- **The receive loop is bounded** exactly if what the bursts hand out comes to `count` before it
exceeds it, or a burst hands out nothing first, within the bounds. -/
theorem bounded_iff :
    Bounded burst (budget first second) returned (start first second mine myown) ↔
      Fits burst (budget first second) (WorkingCore.rxMin first second).toNat returned := by
  constructor
  · intro h
    by_contra hfits
    -- the bound leaves no room for one iteration more
    obtain ⟨-, hbegun⟩ := running_of_not_fits h hfits le_rfl
    have hlast := h.iterations (budget first second + 1)
    omega
  · rintro ⟨k, hfew, hk⟩
    have hsound : ∀ n, Sound (budget first second) (WorkingCore.rxMin first second).toNat returned k
        (after returned (start first second mine myown) n) := by
      intro n
      induction n with
      | zero => exact .inl ⟨running_start, Nat.zero_le k⟩
      | succ n ih =>
        rw [after_succ]
        exact ih.next hk
    refine ⟨fun n => ?_, fun n => ?_, fun n => ?_⟩
    · rcases hsound n with ⟨hx, -⟩ | ⟨-, hwrapped, -⟩
      · exact hx.wrapped
      · exact hwrapped
    · rcases hsound n with ⟨-, hbegun⟩ | ⟨-, -, -, hbegun⟩
      · omega
      · exact hbegun
    · rcases hsound n with ⟨hx, hbegun⟩ | ⟨-, -, hmoved, -⟩
      · have hmono := handedOut_mono returned hbegun
        have hmoved := hx.moved
        omega
      · omega

/-- **What is safe** for all arrivals: an empty queue, and bursts of 1 where `count` is within the
budget. -/
theorem bounded_all_iff (hburst : 0 < burst) :
    (∀ returned : ℕ → List Packet, (∀ k, (returned k).length ≤ burst) →
        Bounded burst (budget first second) returned (start first second mine myown)) ↔
      (WorkingCore.rxMin first second).toNat = 0 ∨
        burst = 1 ∧ (WorkingCore.rxMin first second).toNat ≤ budget first second := by
  generalize hc : (WorkingCore.rxMin first second).toNat = c
  simp only [bounded_iff, hc]
  constructor
  · intro h
    by_contra hnot
    obtain ⟨hzero, hone⟩ := not_or.mp hnot
    -- single packets, and two at once for the last of `count` where that is possible
    let p : Packet := ⟨0, ⟨0, 0, 0, 0⟩, 0, 0, 0⟩
    let returned : ℕ → List Packet := fun k => if k + 1 = c ∧ burst ≠ 1 then [p, p] else [p]
    have hlength : ∀ k, (returned k).length = if k + 1 = c ∧ burst ≠ 1 then 2 else 1 := by
      intro k
      rw [show returned k = if k + 1 = c ∧ burst ≠ 1 then [p, p] else [p] from rfl]
      split <;> rfl
    have hsum : ∀ k, handedOut returned k = k + if c ≤ k ∧ burst ≠ 1 then 1 else 0 := by
      intro k
      induction k with
      | zero => rw [if_neg (by omega)]; rfl
      | succ k ih =>
        rw [handedOut_succ, ih, hlength]
        split <;> split <;> split <;> omega
    obtain ⟨k, -, hk⟩ := h returned fun k => by rw [hlength]; split <;> omega
    rw [hsum, hlength] at hk
    split at hk <;> split at hk <;> omega
  · intro h returned hret
    rcases h with rfl | ⟨rfl, hle⟩
    · exact ⟨0, Nat.add_pos_right _ hburst, .inl ⟨rfl, Nat.zero_le _⟩⟩
    refine fits_of_le hburst hle ?_
    by_contra hfits
    have hbelow : ∀ k ≤ c, handedOut returned k = k := by
      intro k hk
      induction k with
      | zero => rfl
      | succ k ih =>
        have hsum := ih (Nat.le_of_succ_le hk)
        have hsome : (returned k).length ≠ 0 := fun h0 => hfits ⟨k, .inr ⟨by omega, h0⟩⟩
        have hle := hret k
        rw [handedOut_succ, hsum]
        omega
    exact hfits ⟨_, .inl (hbelow _ le_rfl)⟩

end Runs

/-! ## Small loops -/

namespace Small

/-- A packet. -/
def packet (mbuf : ℕ) : Packet := ⟨mbuf, ⟨1, 2, 3, 4⟩, 0, 0, 100⟩

/-- Bursts of 3, 1 and 2 packets, and no more. -/
def bursts : ℕ → List Packet
  | 0 => [packet 0, packet 1, packet 2]
  | 1 => [packet 3]
  | 2 => [packet 4, packet 5]
  | _ => []

/-- They fit a queue that has had four packets. -/
theorem fits_bounded : Bounded 32 (budget 4 4) bursts (start 4 4 (Fifo.empty 4095) false) :=
  bounded_iff.mpr (fits_of_le (by decide) (by decide) ⟨2, .inl (by decide)⟩)

/-- They do not fit one that has had five, to which a sixth came in time for the last burst. -/
theorem overshoot_not_bounded :
    ¬ Bounded 32 (budget 5 5) bursts (start 5 5 (Fifo.empty 4095) false) :=
  fun h => absurd (h.nowrap 3) (by decide)

end Small

end RxLoop

end Fajita
