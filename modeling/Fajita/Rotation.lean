import Fajita.Generator
import Mathlib.Logic.Function.Iterate

/-!
# The rotation of the generator

With `SEQUENTIAL` the generator goes round its flows, `FLOWBURST` packets each. Before its `k`-th
packet `index` is `k / FLOWBURST` and `burst_count` is `k % FLOWBURST + 1`, up to the width of
the words; and a flow of which `m` packets have been sent has a `flow_count` of
`(m - 1) % FLOWSIZE + 1` and has been through `change_ports` `(m - 1) / FLOWSIZE` times. `Inv` says
so, together with who owns which packet, and `scheduled_iff` is what comes of it: for the first
`FLOWBURST * 2 ^ 32` packets, the `n`-th is of flow `n / FLOWBURST % FLOWS`, with the ports its
flow has come to, exactly if all flows that are asked for have a number that an `int` can hold.
-/

namespace Fajita

namespace FastUdp

variable {M Ref : Type} (cfg : Config) (click : Click M Ref)

/-! ## The schedule

Which flow the `n`-th packet belongs to and which ports it has is said by a formula in `n`. The
counters of the code are 32 bits wide; in the first `FLOWBURST * 2 ^ 32` packets `index` does not
come round.
-/

/-- Source and destination port. -/
def Datagram.ports (d : Datagram) : UInt16 × UInt16 := (d.uhSport, d.uhDport)

/-- What a sequential call of `change_ports` makes of them. -/
def advance (ports : UInt16 × UInt16) : UInt16 × UInt16 := (nextPort ports.1, nextPort ports.2)

/-- The ports that a flow's packet has. -/
def Gen.portsOf (s : Gen M Ref) (i : ℕ) : UInt16 × UInt16 :=
  match s.flows i with
  | some fl => (click.data s.mem fl.packet).ports
  | none => (0, 0)

/-- The schedule: each packet is of the flow it should be of, with the flow's first ports
advanced once for every `FLOWSIZE` earlier packets of it; and the packets downstream still have
the contents they were returned with. -/
structure Scheduled (first : ℕ → UInt16 × UInt16) (t : Run M Ref) : Prop where
  /-- flow and ports of each packet -/
  order : ∀ n (hn : n < t.out.length),
    t.out[n].1 = n / cfg.flowburst.toNat % cfg.nflows.toNat ∧
    t.out[n].2.ports =
      advance^[(t.out.take n).countP (fun x => x.1 = t.out[n].1) / cfg.flowsize.toNat]
        (first t.out[n].1)
  /-- contents later on -/
  kept : ∀ x ∈ t.held, click.data t.gen.mem x.1 = x.2

/-! ## Counting in rounds

The code counts up to `FLOWBURST`, and to `FLOWSIZE`, and starts again. These are the quotients and
remainders of the number of packets.
-/

/-- One more, within a round. -/
theorem succ_within {b k : ℕ} (h : k % b + 1 < b) :
    (k + 1) / b = k / b ∧ (k + 1) % b = k % b + 1 := by
  have hk : k + 1 = (k % b + 1) + b * (k / b) := by
    have := Nat.mod_add_div k b
    omega
  constructor
  · conv_lhs => rw [hk]
    rw [Nat.add_mul_div_left _ _ (by omega), Nat.div_eq_of_lt h, Nat.zero_add]
  · conv_lhs => rw [hk]
    rw [Nat.add_mul_mod_self_left, Nat.mod_eq_of_lt h]

/-- One more, and the round is complete. -/
theorem succ_over {b k : ℕ} (hb : 0 < b) (h : ¬ k % b + 1 < b) :
    (k + 1) / b = k / b + 1 ∧ (k + 1) % b = 0 := by
  have hlt := Nat.mod_lt k hb
  have hk : k + 1 = b * (k / b + 1) := by
    have := Nat.mod_add_div k b
    rw [Nat.mul_succ]
    omega
  constructor
  · conv_lhs => rw [hk]
    exact Nat.mul_div_cancel_left _ hb
  · rw [hk]
    exact Nat.mul_mod_right ..

/-- A `flow_count` after `m` packets. -/
def counterAt (size : ℕ) : ℕ → ℕ
  | 0 => 0
  | m + 1 => m % size + 1

/-- A counter that has come to its size starts again. -/
theorem counterAt_full {size m : ℕ} (hsize : 0 < size) (h : size ≤ counterAt size m) :
    m / size = (m - 1) / size + 1 ∧ m % size = 0 := by
  cases m with
  | zero => exact absurd h (Nat.not_le.mpr hsize)
  | succ m => exact succ_over hsize (Nat.not_lt.mpr h)

/-- One that has not goes on. -/
theorem counterAt_lt {size m : ℕ} (h : counterAt size m < size) :
    m / size = (m - 1) / size ∧ m % size = counterAt size m := by
  cases m with
  | zero => exact ⟨rfl, Nat.zero_mod _⟩
  | succ m => exact succ_within h

/-! ## One call -/

section Calls

variable {cfg click} {live alone : M → Ref → Prop} {s : Gen M Ref}

/-- Whether a burst goes on after `k` packets. -/
theorem burst_lt_iff (hB : 0 < cfg.flowburst.toNat) {k : ℕ}
    (hburst : s.burstCount = UInt32.ofNat (k % cfg.flowburst.toNat + 1)) :
    s.burstCount < cfg.flowburst ↔ k % cfg.flowburst.toNat + 1 < cfg.flowburst.toNat := by
  have hmod := Nat.mod_lt k hB
  have hwidth := cfg.flowburst.toNat_lt
  rw [UInt32.lt_iff_toNat_lt, hburst, UInt32.toNat_ofNat', Nat.mod_eq_of_lt (by omega)]

/-- Where `pickFlow` goes after `k` packets, with `b` packets to a burst. -/
theorem pickFlow_round (hseq : cfg.sequential = true) {b k : ℕ} (hb : 0 < b)
    (hlt : s.burstCount < cfg.flowburst ↔ k % b + 1 < b)
    (hindex : s.index = UInt32.ofNat (k / b))
    (hburst : s.burstCount = UInt32.ofNat (k % b + 1)) :
    (pickFlow cfg click s).1.toNat = k / b % 2 ^ 32 % cfg.nflows.toNat ∧
      (pickFlow cfg click s).2 = { s with
        index := UInt32.ofNat ((k + 1) / b)
        burstCount := UInt32.ofNat ((k + 1) % b + 1) } := by
  have hflow : (s.index % cfg.nflows).toNat = k / b % 2 ^ 32 % cfg.nflows.toNat := by
    rw [UInt32.toNat_mod, hindex, UInt32.toNat_ofNat']
  rw [pickFlow]
  split
  · next hin =>
    obtain ⟨hd, hm⟩ := succ_within (hlt.mp hin)
    refine ⟨hflow, ?_⟩
    rw [hd, hm, ← hindex, UInt32.ofNat_add (k % b + 1), ← hburst]
    rfl
  · next hout =>
    obtain ⟨hd, hm⟩ := succ_over hb (mt hlt.mpr hout)
    refine ⟨hflow, ?_⟩
    rw [hd, hm, UInt32.ofNat_add, ← hindex]
    rfl

/-- As long as `index` has not gone round. -/
theorem pickFlow_spec (hseq : cfg.sequential = true) (hB : 0 < cfg.flowburst.toNat) {k : ℕ}
    (hk : k < cfg.flowburst.toNat * 2 ^ 32)
    (hindex : s.index = UInt32.ofNat (k / cfg.flowburst.toNat))
    (hburst : s.burstCount = UInt32.ofNat (k % cfg.flowburst.toNat + 1)) :
    (pickFlow cfg click s).1.toNat = k / cfg.flowburst.toNat % cfg.nflows.toNat ∧
      (pickFlow cfg click s).2 = { s with
        index := UInt32.ofNat ((k + 1) / cfg.flowburst.toNat)
        burstCount := UInt32.ofNat ((k + 1) % cfg.flowburst.toNat + 1) } := by
  have hdiv : k / cfg.flowburst.toNat < 2 ^ 32 := Nat.div_lt_of_lt_mul hk
  have hround := @pickFlow_round _ _ _ click _ hseq _ k hB (burst_lt_iff hB hburst) hindex hburst
  rwa [Nat.mod_eq_of_lt hdiv] at hround

/-- The ports after `change_ports`. -/
theorem ports_newPorts (hseq : cfg.sequential = true) (drawn : ℕ) (d : Datagram) :
    (newPorts cfg click drawn d).ports = advance d.ports := by
  simp only [newPorts, withUdpSum, Datagram.ports, advance, if_pos hseq]

/-- The flow with its packet as it goes out next, after `m` packets of it. -/
theorem refresh_spec (h : click.Lawful live alone) (hseq : cfg.sequential = true)
    (hsize : 0 < cfg.flowsize.toNat) {fl : Flow Ref} {m : ℕ} {first : UInt16 × UInt16}
    (hlive : live s.mem fl.packet)
    (hcount : fl.flowCount.toNat = counterAt cfg.flowsize.toNat m)
    (hports : (click.data s.mem fl.packet).ports =
      advance^[(m - 1) / cfg.flowsize.toNat] first) :
    ∃ mem' fl', refresh cfg click fl s = (fl', { s with mem := mem' }) ∧ live mem' fl'.packet ∧
      (click.data mem' fl'.packet).ports = advance^[m / cfg.flowsize.toNat] first ∧
      fl'.flowCount.toNat = m % cfg.flowsize.toNat ∧
      ∀ r, live s.mem r → r ≠ fl.packet →
        r ≠ fl'.packet ∧ live mem' r ∧ click.data mem' r = click.data s.mem r := by
  have hfull : cfg.flowsize ≤ fl.flowCount ↔
      cfg.flowsize.toNat ≤ counterAt cfg.flowsize.toNat m := by
    rw [UInt32.le_iff_toNat_le, hcount]
  rw [refresh]
  split
  · next hchange =>
    -- the flow has had all the packets that go with these ports
    obtain ⟨hlive', hdata, hothers⟩ := Cow.modify_spec h (newPorts cfg click s.drawn) hlive
    obtain ⟨hdiv, hmod⟩ := counterAt_full hsize (hfull.mp hchange)
    let q := click.modify (newPorts cfg click s.drawn) s.mem fl.packet
    refine ⟨q.2, ⟨q.1, 0⟩, ?_, hlive', ?_, ?_, hothers⟩
    · rw [changePorts]
      simp only [if_pos hseq, q]
    · rw [hdata, hdiv, Function.iterate_succ_apply', ← hports, ports_newPorts hseq]
    · rw [hmod]
      rfl
  · next hkeep =>
    obtain ⟨hdiv, hmod⟩ := counterAt_lt (Nat.lt_of_not_le (mt hfull.mpr hkeep))
    exact ⟨s.mem, fl, rfl, hlive, by rw [hdiv, hports], by rw [hmod, hcount],
      fun r hr hne => ⟨hne, hr, rfl⟩⟩

/-- An index that an `int` can hold. -/
theorem intIndex_eq (v : UInt32) :
    intIndex v = if v.toNat < 2 ^ 31 then some v.toNat else none := by
  have hint : v.toInt32.toInt =
      if 2 * v.toNat < 2 ^ 32 then (v.toNat : ℤ) else v.toNat - 2 ^ 32 :=
    BitVec.toInt_eq_toNat_cond v.toBitVec
  have hwidth := v.toNat_lt
  rw [intIndex, hint]
  split
  · rw [if_neg (by omega), if_pos (by omega), Int.toNat_natCast]
  · rw [if_pos (by omega), if_neg (by omega)]

end Calls

/-! ## Who owns which packet

A flow keeps a packet to clone the next one from. If the packet is shared, `change_ports` writes to
a copy; the invariant says who holds which, and so that no write reaches a packet that has been
sent.
-/

/-- The packets of flow `i` among those returned. -/
def countOf (i : ℕ) (out : List (ℕ × Datagram)) : ℕ := out.countP fun x => x.1 = i

/-- Between two calls: where the rotation is, what each flow has come to, and that the packets
of the flows and those held downstream are different packets. -/
structure Inv (live : M → Ref → Prop) (first : ℕ → UInt16 × UInt16) (t : Run M Ref) : Prop where
  /-- a flow has its turn for `flowburst` packets -/
  index : t.gen.index = UInt32.ofNat (t.out.length / cfg.flowburst.toNat)
  /-- how far the turn has come -/
  burst : t.gen.burstCount = UInt32.ofNat (t.out.length % cfg.flowburst.toNat + 1)
  /-- the ports of a flow have advanced once for each `flowsize` of its packets -/
  flow : ∀ i < cfg.nflows.toNat, ∃ fl, t.gen.flows i = some fl ∧ live t.gen.mem fl.packet ∧
    (click.data t.gen.mem fl.packet).ports =
      advance^[(countOf i t.out - 1) / cfg.flowsize.toNat] (first i) ∧
    fl.flowCount.toNat = counterAt cfg.flowsize.toNat (countOf i t.out)
  /-- two flows have different packets -/
  apart : ∀ i < cfg.nflows.toNat, ∀ j < cfg.nflows.toNat, ∀ fl fl', t.gen.flows i = some fl →
    t.gen.flows j = some fl' → fl.packet = fl'.packet → i = j
  /-- a packet held downstream is in use, and no flow's -/
  held : ∀ x ∈ t.held, live t.gen.mem x.1 ∧
    ∀ i < cfg.nflows.toNat, ∀ fl, t.gen.flows i = some fl → x.1 ≠ fl.packet
  /-- no packet is held twice -/
  nodup : (t.held.map Prod.fst).Nodup
  /-- what has been sent is what the rotation prescribes -/
  scheduled : Scheduled cfg click first t

/-- The element after a call in which flow `i` became `fl` and the memory `mem`. -/
def Run.turned (t : Run M Ref) (i : ℕ) (fl : Flow Ref) (mem : M) : Gen M Ref :=
  { t.gen with
    mem := mem
    index := UInt32.ofNat ((t.out.length + 1) / cfg.flowburst.toNat)
    burstCount := UInt32.ofNat ((t.out.length + 1) % cfg.flowburst.toNat + 1)
    flows := Function.update t.gen.flows i (some { fl with flowCount := fl.flowCount + 1 }) }

/-- What a call comes to when flow `i`, until then `fl`, has its turn: its packet goes out as the
handle `q`, and it becomes `fl'`. -/
structure Turn (live : M → Ref → Prop) (first : ℕ → UInt16 × UInt16) (t : Run M Ref) (i : ℕ)
    (fl fl' : Flow Ref) (q : Ref) (mem : M) : Prop where
  /-- the call -/
  get : getPacket cfg click t.gen = some (i, q, t.turned cfg i fl' mem)
  /-- the flow has a packet -/
  inUse : live mem fl'.packet
  /-- with the ports that are due -/
  ports : (click.data mem fl'.packet).ports =
    advance^[countOf i t.out / cfg.flowsize.toNat] (first i)
  /-- and so is the counter -/
  count : fl'.flowCount.toNat = countOf i t.out % cfg.flowsize.toNat
  /-- what goes out is a handle of its own to the same contents -/
  sent : live mem q ∧ q ≠ fl'.packet ∧ click.data mem q = click.data mem fl'.packet
  /-- no handle but that of the flow has changed -/
  others : ∀ r, live t.gen.mem r → r ≠ fl.packet →
    r ≠ fl'.packet ∧ r ≠ q ∧ live mem r ∧ click.data mem r = click.data t.gen.mem r

theorem Run.turned_flows (t : Run M Ref) (i : ℕ) (fl : Flow Ref) (mem : M) :
    (t.turned cfg i fl mem).flows =
      Function.update t.gen.flows i (some { fl with flowCount := fl.flowCount + 1 }) := rfl

section Runs

variable {cfg click} {live alone : M → Ref → Prop} {first : ℕ → UInt16 × UInt16} {t : Run M Ref}

/-- A packet more on the schedule. -/
theorem Scheduled.snoc {t' : Run M Ref} {i : ℕ} {d : Datagram}
    (h : Scheduled cfg click first t) (hout : t'.out = t.out ++ [(i, d)])
    (hi : i = t.out.length / cfg.flowburst.toNat % cfg.nflows.toNat)
    (hd : d.ports = advance^[countOf i t.out / cfg.flowsize.toNat] (first i))
    (hkept : ∀ x ∈ t'.held, click.data t'.gen.mem x.1 = x.2) : Scheduled cfg click first t' := by
  refine ⟨fun n hn => ?_, hkept⟩
  simp only [hout] at hn ⊢
  rw [List.length_append, List.length_singleton] at hn
  rcases Nat.lt_succ_iff_lt_or_eq.mp hn with hold | rfl
  · rw [List.getElem_append_left hold, List.take_append_of_le_length hold.le]
    exact h.order n hold
  · rw [List.getElem_append_right le_rfl, List.take_left]
    simp only [Nat.sub_self, List.getElem_singleton]
    exact ⟨hi, hd⟩

theorem countOf_snoc (i j : ℕ) (out : List (ℕ × Datagram)) (d : Datagram) :
    countOf j (out ++ [(i, d)]) = countOf j out + if j = i then 1 else 0 := by
  simp only [countOf, List.countP_append, List.countP_singleton, decide_eq_true_eq, @eq_comm _ i j]

/-- The flow whose turn it is. -/
theorem Inv.turn (h : Inv cfg click live first t) (hlaw : click.Lawful live alone)
    (hseq : cfg.sequential = true) (hN : 0 < cfg.nflows.toNat) (hB : 0 < cfg.flowburst.toNat)
    (hsize : 0 < cfg.flowsize.toNat) (hk : t.out.length < cfg.flowburst.toNat * 2 ^ 32) {i : ℕ}
    (hi : i = t.out.length / cfg.flowburst.toNat % cfg.nflows.toNat) (hint : i < 2 ^ 31) :
    ∃ fl fl' q mem, t.gen.flows i = some fl ∧ Turn cfg click live first t i fl fl' q mem := by
  obtain ⟨hpick, hstate⟩ := @pickFlow_spec _ _ _ click _ hseq hB _ hk h.index h.burst
  rw [← hi] at hpick
  obtain ⟨fl, hfl, hlive, hports, hcount⟩ := h.flow i (hi ▸ Nat.mod_lt _ hN)
  obtain ⟨mem', fl', hrefresh, hlive', hports', hcount', hspare⟩ :=
    refresh_spec (s := (pickFlow cfg click t.gen).2) hlaw hseq hsize
      (by rw [hstate]; exact hlive) hcount (by rw [hstate]; exact hports)
  rw [hstate] at hrefresh hspare
  obtain ⟨hfresh, hq, hqdata, hclone⟩ := hlaw.clone hlive'
  obtain ⟨q, hqdef⟩ : ∃ q, click.clone mem' fl'.packet = q := ⟨_, rfl⟩
  rw [hqdef] at hq hqdata hclone hfresh
  refine ⟨fl, fl', q.1, q.2, hfl, ?_⟩
  refine ⟨?_, (hclone _ hlive').1, ?_, hcount', ⟨hq, ?_, ?_⟩, fun r hr hne => ?_⟩
  · rw [getPacket, intIndex_eq, hpick, if_pos hint, Option.bind_some, hstate]
    simp only [hfl, Option.map_some, hrefresh, hqdef, Run.turned]
  · rw [(hclone _ hlive').2, hports']
  · exact fun heq => hfresh (heq ▸ hlive')
  · rw [hqdata, (hclone _ hlive').2]
  · -- neither the new ports nor the clone concern it
    obtain ⟨hne', hr', hsame⟩ := hspare r hr hne
    obtain ⟨hr'', hsame'⟩ := hclone r hr'
    exact ⟨hne', fun heq => hfresh (heq ▸ hr'), hr'', hsame'.trans hsame⟩

variable {i : ℕ} {fl fl' : Flow Ref} {q : Ref} {mem : M}

/-- The packets of the flows after the turn: the new one of flow `i`, and the old ones of the
others, which are different from what flow `i` had before. -/
theorem Inv.flows_turned (h : Inv cfg click live first t) (hi : i < cfg.nflows.toNat)
    (hfl : t.gen.flows i = some fl) {j : ℕ} (hj : j < cfg.nflows.toNat) {g : Flow Ref}
    (hg : (t.turned cfg i fl' mem).flows j = some g) :
    (j = i ∧ g = { fl' with flowCount := fl'.flowCount + 1 }) ∨
      (j ≠ i ∧ t.gen.flows j = some g ∧ live t.gen.mem g.packet ∧ g.packet ≠ fl.packet) := by
  rw [Run.turned_flows] at hg
  rcases eq_or_ne j i with rfl | hne
  · rw [Function.update_self] at hg
    exact .inl ⟨rfl, (Option.some.inj hg).symm⟩
  · rw [Function.update_of_ne hne] at hg
    obtain ⟨g', hg', hglive, -⟩ := h.flow j hj
    obtain rfl : g = g' := Option.some.inj (hg.symm.trans hg')
    exact .inr ⟨hne, hg, hglive, fun heq => hne (h.apart j hj i hi g fl hg hfl heq)⟩

/-- A packet downstream is none of this. -/
theorem Inv.held_turned (h : Inv cfg click live first t) (hi : i < cfg.nflows.toNat)
    (hfl : t.gen.flows i = some fl) (hturn : Turn cfg click live first t i fl fl' q mem)
    {x : Ref × Datagram} (hx : x ∈ t.held) :
    x.1 ≠ fl'.packet ∧ x.1 ≠ q ∧ live mem x.1 ∧ click.data mem x.1 = x.2 := by
  obtain ⟨hxlive, hxflow⟩ := h.held x hx
  obtain ⟨hne, hneq, hx', hsame⟩ := hturn.others x.1 hxlive (hxflow i hi fl hfl)
  exact ⟨hne, hneq, hx', by rw [hsame, h.scheduled.kept x hx]⟩

/-- After the turn all is as it was, one packet further on. -/
theorem Inv.turned (h : Inv cfg click live first t) (hsize : 0 < cfg.flowsize.toNat)
    (hi : i = t.out.length / cfg.flowburst.toNat % cfg.nflows.toNat) (hiN : i < cfg.nflows.toNat)
    (hfl : t.gen.flows i = some fl) (hturn : Turn cfg click live first t i fl fl' q mem) :
    Inv cfg click live first ⟨t.turned cfg i fl' mem, t.out ++ [(i, click.data mem q)],
      t.held ++ [(q, click.data mem q)]⟩ := by
  obtain ⟨hq, hself, hqdata⟩ := hturn.sent
  refine ⟨?_, ?_, fun j hj => ?_, fun j hj j' hj' g g' hg hg' heq => ?_, fun x hx => ?_, ?_, ?_⟩
  · simp only [List.length_append, List.length_singleton, Run.turned]
  · simp only [List.length_append, List.length_singleton, Run.turned]
  · simp only [countOf_snoc]
    rcases eq_or_ne j i with rfl | hne
    · -- the flow whose packet it was has one packet more
      refine ⟨_, Function.update_self .., hturn.inUse, ?_, ?_⟩
      · rw [if_pos rfl, Nat.add_sub_cancel]
        exact hturn.ports
      · have hlt := Nat.mod_lt (countOf j t.out) hsize
        have hwidth := cfg.flowsize.toNat_lt
        rw [if_pos rfl, counterAt, UInt32.toNat_add, hturn.count, UInt32.toNat_one,
          Nat.mod_eq_of_lt (by omega)]
    · obtain ⟨g, hg, hglive, hgports, hgcount⟩ := h.flow j hj
      have hgne : g.packet ≠ fl.packet := fun heq => hne (h.apart j hj i hiN g fl hg hfl heq)
      obtain ⟨-, -, hglive', hgsame⟩ := hturn.others g.packet hglive hgne
      refine ⟨g, ?_, hglive', ?_, ?_⟩
      · rw [Run.turned_flows, Function.update_of_ne hne, hg]
      · rw [if_neg hne, Nat.add_zero, ← hgports, ← hgsame]
        rfl
      · rw [hgcount, if_neg hne, Nat.add_zero]
  · rcases h.flows_turned hiN hfl hj hg with ⟨rfl, rfl⟩ | ⟨hne, hg, hglive, hgne⟩
    · rcases h.flows_turned hiN hfl hj' hg' with ⟨rfl, -⟩ | ⟨-, -, hg'live, hg'ne⟩
      · rfl
      · exact absurd heq.symm (hturn.others g'.packet hg'live hg'ne).1
    · rcases h.flows_turned hiN hfl hj' hg' with ⟨rfl, rfl⟩ | ⟨-, hg', -, -⟩
      · exact absurd heq (hturn.others g.packet hglive hgne).1
      · exact h.apart j hj j' hj' g g' hg hg' heq
  · rcases List.mem_append.mp hx with hx | hx
    · obtain ⟨hne, -, hxlive, -⟩ := h.held_turned hiN hfl hturn hx
      refine ⟨hxlive, fun j hj g hg heq => ?_⟩
      rcases h.flows_turned hiN hfl hj hg with ⟨-, rfl⟩ | ⟨-, hg, -, -⟩
      · exact hne heq
      · exact (h.held x hx).2 j hj g hg heq
    · -- the packet that has just gone out
      obtain rfl := List.mem_singleton.mp hx
      refine ⟨hq, fun j hj g hg heq => ?_⟩
      rcases h.flows_turned hiN hfl hj hg with ⟨-, rfl⟩ | ⟨-, -, hglive, hgne⟩
      · exact hself heq
      · exact (hturn.others g.packet hglive hgne).2.1 heq.symm
  · rw [List.map_append, List.map_singleton, List.nodup_append]
    refine ⟨h.nodup, List.nodup_singleton _, fun r hr r' hr' heq => ?_⟩
    obtain ⟨x, hx, rfl⟩ := List.mem_map.mp hr
    obtain rfl := List.mem_singleton.mp hr'
    exact (h.held_turned hiN hfl hturn hx).2.1 heq
  · refine h.scheduled.snoc rfl hi ?_ fun x hx => ?_
    · rw [hqdata]
      exact hturn.ports
    · rcases List.mem_append.mp hx with hx | hx
      · exact (h.held_turned hiN hfl hturn hx).2.2.2
      · obtain rfl := List.mem_singleton.mp hx
        rfl

/-- **A call of `get_packet`** that finds its flow. -/
theorem Inv.get (h : Inv cfg click live first t) (hlaw : click.Lawful live alone)
    (hseq : cfg.sequential = true) (hN : 0 < cfg.nflows.toNat) (hB : 0 < cfg.flowburst.toNat)
    (hsize : 0 < cfg.flowsize.toNat) (hk : t.out.length < cfg.flowburst.toNat * 2 ^ 32)
    (hint : t.out.length / cfg.flowburst.toNat % cfg.nflows.toNat < 2 ^ 31) :
    ∃ t', Run.step cfg click .get t = some t' ∧ Inv cfg click live first t' ∧
      t'.out.length = t.out.length + 1 := by
  obtain ⟨fl, fl', q, mem, hfl, hturn⟩ := h.turn hlaw hseq hN hB hsize hk rfl hint
  refine ⟨_, by rw [Run.step, hturn.get]; rfl, ?_, by simp⟩
  exact h.turned hsize rfl (Nat.mod_lt _ hN) hfl hturn

/-- **Downstream gives up a packet.** -/
theorem Inv.kill (h : Inv cfg click live first t) (hlaw : click.Lawful live alone) (i : ℕ) :
    ∃ t', Run.step cfg click (.kill i) t = some t' ∧ Inv cfg click live first t' ∧
      t'.out = t.out := by
  rw [Run.step]
  cases hx : t.held[i]? with
  | none => exact ⟨t, rfl, h, rfl⟩
  | some x =>
    refine ⟨_, rfl, ?_, rfl⟩
    have hmem : x ∈ t.held := List.mem_of_getElem? hx
    have hflow : ∀ j < cfg.nflows.toNat, ∀ g, t.gen.flows j = some g → g.packet ≠ x.1 :=
      fun j hj g hg heq => (h.held x hmem).2 j hj g hg heq.symm
    have hrest : ∀ y ∈ t.held.eraseIdx i, y ∈ t.held ∧ y.1 ≠ x.1 := by
      intro y hy
      obtain ⟨j, hji, hj⟩ := List.mem_eraseIdx_iff_getElem?.mp hy
      refine ⟨List.mem_of_getElem? hj, fun heq => hji ?_⟩
      obtain ⟨hjlt, -⟩ := List.getElem?_eq_some_iff.mp hj
      refine (List.getElem?_inj (by rwa [List.length_map]) h.nodup).mp ?_
      rw [List.getElem?_map, List.getElem?_map, hj, hx, Option.map_some, Option.map_some, heq]
    refine ⟨h.index, h.burst, fun j hj => ?_, h.apart, fun y hy => ?_, ?_, h.scheduled.order,
      fun y hy => ?_⟩
    · obtain ⟨g, hg, hglive, hgports, hgcount⟩ := h.flow j hj
      obtain ⟨hglive', hgsame⟩ := hlaw.kill g.packet hglive (hflow j hj g hg)
      exact ⟨g, hg, hglive', by rw [hgsame, hgports], hgcount⟩
    · obtain ⟨hy, hne⟩ := hrest y hy
      exact ⟨(hlaw.kill y.1 (h.held y hy).1 hne).1, (h.held y hy).2⟩
    · exact h.nodup.sublist ((List.eraseIdx_sublist ..).map Prod.fst)
    · obtain ⟨hy, hne⟩ := hrest y hy
      rw [(hlaw.kill y.1 (h.held y hy).1 hne).2, h.scheduled.kept y hy]

theorem gets_append (calls calls' : List Call) :
    gets (calls ++ calls') = gets calls + gets calls' := List.countP_append

@[simp] theorem gets_get : gets [.get] = 1 := rfl

@[simp] theorem gets_kill (i : ℕ) : gets [.kill i] = 0 := rfl

/-- **Whole runs**, as long as all flows asked for have numbers that an `int` can hold. -/
theorem Inv.run {s : Gen M Ref} (h : Inv cfg click live first ⟨s, [], []⟩)
    (hlaw : click.Lawful live alone) (hseq : cfg.sequential = true) (hN : 0 < cfg.nflows.toNat)
    (hB : 0 < cfg.flowburst.toNat) (hsize : 0 < cfg.flowsize.toNat) {calls : List Call}
    (hgets : gets calls ≤ cfg.flowburst.toNat * 2 ^ 32)
    (hint : cfg.nflows.toNat ≤ 2 ^ 31 ∨ gets calls ≤ cfg.flowburst.toNat * 2 ^ 31) :
    ∃ t, FastUdp.run cfg click s calls = some t ∧ Inv cfg click live first t ∧
      t.out.length = gets calls := by
  refine tryAll_rule (P := fun pre t => Inv cfg click live first t ∧ t.out.length = gets pre)
    ?_ ⟨h, rfl⟩
  rintro pre c post t rfl ⟨ht, hlen⟩
  cases c with
  | kill i =>
    obtain ⟨t', hstep, ht', hout⟩ := ht.kill hlaw i
    exact ⟨t', hstep, ht', by rw [hout, hlen, gets_append, gets_kill, Nat.add_zero]⟩
  | get =>
    have hmore : gets pre < gets (pre ++ .get :: post) := by
      rw [← List.singleton_append, gets_append, gets_append, gets_get]
      omega
    have hflow : t.out.length / cfg.flowburst.toNat % cfg.nflows.toNat < 2 ^ 31 := by
      rcases hint with hfew | hearly
      · exact Nat.lt_of_lt_of_le (Nat.mod_lt _ hN) hfew
      · refine Nat.lt_of_le_of_lt (Nat.mod_le ..) (Nat.div_lt_of_lt_mul ?_)
        omega
    obtain ⟨t', hstep, ht', hout⟩ := ht.get hlaw hseq hN hB hsize (by omega) hflow
    exact ⟨t', hstep, ht', by rw [hout, hlen, gets_append, gets_get]⟩

/-- A run with more calls of `get_packet` has one after exactly `n` of them. -/
theorem exists_split {n : ℕ} {calls : List Call} (h : n < gets calls) :
    ∃ pre post, calls = pre ++ .get :: post ∧ gets pre = n := by
  induction calls generalizing n with
  | nil => cases h
  | cons c calls ih =>
    cases c with
    | kill i =>
      obtain ⟨pre, post, rfl, hpre⟩ := ih (n := n) (by simpa [gets] using h)
      exact ⟨.kill i :: pre, post, rfl, by simpa [gets] using hpre⟩
    | get =>
      cases n with
      | zero => exact ⟨[], calls, rfl, rfl⟩
      | succ n =>
        obtain ⟨pre, post, rfl, hpre⟩ := ih (n := n) (by simpa [gets] using h)
        exact ⟨.get :: pre, post, rfl, by simpa [gets] using hpre⟩

/-- The packet after `FLOWBURST * 2 ^ 31` is asked of the flow with the number `2 ^ 31`. -/
theorem Inv.run_none {s : Gen M Ref} (h : Inv cfg click live first ⟨s, [], []⟩)
    (hlaw : click.Lawful live alone) (hseq : cfg.sequential = true)
    (hB : 0 < cfg.flowburst.toNat) (hsize : 0 < cfg.flowsize.toNat) {calls : List Call}
    (hmany : 2 ^ 31 < cfg.nflows.toNat) (hlate : cfg.flowburst.toNat * 2 ^ 31 < gets calls) :
    FastUdp.run cfg click s calls = none := by
  obtain ⟨pre, post, rfl, hpre⟩ := exists_split hlate
  have hearly : gets pre ≤ cfg.flowburst.toNat * 2 ^ 31 := hpre.le
  have hwidth : gets pre < cfg.flowburst.toNat * 2 ^ 32 := by
    rw [hpre]
    exact Nat.mul_lt_mul_of_pos_left (by decide) hB
  have hN : 0 < cfg.nflows.toNat := Nat.zero_lt_of_lt hmany
  obtain ⟨t, hrun, ht, hlen⟩ := h.run hlaw hseq hN hB hsize hwidth.le (.inr hearly)
  have hnext : Run.step cfg click .get t = none := by
    have hturn : t.out.length / cfg.flowburst.toNat = 2 ^ 31 := by
      rw [hlen, hpre, Nat.mul_div_cancel_left _ hB]
    obtain ⟨hpick, -⟩ := @pickFlow_spec _ _ _ click _ hseq hB _ (hlen ▸ hwidth) ht.index ht.burst
    rw [hturn, Nat.mod_eq_of_lt hmany] at hpick
    have hnone : intIndex (pickFlow cfg click t.gen).1 = none := by
      rw [intIndex_eq, if_neg (by omega)]
    rw [Run.step, getPacket, hnone, Option.bind_none, Option.map_none]
  rw [FastUdp.run] at hrun ⊢
  rw [tryAll_append, hrun, Option.bind_some, tryAll_cons, hnext, Option.bind_none]

/-! ## The start -/

/-- While `initialize` works: the flows below `i` have packets. -/
structure Filled (live : M → Ref → Prop) (i : ℕ) (s : Gen M Ref) : Prop where
  /-- the first flow has its turn -/
  index : s.index = 0
  /-- and is at its first packet -/
  burst : s.burstCount = 1
  /-- the flows have packets that are in use, of which none has been sent -/
  flow : ∀ j < i, ∃ fl, s.flows j = some fl ∧ live s.mem fl.packet ∧ fl.flowCount = 0
  /-- two flows have different packets -/
  apart : ∀ j < i, ∀ j' < i, ∀ fl fl', s.flows j = some fl → s.flows j' = some fl' →
    fl.packet = fl'.packet → j = j'

/-- The loop of `initialize`. -/
theorem Filled.initFlows {s s' : Gen M Ref} {n i : ℕ} {sport : UInt16} (h : Filled live i s)
    (hlaw : click.Lawful live alone)
    (hinit : FastUdp.initFlows cfg click n i sport s = (true, s')) :
    Filled live (i + n) s' := by
  induction n generalizing i sport s with
  | zero =>
    obtain rfl := (Prod.mk.inj hinit).2
    exact h
  | succ n ih =>
    rw [FastUdp.initFlows] at hinit
    split at hinit
    · cases (Prod.mk.inj hinit).1
    · next q mem hmake =>
      rw [Nat.add_succ, ← Nat.succ_add]
      refine ih ?_ hinit
      obtain ⟨hfresh, hq, halone, hothers⟩ := hlaw.make hmake
      obtain ⟨hq', -, hothers'⟩ := hlaw.write (firstHeaders cfg click s.drawn sport
        (click.data mem q)) hq halone
      have hne : ∀ r, live s.mem r → r ≠ q := fun r hr heq => hfresh (heq ▸ hr)
      refine ⟨h.index, h.burst, fun j hj => ?_, fun j hj j' hj' fl fl' hfl hfl' heq => ?_⟩
      · rcases Nat.lt_succ_iff_lt_or_eq.mp hj with hold | rfl
        · obtain ⟨fl, hfl, hlive, hcount⟩ := h.flow j hold
          refine ⟨fl, ?_, (hothers' _ (hothers _ hlive).1 (hne _ hlive)).1, hcount⟩
          simp only [Function.update_of_ne hold.ne, hfl]
        · exact ⟨_, Function.update_self .., hq', rfl⟩
      · have hflows : ∀ k < i + 1, ∀ g,
            Function.update s.flows i (some ⟨q, 0⟩) k = some g → (k = i ∧ g.packet = q) ∨
              (k < i ∧ s.flows k = some g ∧ g.packet ≠ q) := by
          intro k hk g hg
          rcases Nat.lt_succ_iff_lt_or_eq.mp hk with hold | rfl
          · rw [Function.update_of_ne hold.ne] at hg
            obtain ⟨g', hg', hlive, -⟩ := h.flow k hold
            obtain rfl := Option.some.inj (hg.symm.trans hg')
            exact .inr ⟨hold, hg, hne _ hlive⟩
          · rw [Function.update_self] at hg
            obtain rfl := Option.some.inj hg
            exact .inl ⟨rfl, rfl⟩
        rcases hflows j hj fl hfl with ⟨rfl, hp⟩ | ⟨hold, hfl, hp⟩
        · rcases hflows j' hj' fl' hfl' with ⟨rfl, -⟩ | ⟨-, -, hp'⟩
          · rfl
          · exact absurd (heq.symm.trans hp) hp'
        · rcases hflows j' hj' fl' hfl' with ⟨-, hp'⟩ | ⟨hold', hfl', -⟩
          · exact absurd (heq.trans hp') hp
          · exact h.apart j hold j' hold' fl fl' hfl hfl' heq

/-- **After `initialize`** the rotation begins. -/
theorem Inv.start {m : M} {s : Gen M Ref} (hlaw : click.Lawful live alone)
    (hinit : initializeFlows cfg click (Gen.new m) = (true, s)) :
    Inv cfg click live (s.portsOf click) ⟨s, [], []⟩ := by
  have hnone : Filled live 0 (Gen.new m : Gen M Ref) := by
    refine ⟨rfl, rfl, ?_, ?_⟩
    · intro j hj
      exact absurd hj (Nat.not_lt_zero j)
    · intro j hj
      exact absurd hj (Nat.not_lt_zero j)
  have hfilled := hnone.initFlows hlaw hinit
  rw [Nat.zero_add] at hfilled
  refine ⟨?_, ?_, fun i hi => ?_, hfilled.apart, fun x hx => ?_, List.nodup_nil,
    ⟨fun n hn => ?_, fun x hx => ?_⟩⟩
  · rw [List.length_nil, Nat.zero_div]
    exact hfilled.index
  · rw [List.length_nil, Nat.zero_mod]
    exact hfilled.burst
  · obtain ⟨fl, hfl, hlive, hcount⟩ := hfilled.flow i hi
    refine ⟨fl, hfl, hlive, ?_, by rw [hcount]; rfl⟩
    have hfirst : s.portsOf click i = (click.data s.mem fl.packet).ports := by
      simp only [Gen.portsOf, hfl]
    rw [hfirst]
    simp [countOf]
  · cases hx
  · cases hn
  · cases hx

/-- **The schedule** is kept in the first `FLOWBURST * 2 ^ 32` packets, whatever downstream gives
up in between, exactly if every flow that has a turn has a number that an `int` can hold. -/
theorem scheduled_iff {m : M} {s : Gen M Ref} (hlaw : click.Lawful live alone)
    (hseq : cfg.sequential = true) (hN : 0 < cfg.nflows.toNat) (hB : 0 < cfg.flowburst.toNat)
    (hsize : 0 < cfg.flowsize.toNat)
    (hinit : initializeFlows cfg click (Gen.new m) = (true, s)) (calls : List Call)
    (hgets : gets calls ≤ cfg.flowburst.toNat * 2 ^ 32) :
    (∃ t, run cfg click s calls = some t ∧ t.out.length = gets calls ∧
        Scheduled cfg click (s.portsOf click) t) ↔
      cfg.nflows.toNat ≤ 2 ^ 31 ∨ gets calls ≤ cfg.flowburst.toNat * 2 ^ 31 := by
  have hstart := Inv.start hlaw hinit
  constructor
  · rintro ⟨t, hrun, -, -⟩
    by_contra hint
    obtain ⟨hmany, hlate⟩ := not_or.mp hint
    have hnone := hstart.run_none hlaw hseq hB hsize (Nat.lt_of_not_le hmany)
      (Nat.lt_of_not_le hlate)
    cases hrun.symm.trans hnone
  · intro hint
    obtain ⟨t, hrun, ht, hlen⟩ := hstart.run hlaw hseq hN hB hsize hgets hint
    exact ⟨t, hrun, hlen, ht.scheduled⟩

/-- Where memory does not run out, `initialize` succeeds. -/
theorem initializeFlows_fst (hmake : ∀ m, (click.make m).isSome) (s : Gen M Ref) :
    (initializeFlows cfg click s).1 = true := by
  suffices h : ∀ n i sport (s : Gen M Ref), (initFlows cfg click n i sport s).1 = true from
    h ..
  intro n
  induction n with
  | zero => exact fun _ _ _ => rfl
  | succ n ih =>
    intro i sport s
    obtain ⟨q, hq⟩ := Option.isSome_iff_exists.mp (hmake s.mem)
    rw [initFlows, hq]
    exact ih ..

theorem gets_replicate (n : ℕ) : gets (List.replicate n .get) = n := by
  rw [gets, List.countP_replicate, if_pos rfl]

end Runs

/-! ## A small generator -/

namespace Small

/-- An empty frame. -/
def blank : Datagram where
  etherShost := 0
  etherDhost := 0
  etherType := 0
  ipVHl := (0, 0)
  ipTosTtlP := (0, 0, 0)
  ipLen := 0
  ipIdOff := (0, 0)
  ipSum := 0
  ipSrc := 0
  ipDst := 0
  uhSport := 0
  uhDport := 0
  uhUlen := 0
  uhSum := 0
  payload := []

/-- Packets that are buffers, no checksums, and nothing random. -/
def packets : Click (Buffers Datagram) ℕ where
  toCow := Buffers.cow blank
  random _ := 0
  ipCksum _ := 0
  udpCksum _ _ := 0

/-- So many flows, with so many packets at a time, and other ports for each packet. -/
def config (nflows flowburst : UInt32) : Config where
  len := 60
  etherShost := 0
  etherDhost := 0
  nflows := nflows
  flowsize := 1
  ipcount := 1
  flowburst := flowburst
  cksum := false
  sequential := true
  seqPorts := true
  sportstart := 1000
  dport := 80

/-- After `initialize`. -/
def started (nflows flowburst : UInt32) : Gen (Buffers Datagram) ℕ :=
  (initializeFlows (config nflows flowburst) packets (Gen.new (Buffers.empty blank))).2

theorem initialized (nflows flowburst : UInt32) :
    initializeFlows (config nflows flowburst) packets (Gen.new (Buffers.empty blank)) =
      (true, started nflows flowburst) :=
  Prod.ext (initializeFlows_fst (fun _ => rfl) _) rfl

/-- Two flows, two packets at a time; downstream gives up the first packet after two. -/
theorem scheduled_two_flows : ∃ t, run (config 2 2) packets (started 2 2)
      [.get, .get, .kill 0, .get, .get, .get] = some t ∧ t.out.length = 5 ∧
      Scheduled (config 2 2) packets ((started 2 2).portsOf packets) t :=
  (scheduled_iff (Buffers.cow_lawful blank) rfl (by decide) (by decide) (by decide)
    (initialized 2 2) [.get, .get, .kill 0, .get, .get, .get] (by decide)).mpr
    (.inl (by decide))

/-- With `2 ^ 31 + 1` flows, and one packet of each at a time, the last flow is never reached. -/
theorem not_scheduled_many_flows :
    ¬ ∃ t, run (config 2147483649 1) packets (started 2147483649 1)
      (List.replicate 2147483649 .get) = some t ∧ t.out.length = 2147483649 ∧
      Scheduled (config 2147483649 1) packets ((started 2147483649 1).portsOf packets) t := by
  rintro ⟨t, hrun, -, -⟩
  have hstart := Inv.start (Buffers.cow_lawful blank) (initialized 2147483649 1)
  have hnone := hstart.run_none (Buffers.cow_lawful blank) rfl (by decide) (by decide)
    (by decide) (by rw [gets_replicate 2147483649]; decide)
  cases hrun.symm.trans hnone

end Small

end FastUdp

end Fajita
