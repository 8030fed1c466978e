import Fajita.Packets
import Fajita.Rotation
import Mathlib.Data.List.InsertIdx
import Mathlib.Data.Nat.Count

/-!
# Whether flows stay distinct

With `SEQ_PORTS` the flows start with source ports that follow one another, and with `SEQUENTIAL`
each change of ports adds one modulo `0xFFFF`. That is one less than there are ports: 0 and
`0xFFFF` are the same modulo `0xFFFF`, and both are followed by 1. Apart from these two, flows that
have been through `change_ports` equally often, up to multiples of `0xFFFF`, differ in the source
port, and all others in the destination port (`ports_eq`).

`distinct_iff` says that this is exact: flows stay distinct in all runs if and only if they do not
start with both of these ports. If they do, `exists_same` finds a time when the two flows meet:
after `FLOWSIZE * 0xFFFF` rounds of `index`, which is a word, each flow has been through
`change_ports` once less than some multiple of `0xFFFF`.
-/

namespace Fajita

namespace FastUdp

variable {M Ref : Type} (cfg : Config) (click : Click M Ref)

/-- The packets in a burst: with a `FLOWBURST` of 0 the flow changes with every packet. -/
def Config.burst (cfg : Config) : ℕ := max 1 cfg.flowburst.toNat

/-- The first source port of a flow with `SEQ_PORTS`. -/
def Config.sportOf (cfg : Config) (i : ℕ) : UInt16 := cfg.sportstart + UInt16.ofNat i

/-- Its first ports as they lie in memory. -/
def Config.firstPorts (cfg : Config) (i : ℕ) : UInt16 × UInt16 :=
  (htons (cfg.sportOf i), htons cfg.dport)

/-- Different flows have different ports. -/
def Distinct (s : Gen M Ref) : Prop :=
  ∀ i < cfg.nflows.toNat, ∀ j < cfg.nflows.toNat, i ≠ j → s.portsOf click i ≠ s.portsOf click j

/-! ## Ports -/

theorem nextPort_toNat (v : UInt16) : (nextPort v).toNat = (v.toNat + 1) % 65535 := by
  rw [nextPort, UInt16.toNat_ofNat']
  omega

/-- After `g` changes, modulo `0xFFFF`. -/
theorem iterate_mod (v : UInt16) (g : ℕ) :
    (nextPort^[g] v).toNat % 65535 = (v.toNat + g) % 65535 := by
  induction g with
  | zero => rfl
  | succ g ih =>
    rw [Function.iterate_succ_apply', nextPort_toNat]
    omega

/-- Both ports change in the same way. -/
theorem advance_iterate (g : ℕ) (ports : UInt16 × UInt16) :
    advance^[g] ports = (nextPort^[g] ports.1, nextPort^[g] ports.2) := by
  induction g with
  | zero => rfl
  | succ g ih => simp only [Function.iterate_succ_apply', ih, advance]

/-- Modulo `0xFFFF` two ports in network order are the same only if one is 0 and the other
`0xFFFF`. -/
theorem htons_mod {v v' : UInt16} (h : (htons v).toNat % 65535 = (htons v').toNat % 65535) :
    v = v' ∨ (v = 0 ∧ v' = 0xFFFF) ∨ (v = 0xFFFF ∧ v' = 0) := by
  have hlt := v.toNat_lt
  have hlt' := v'.toNat_lt
  rw [htons_toNat, htons_toNat] at h
  simp only [← UInt16.toNat_inj, show (0 : UInt16).toNat = 0 from rfl,
    show (0xFFFF : UInt16).toNat = 65535 from rfl]
  omega

/-- **Flows with the same ports** started with the same source port, or with 0 and `0xFFFF`. -/
theorem ports_eq {i j g g' : ℕ}
    (h : advance^[g] (cfg.firstPorts i) = advance^[g'] (cfg.firstPorts j)) :
    cfg.sportOf i = cfg.sportOf j ∨ (cfg.sportOf i = 0 ∧ cfg.sportOf j = 0xFFFF) ∨
      (cfg.sportOf i = 0xFFFF ∧ cfg.sportOf j = 0) := by
  rw [advance_iterate, advance_iterate] at h
  obtain ⟨hsport, hdport⟩ := Prod.mk.inj h
  refine htons_mod ?_
  -- the destination ports tell how often the two have changed
  have hd := iterate_mod (htons cfg.dport) g
  have hd' := iterate_mod (htons cfg.dport) g'
  have hs := iterate_mod (htons (cfg.sportOf i)) g
  have hs' := iterate_mod (htons (cfg.sportOf j)) g'
  simp only [Config.firstPorts] at hsport hdport
  rw [hdport] at hd
  rw [hsport] at hs
  omega

/-- The first source ports of different flows are different. -/
theorem sportOf_inj {i j : ℕ} (hi : i < 65536) (hj : j < 65536)
    (h : cfg.sportOf i = cfg.sportOf j) : i = j := by
  have heq := UInt16.toNat_inj.mpr (UInt16.add_right_inj _ |>.mp h)
  rwa [UInt16.toNat_ofNat', UInt16.toNat_ofNat', Nat.mod_eq_of_lt hi, Nat.mod_eq_of_lt hj] at heq

/-! ## Runs

The ports of a flow are a function of the number of packets that it has sent, and so the invariant
is about these numbers.
-/

/-- The flow of the `n`-th packet. -/
def turn (n : ℕ) : ℕ := n / cfg.burst % 2 ^ 32 % cfg.nflows.toNat

/-- Between two calls: where the rotation is, how often each flow has been through
`change_ports`, and that all packets have different owners. -/
structure Turning (live : M → Ref → Prop) (t : Run M Ref) : Prop where
  /-- `index` -/
  index : t.gen.index = UInt32.ofNat (t.out.length / cfg.burst)
  /-- `burst_count` -/
  burst : t.gen.burstCount = UInt32.ofNat (t.out.length % cfg.burst + 1)
  /-- `flow_count` -/
  flow : ∀ i < cfg.nflows.toNat, ∃ fl, t.gen.flows i = some fl ∧
    fl.flowCount.toNat = counterAt cfg.flowsize.toNat (countOf i t.out)
  /-- the packets -/
  owned : click.Owned live (owner t.gen.flows (t.held.map Prod.fst))
    (Sum.elim (fun i d => d.ports =
      advance^[(countOf i t.out - 1) / cfg.flowsize.toNat] (cfg.firstPorts i)) fun _ _ => True)
    t.gen.mem
  /-- the flows so far -/
  order : t.out.map Prod.fst = (List.range t.out.length).map (turn cfg)

section Runs

variable {cfg click} {live alone : M → Ref → Prop} {t : Run M Ref}

theorem Config.burst_pos : 0 < cfg.burst := Nat.lt_of_lt_of_le Nat.one_pos (Nat.le_max_left ..)

/-- Whether a burst goes on. -/
theorem Turning.burst_lt_iff (h : Turning cfg click live t) :
    t.gen.burstCount < cfg.flowburst ↔ t.out.length % cfg.burst + 1 < cfg.burst := by
  have hmod := Nat.mod_lt t.out.length (@Config.burst_pos cfg)
  have hwidth := cfg.flowburst.toNat_lt
  have hburst : cfg.burst = 1 ∨ cfg.burst = cfg.flowburst.toNat := by
    rw [Config.burst]
    omega
  have hle : cfg.flowburst.toNat ≤ cfg.burst := Nat.le_max_right ..
  rw [UInt32.lt_iff_toNat_lt, h.burst, UInt32.toNat_ofNat', Nat.mod_eq_of_lt (by omega)]
  omega

theorem turn_lt (hN : 0 < cfg.nflows.toNat) (n : ℕ) : turn cfg n < cfg.nflows.toNat :=
  Nat.mod_lt _ hN

/-- A `flow_count` with a packet more. -/
theorem next_count {fl : Flow Ref} {m : ℕ} (hsize : 0 < cfg.flowsize.toNat)
    (hcount : fl.flowCount.toNat = counterAt cfg.flowsize.toNat m) :
    ((if cfg.flowsize ≤ fl.flowCount then 0 else fl.flowCount) + 1).toNat =
      counterAt cfg.flowsize.toNat (m + 1) := by
  have hmod := Nat.mod_lt m hsize
  have hwidth := cfg.flowsize.toNat_lt
  have hnext : (if cfg.flowsize ≤ fl.flowCount then 0 else fl.flowCount).toNat =
      m % cfg.flowsize.toNat := by
    split
    · next hfull =>
      rw [UInt32.le_iff_toNat_le, hcount] at hfull
      exact (counterAt_full hsize hfull).2.symm
    · next hkeep =>
      rw [UInt32.le_iff_toNat_le, hcount] at hkeep
      rw [hcount, (counterAt_lt (Nat.lt_of_not_le hkeep)).2]
  rw [counterAt, UInt32.toNat_add, hnext, UInt32.toNat_one, Nat.mod_eq_of_lt (by omega)]

/-- The ports that a packet goes out with. -/
theorem next_ports {fl : Flow Ref} {m : ℕ} (hseq : cfg.sequential = true)
    (hsize : 0 < cfg.flowsize.toNat)
    (hcount : fl.flowCount.toNat = counterAt cfg.flowsize.toNat m) {first : UInt16 × UInt16}
    {d : Datagram} (hd : d.ports = advance^[(m - 1) / cfg.flowsize.toNat] first) (drawn : ℕ) :
    (if cfg.flowsize ≤ fl.flowCount then newPorts cfg click drawn d else d).ports =
      advance^[m / cfg.flowsize.toNat] first := by
  split
  · next hfull =>
    rw [UInt32.le_iff_toNat_le, hcount] at hfull
    rw [ports_newPorts hseq, hd, (counterAt_full hsize hfull).1, Function.iterate_succ_apply']
  · next hkeep =>
    rw [UInt32.le_iff_toNat_le, hcount] at hkeep
    rw [hd, (counterAt_lt (Nat.lt_of_not_le hkeep)).1]

/-- **A call of `get_packet`.** -/
theorem Turning.get (h : Turning cfg click live t) (hlaw : click.Lawful live alone)
    (hseq : cfg.sequential = true) (hN : 0 < cfg.nflows.toNat) (hmany : cfg.nflows.toNat ≤ 2 ^ 31)
    (hsize : 0 < cfg.flowsize.toNat) : ∃ t', Run.step cfg click .get t = some t' ∧
      Turning cfg click live t' ∧ t'.out.length = t.out.length + 1 := by
  obtain ⟨hpick, hstate⟩ :=
    @pickFlow_round _ _ _ click _ hseq _ _ Config.burst_pos h.burst_lt_iff h.index h.burst
  have hlt := @turn_lt cfg hN t.out.length
  rw [← turn] at hpick
  obtain ⟨fl, hfl, hcount⟩ := h.flow _ hlt
  have hint : intIndex (pickFlow cfg click t.gen).1 = some (turn cfg t.out.length) := by
    rw [intIndex_eq, hpick, if_pos (Nat.lt_of_lt_of_le hlt hmany)]
  obtain ⟨q, s', hgot⟩ := exists_got hint hfl
  obtain ⟨hindex, hburst, p, hflows⟩ := hgot.rest
  refine ⟨_, hgot.step, ⟨?_, ?_, fun j hj => ?_, ?_, ?_⟩, by simp⟩
  · simp [hindex, hstate]
  · simp [hburst, hstate]
  · -- the flow has a packet more to count, the others have not
    simp only [hflows, countOf_snoc]
    rcases eq_or_ne j (turn cfg t.out.length) with rfl | hne
    · refine ⟨_, Function.update_self .., ?_⟩
      rw [if_pos rfl, next_count hsize hcount]
    · obtain ⟨fl', hfl', hcount'⟩ := h.flow j hj
      refine ⟨fl', ?_, ?_⟩
      · rw [Function.update_of_ne hne, hfl']
      · rw [if_neg hne, hcount', Nat.add_zero]
  · rw [List.map_append, List.map_singleton]
    refine (hgot.owned hlaw h.owned (fun drawn d hd => ?_) (fun j hne d hd => ?_)
      fun _ _ => trivial).1
    · rw [countOf_snoc, if_pos rfl, Nat.add_sub_cancel]
      exact next_ports hseq hsize hcount hd drawn
    · rw [countOf_snoc, if_neg hne, Nat.add_zero]
      exact hd
  · rw [List.map_append, h.order, List.length_append, List.length_singleton, List.range_succ,
      List.map_append]
    rfl

/-- **Downstream gives up a packet.** -/
theorem Turning.kill (h : Turning cfg click live t) (hlaw : click.Lawful live alone) (i : ℕ) :
    ∃ t', Run.step cfg click (.kill i) t = some t' ∧ Turning cfg click live t' ∧
      t'.out = t.out := by
  rw [Run.step]
  cases hx : t.held[i]? with
  | none => exact ⟨t, rfl, h, rfl⟩
  | some x =>
    refine ⟨_, rfl, ⟨h.index, h.burst, h.flow, ?_, h.order⟩, rfl⟩
    rw [← List.eraseIdx_map]
    exact kill_owned hlaw h.owned (by rw [List.getElem?_map, hx]; rfl)

/-- **Whole runs.** -/
theorem Turning.run {s : Gen M Ref} (h : Turning cfg click live ⟨s, [], []⟩)
    (hlaw : click.Lawful live alone) (hseq : cfg.sequential = true) (hN : 0 < cfg.nflows.toNat)
    (hmany : cfg.nflows.toNat ≤ 2 ^ 31) (hsize : 0 < cfg.flowsize.toNat) (calls : List Call) :
    ∃ t, FastUdp.run cfg click s calls = some t ∧ Turning cfg click live t ∧
      t.out.length = gets calls := by
  refine tryAll_rule (P := fun pre t => Turning cfg click live t ∧ t.out.length = gets pre)
    ?_ ⟨h, rfl⟩
  rintro pre (_ | i) post t - ⟨ht, hlen⟩
  · obtain ⟨t', hstep, ht', hlen'⟩ := ht.get hlaw hseq hN hmany hsize
    exact ⟨t', hstep, ht', by rw [hlen', hlen, gets_append, gets_get]⟩
  · obtain ⟨t', hstep, ht', hout⟩ := ht.kill hlaw i
    exact ⟨t', hstep, ht', by rw [hout, hlen, gets_append, gets_kill, Nat.add_zero]⟩

/-- **The start.** -/
theorem Turning.start {m : M} {s : Gen M Ref} (hlaw : click.Lawful live alone)
    (hports : cfg.seqPorts = true)
    (hinit : initializeFlows cfg click (Gen.new m) = (true, s)) :
    Turning cfg click live ⟨s, [], []⟩ := by
  have hnone : click.Owned live (owner (fun _ => none) ([] : List Ref))
      (Sum.elim (fun i d => d.ports = cfg.firstPorts i) fun _ _ => True) m := by
    rw [owner_none]
    exact Cow.Owned.none
  obtain ⟨howned, hindex, hburst, hfilled⟩ := initializeFlows_owned (s := Gen.new m) hlaw hnone
    (fun i drawn m q m' _ => by
      simp only [if_pos hports, firstHeaders, withUdpSum, Datagram.ports, Config.firstPorts,
        Config.sportOf]) hinit
  refine ⟨?_, ?_, fun i hi => ?_, ?_, rfl⟩
  · rw [hindex, List.length_nil, Nat.zero_div]
    rfl
  · rw [hburst, List.length_nil, Nat.zero_mod]
    rfl
  · obtain ⟨p, hp⟩ := hfilled i hi
    exact ⟨_, hp, rfl⟩
  · simpa [countOf] using howned

/-- The ports of a flow. -/
theorem Turning.portsOf (h : Turning cfg click live t) {i : ℕ} (hi : i < cfg.nflows.toNat) :
    t.gen.portsOf click i =
      advance^[(countOf i t.out - 1) / cfg.flowsize.toNat] (cfg.firstPorts i) := by
  obtain ⟨fl, hfl, -⟩ := h.flow i hi
  rw [← h.owned.contents (owner_flow hfl), Gen.portsOf, hfl]

/-- **Flows that do not start with 0 and `0xFFFF`** have different ports. -/
theorem Turning.distinct (h : Turning cfg click live t) (hmany : cfg.nflows.toNat ≤ 65536)
    (hstart : ¬ ((∃ i < cfg.nflows.toNat, cfg.sportOf i = 0) ∧
      ∃ j < cfg.nflows.toNat, cfg.sportOf j = 0xFFFF)) : Distinct cfg click t.gen := by
  intro i hi j hj hne heq
  rw [h.portsOf hi, h.portsOf hj] at heq
  rcases ports_eq cfg heq with hsame | ⟨hzero, hmax⟩ | ⟨hmax, hzero⟩
  · exact hne (sportOf_inj cfg (by omega) (by omega) hsame)
  · exact hstart ⟨⟨i, hi, hzero⟩, j, hj, hmax⟩
  · exact hstart ⟨⟨j, hj, hzero⟩, i, hi, hmax⟩

/-! ## When two flows meet

`index` is a word. If the number of flows does not divide 2^32, the last round before `index` wraps
around is cut short, and some flows fall behind. With sequential ports two flows can then have the
same ports.
-/

/-- Counting what recurs with every `a` numbers. -/
theorem count_mul {p : ℕ → Prop} [DecidablePred p] {a : ℕ} (hp : ∀ n, p (a + n) ↔ p n) (m : ℕ) :
    Nat.count p (a * m) = m * Nat.count p a := by
  induction m with
  | zero => simp
  | succ m ih =>
    simp only [Nat.mul_succ, Nat.add_comm _ a, Nat.count_add, hp, ih]
    rw [Nat.succ_mul, Nat.add_comm]

/-- `index` is a word. -/
theorem turn_add (n : ℕ) : turn cfg (cfg.burst * 2 ^ 32 + n) = turn cfg n := by
  rw [turn, Nat.mul_add_div Config.burst_pos, Nat.add_mod_left, turn]

/-- The packets of a flow after some rounds of `index`. -/
theorem Turning.countOf_eq (h : Turning cfg click live t) (i : ℕ) {m : ℕ}
    (hlen : t.out.length = cfg.burst * 2 ^ 32 * m) :
    countOf i t.out = m * Nat.count (fun n => turn cfg n = i) (cfg.burst * 2 ^ 32) := by
  have hcount : countOf i t.out = Nat.count (fun n => turn cfg n = i) t.out.length := by
    have hmap : countOf i t.out = (t.out.map Prod.fst).countP fun j => j = i := by
      rw [List.countP_map]
      rfl
    rw [hmap, h.order, List.countP_map]
    rfl
  rw [hcount, hlen, count_mul fun n => by rw [turn_add]]

/-- Every flow has a turn in a round. -/
theorem count_turn_pos {i : ℕ} (hi : i < cfg.nflows.toNat) :
    0 < Nat.count (fun n => turn cfg n = i) (cfg.burst * 2 ^ 32) := by
  have hwidth : i < 2 ^ 32 := Nat.lt_trans hi cfg.nflows.toNat_lt
  have hlt : cfg.burst * i < cfg.burst * 2 ^ 32 := Nat.mul_lt_mul_of_pos_left hwidth
    Config.burst_pos
  refine Nat.lt_of_lt_of_le ?_ (Nat.count_monotone _ (Nat.succ_le_of_lt hlt))
  have hturn : turn cfg (cfg.burst * i) = i := by
    rw [turn, Nat.mul_div_cancel_left _ Config.burst_pos, Nat.mod_eq_of_lt hwidth,
      Nat.mod_eq_of_lt hi]
  rw [Nat.count_succ, if_pos hturn]
  exact Nat.succ_pos _

/-- Once less than a multiple of `0xFFFF`. -/
theorem iterate_pred (v : UInt16) {c : ℕ} (hc : 0 < c) :
    (nextPort^[65535 * c - 1] v).toNat = (v.toNat + 65534) % 65535 := by
  obtain ⟨g, hg⟩ : ∃ g, 65535 * c - 1 = g + 1 := ⟨65535 * c - 2, by omega⟩
  have hmod := iterate_mod v g
  rw [hg, Function.iterate_succ_apply', nextPort_toNat]
  omega

/-- **Two flows that start with 0 and `0xFFFF`** have the same ports at some time. -/
theorem Turning.exists_same {s : Gen M Ref} (h : Turning cfg click live ⟨s, [], []⟩)
    (hlaw : click.Lawful live alone) (hseq : cfg.sequential = true)
    (hmany : cfg.nflows.toNat ≤ 2 ^ 31) (hsize : 0 < cfg.flowsize.toNat) {i j : ℕ}
    (hi : i < cfg.nflows.toNat) (hj : j < cfg.nflows.toNat) (hzero : cfg.sportOf i = 0)
    (hmax : cfg.sportOf j = 0xFFFF) :
    ∃ calls t, FastUdp.run cfg click s calls = some t ∧
      t.gen.portsOf click i = t.gen.portsOf click j := by
  obtain ⟨t, hrun, ht, hlen⟩ := h.run hlaw hseq (Nat.zero_lt_of_lt hi) hmany hsize
    (List.replicate (cfg.burst * 2 ^ 32 * (cfg.flowsize.toNat * 65535)) .get)
  rw [gets_replicate] at hlen
  have hgen : ∀ k, k < cfg.nflows.toNat → ∃ c, 0 < c ∧
      (countOf k t.out - 1) / cfg.flowsize.toNat = 65535 * c - 1 := by
    intro k hk
    refine ⟨_, count_turn_pos hk, ?_⟩
    rw [ht.countOf_eq k hlen, Nat.mul_assoc, Nat.mul_sub_div _ _ _ ?_]
    · rw [Nat.zero_div]
    · exact Nat.mul_pos hsize (Nat.mul_pos (by decide) (count_turn_pos hk))
  obtain ⟨c, hc, hci⟩ := hgen i hi
  obtain ⟨c', hc', hcj⟩ := hgen j hj
  refine ⟨_, t, hrun, ?_⟩
  rw [ht.portsOf hi, ht.portsOf hj, hci, hcj, advance_iterate, advance_iterate, Prod.mk.injEq]
  simp only [← UInt16.toNat_inj, iterate_pred _ hc, iterate_pred _ hc', Config.firstPorts, hzero,
    hmax, and_true]
  rfl

/-- **Flows stay distinct** in all runs exactly if 0 and `0xFFFF` are not both among the source
ports that they start with. -/
theorem distinct_iff {m : M} {s : Gen M Ref} (hlaw : click.Lawful live alone)
    (hports : cfg.seqPorts = true) (hseq : cfg.sequential = true) (hN : 0 < cfg.nflows.toNat)
    (hmany : cfg.nflows.toNat ≤ 65536) (hsize : 0 < cfg.flowsize.toNat)
    (hinit : initializeFlows cfg click (Gen.new m) = (true, s)) :
    (∀ calls, ∃ t, run cfg click s calls = some t ∧ Distinct cfg click t.gen) ↔
      ¬ ((∃ i < cfg.nflows.toNat, cfg.sportOf i = 0) ∧
        ∃ j < cfg.nflows.toNat, cfg.sportOf j = 0xFFFF) := by
  have hstart := Turning.start hlaw hports hinit
  have hfew : cfg.nflows.toNat ≤ 2 ^ 31 := by omega
  constructor
  · rintro hdistinct ⟨⟨i, hi, hzero⟩, j, hj, hmax⟩
    obtain ⟨calls, t, hrun, hsame⟩ := hstart.exists_same hlaw hseq hfew hsize hi hj hzero hmax
    obtain ⟨t', hrun', ht⟩ := hdistinct calls
    obtain rfl := Option.some.inj (hrun.symm.trans hrun')
    refine ht i hi j hj ?_ hsame
    rintro rfl
    cases hzero.symm.trans hmax
  · intro hboth calls
    obtain ⟨t, hrun, ht, -⟩ := hstart.run hlaw hseq hN hfew hsize calls
    exact ⟨t, hrun, ht.distinct hmany hboth⟩

end Runs

/-! ## Two flows -/

namespace Small

/-- Ports 1000 and 1001. -/
theorem distinct_two_flows : ∃ t, run (config 2 1) packets (started 2 1)
    [.get, .get, .kill 0, .get] = some t ∧ Distinct (config 2 1) packets t.gen :=
  (distinct_iff (Buffers.cow_lawful blank) rfl rfl (by decide) (by decide) (by decide)
    (initialized 2 1)).mpr (by decide) [.get, .get, .kill 0, .get]

/-- Ports 65535 and 0. -/
def lastPorts : Config := { config 2 1 with sportstart := 65535 }

/-- After `initialize`. -/
def lastStarted : Gen (Buffers Datagram) ℕ :=
  (initializeFlows lastPorts packets (Gen.new (Buffers.empty blank))).2

/-- After the second packet of each, both flows have source port 1 in network order. -/
theorem not_distinct_last_ports :
    (run lastPorts packets lastStarted [.get, .get, .get, .get]).map
        (fun t => (t.gen.portsOf packets 0).1) = some 1 ∧
      ¬ ∃ t, run lastPorts packets lastStarted [.get, .get, .get, .get] = some t ∧
        Distinct lastPorts packets t.gen := by
  have hsame : (run lastPorts packets lastStarted [.get, .get, .get, .get]).map
      (fun t => (t.gen.portsOf packets 0, t.gen.portsOf packets 1)) =
        some ((1, htons 80 + 1), (1, htons 80 + 1)) := by decide +kernel
  cases hrun : run lastPorts packets lastStarted [.get, .get, .get, .get] with
  | none =>
    rw [hrun] at hsame
    cases hsame
  | some t =>
    rw [hrun] at hsame
    obtain ⟨hfirst, hsecond⟩ := Prod.mk.inj (Option.some.inj hsame)
    refine ⟨congrArg some (congrArg Prod.fst hfirst), ?_⟩
    rintro ⟨t', ht', hdistinct⟩
    obtain rfl := Option.some.inj ht'
    exact hdistinct 0 (by decide) 1 (by decide) (by decide) (hfirst.trans hsecond.symm)

end Small

end FastUdp

end Fajita
