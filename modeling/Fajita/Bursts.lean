import Fajita.Packets
import Fajita.Rotation

/-!
# Bursts without a rotation

Without `SEQUENTIAL` the generator draws the flow of a packet, and `FLOWBURST` is to make it stay
with the flow that it has drawn. But `get_packet` keeps a drawn flow nowhere: the packets of a
burst that follow it are of the flow `index` says, and `index` is only ever advanced in the
sequential mode. So the packets before a draw, all but one of a burst, are of flow 0
(`Inv.order`), and `bursts_iff` says that bursts are of the flows drawn exactly if there is one
packet in a burst or no draw has come to another flow than 0.
-/

namespace Fajita

namespace FastUdp

namespace Random

variable {M Ref : Type} (cfg : Config) (click : Click M Ref)

/-! ## Draws

The random values that a run uses up are taken as they come. Two of them may lead to the same flow,
and then two blocks of it follow each other.
-/

/-- What `click_random` returns to `get_packet` for the choice of a flow, if it is asked. -/
def draw (s : Gen M Ref) : List UInt32 :=
  if s.burstCount < cfg.flowburst then [] else [click.random s.drawn]

/-- The same for one call. -/
def drawOf (s : Gen M Ref) : Call → List UInt32
  | .get => draw cfg click s
  | .kill _ => []

/-- All draws of a run. -/
def draws : List Call → Run M Ref → List UInt32
  | [], _ => []
  | c :: calls, t =>
    drawOf cfg click t.gen c ++ ((Run.step cfg click c t).elim [] (draws calls))

/-- The flow that a value leads to. -/
def flowOf (r : UInt32) : ℕ := ((r >>> 2) % cfg.nflows).toNat

/-- Blocks of `FLOWBURST` packets of one flow each, and the `j`-th block of the flow drawn in the
`j`-th place. -/
structure Bursts (picks : List UInt32) (flows : List ℕ) : Prop where
  /-- a block has one flow -/
  single : ∀ n (hn : n < flows.length) n' (hn' : n' < flows.length),
    n / cfg.flowburst.toNat = n' / cfg.flowburst.toNat → flows[n] = flows[n']
  /-- which is drawn for it -/
  fresh : ∀ j, (j + 1) * cfg.flowburst.toNat ≤ flows.length → ∃ r, picks[j]? = some r ∧
    ∀ n (hn : n < flows.length), n / cfg.flowburst.toNat = j → flows[n] = flowOf cfg r

/-- The flow of the `n`-th packet, as the code has it. -/
def flowAt (picks : List UInt32) (n : ℕ) : ℕ :=
  if n % cfg.flowburst.toNat + 1 < cfg.flowburst.toNat then 0
  else (picks[n / cfg.flowburst.toNat]?.map (flowOf cfg)).getD 0

/-- Between two calls: `index` has never moved, and what has been returned is of flow 0 up to the
draws. -/
structure Inv (picks : List UInt32) (t : Run M Ref) : Prop where
  /-- `index` -/
  index : t.gen.index = 0
  /-- `burst_count` -/
  burst : t.gen.burstCount = UInt32.ofNat (t.out.length % cfg.flowburst.toNat + 1)
  /-- all flows have packets -/
  flows : ∀ i < cfg.nflows.toNat, (t.gen.flows i).isSome
  /-- a draw for each full block -/
  drawn : picks.length = t.out.length / cfg.flowburst.toNat
  /-- the packets so far -/
  order : ∀ n (hn : n < t.out.length), t.out[n].1 = flowAt cfg picks n

section Runs

variable {cfg click} {picks : List UInt32} {t : Run M Ref}

theorem flowOf_lt (hN : 0 < cfg.nflows.toNat) (r : UInt32) : flowOf cfg r < cfg.nflows.toNat := by
  rw [flowOf, UInt32.toNat_mod]
  exact Nat.mod_lt _ hN

/-- A drawn flow is a number that an `int` can hold. -/
theorem intIndex_flowOf (r : UInt32) :
    intIndex ((r >>> 2) % cfg.nflows) = some (flowOf cfg r) := by
  have hshift : (r >>> 2).toNat = r.toNat / 2 ^ 2 := by
    rw [UInt32.toNat_shiftRight]
    exact Nat.shiftRight_eq_div_pow ..
  have hsmall : flowOf cfg r < 2 ^ 31 := by
    have hlt := r.toNat_lt
    have hle := Nat.mod_le (r >>> 2).toNat cfg.nflows.toNat
    rw [flowOf, UInt32.toNat_mod]
    omega
  rw [intIndex_eq]
  exact if_pos hsmall

/-- More draws do not change the flows of the packets there were. -/
theorem flowAt_append (hB : 0 < cfg.flowburst.toNat) {n : ℕ}
    (hn : (n + 1) / cfg.flowburst.toNat ≤ picks.length) (more : List UInt32) :
    flowAt cfg (picks ++ more) n = flowAt cfg picks n := by
  rw [flowAt, flowAt]
  split
  · rfl
  · next hout =>
    rw [(succ_over hB hout).1] at hn
    rw [List.getElem?_append_left hn]

/-- A call whose flow has a packet. -/
theorem step_get {flow : ℕ} {fl : Flow Ref} {s' : Gen M Ref} {v : UInt32}
    (hpick : pickFlow cfg click t.gen = (v, s')) (hint : intIndex v = some flow)
    (hfl : t.gen.flows flow = some fl) :
    ∃ t' d, Run.step cfg click .get t = some t' ∧ t'.out = t.out ++ [(flow, d)] ∧
      t'.gen.index = s'.index ∧ t'.gen.burstCount = s'.burstCount ∧
      ∀ i, (t'.gen.flows i).isSome = true ↔ i = flow ∨ (t.gen.flows i).isSome = true := by
  have hint' : intIndex (pickFlow cfg click t.gen).1 = some flow := by rw [hpick, hint]
  obtain ⟨q, s₁, hgot⟩ := exists_got hint' hfl
  obtain ⟨hindex, hburst, p, hflows⟩ := hgot.rest
  rw [hpick] at hindex hburst
  refine ⟨_, _, hgot.step, rfl, hindex, hburst, fun i => ?_⟩
  rw [hflows]
  by_cases hi : i = flow
  · subst hi
    simp
  · simp [hi]

/-- What a call in the state after `k` packets leaves, if it went to the flow that is due. -/
theorem Inv.snoc (h : Inv cfg picks t) (hB : 0 < cfg.flowburst.toNat) {t' : Run M Ref} {flow : ℕ}
    {d : Datagram} {more : List UInt32} (hout : t'.out = t.out ++ [(flow, d)])
    (hindex : t'.gen.index = 0)
    (hburst : t'.gen.burstCount = UInt32.ofNat ((t.out.length + 1) % cfg.flowburst.toNat + 1))
    (hflows : ∀ i, (t'.gen.flows i).isSome = true ↔ i = flow ∨ (t.gen.flows i).isSome = true)
    (hdraws : (picks ++ more).length = (t.out.length + 1) / cfg.flowburst.toNat)
    (hflow : flow = flowAt cfg (picks ++ more) t.out.length) : Inv cfg (picks ++ more) t' := by
  have hlength : t'.out.length = t.out.length + 1 := by
    rw [hout, List.length_append, List.length_singleton]
  refine ⟨hindex, by rw [hlength, hburst], fun i hi => (hflows i).mpr (.inr (h.flows i hi)),
    by rw [hlength, hdraws], fun n hn => ?_⟩
  simp only [hout]
  rcases Nat.lt_succ_iff_lt_or_eq.mp (hlength ▸ hn) with hold | rfl
  · have hblock : (n + 1) / cfg.flowburst.toNat ≤ picks.length := by
      rw [h.drawn]
      exact Nat.div_le_div_right hold
    rw [List.getElem_append_left hold, h.order n hold, flowAt_append hB hblock]
  · rw [List.getElem_append_right le_rfl]
    simp only [Nat.sub_self, List.getElem_singleton]
    exact hflow

/-- **A call of `get_packet`.** -/
theorem Inv.get (h : Inv cfg picks t) (hseq : cfg.sequential = false) (hN : 0 < cfg.nflows.toNat)
    (hB : 0 < cfg.flowburst.toNat) : ∃ t', Run.step cfg click .get t = some t' ∧
      Inv cfg (picks ++ draw cfg click t.gen) t' ∧ t'.out.length = t.out.length + 1 := by
  have hlt := burst_lt_iff hB h.burst
  by_cases hin : t.out.length % cfg.flowburst.toNat + 1 < cfg.flowburst.toNat
  · -- within a burst, `index` says which flow
    obtain ⟨hd, hm⟩ := succ_within hin
    have hpick : pickFlow cfg click t.gen = (0, { t.gen with
        burstCount := t.gen.burstCount + 1 }) := by
      rw [pickFlow, if_pos (hlt.mpr hin)]
      exact Prod.ext (by rw [h.index, UInt32.zero_mod]) rfl
    obtain ⟨fl, hfl⟩ := Option.isSome_iff_exists.mp (h.flows 0 hN)
    have hint : intIndex 0 = some 0 := rfl
    obtain ⟨t', d, hstep, hout, hindex, hburst, hflows⟩ := step_get hpick hint hfl
    refine ⟨t', hstep, h.snoc hB hout (hindex.trans h.index) ?_ hflows ?_ ?_, by rw [hout]; simp⟩
    · rw [hburst, hm, UInt32.ofNat_add (t.out.length % cfg.flowburst.toNat + 1), ← h.burst]
      rfl
    · rw [draw, if_pos (hlt.mpr hin), List.append_nil, h.drawn, hd]
    · rw [flowAt, if_pos hin]
  · -- at its end the flow is drawn
    obtain ⟨hd, hm⟩ := succ_over hB hin
    have hdraw : draw cfg click t.gen = [click.random t.gen.drawn] := if_neg (mt hlt.mp hin)
    have hpick : pickFlow cfg click t.gen = ((click.random t.gen.drawn >>> 2) % cfg.nflows,
        { t.gen with drawn := t.gen.drawn + 1, burstCount := 1 }) := by
      rw [pickFlow, if_neg (mt hlt.mp hin), if_neg (by rw [hseq]; exact Bool.false_ne_true)]
    obtain ⟨fl, hfl⟩ := Option.isSome_iff_exists.mp
      (h.flows (flowOf cfg (click.random t.gen.drawn)) (flowOf_lt hN _))
    obtain ⟨t', d, hstep, hout, hindex, hburst, hflows⟩ :=
      step_get hpick (intIndex_flowOf _) hfl
    refine ⟨t', hstep, h.snoc hB hout (hindex.trans h.index) ?_ hflows ?_ ?_, by rw [hout]; simp⟩
    · rw [hburst, hm]
      rfl
    · rw [hdraw, List.length_append, h.drawn, hd, List.length_singleton]
    · rw [flowAt, if_neg hin, hdraw, ← h.drawn, List.getElem?_concat_length]
      rfl

theorem Inv.kill (h : Inv cfg picks t) (i : ℕ) : ∃ t', Run.step cfg click (.kill i) t = some t' ∧
    Inv cfg picks t' ∧ t'.out = t.out := by
  rw [Run.step]
  cases t.held[i]? with
  | none => exact ⟨t, rfl, h, rfl⟩
  | some x => exact ⟨_, rfl, ⟨h.index, h.burst, h.flows, h.drawn, h.order⟩, rfl⟩

/-- **Whole runs.** -/
theorem Inv.run (h : Inv cfg picks t) (hseq : cfg.sequential = false)
    (hN : 0 < cfg.nflows.toNat) (hB : 0 < cfg.flowburst.toNat) (calls : List Call) :
    ∃ t', tryAll (Run.step cfg click) calls t = some t' ∧
      Inv cfg (picks ++ draws cfg click calls t) t' ∧
      t'.out.length = t.out.length + gets calls := by
  induction calls generalizing picks t with
  | nil => exact ⟨t, rfl, by rw [draws, List.append_nil]; exact h, rfl⟩
  | cons c calls ih =>
    cases c with
    | get =>
      obtain ⟨t₁, hstep, h₁, hlength⟩ := h.get hseq hN hB
      obtain ⟨t', hrun, h', hlength'⟩ := ih h₁
      refine ⟨t', by rw [tryAll_cons, hstep, Option.bind_some, hrun], ?_, ?_⟩
      · rw [draws, hstep, ← List.append_assoc]
        exact h'
      · rw [hlength', hlength, ← List.singleton_append, gets_append, gets_get, Nat.add_assoc]
    | kill i =>
      obtain ⟨t₁, hstep, h₁, hout⟩ := h.kill i
      obtain ⟨t', hrun, h', hlength'⟩ := ih h₁
      refine ⟨t', by rw [tryAll_cons, hstep, Option.bind_some, hrun], ?_, ?_⟩
      · rw [draws, hstep]
        exact h'
      · rw [hlength', hout, ← List.singleton_append, gets_append, gets_kill, Nat.zero_add]

/-- **After `initialize`** every flow has a packet. -/
theorem Inv.start {m : M} {s : Gen M Ref}
    (hinit : initializeFlows cfg click (Gen.new m) = (true, s)) : Inv cfg [] ⟨s, [], []⟩ := by
  have hloop := initFlows_rule (fun n s => s.index = 0 ∧ s.burstCount = 1 ∧
    ∀ j < n, (s.flows j).isSome = true) ?_ ⟨rfl, rfl, nofun⟩ hinit
  · obtain ⟨hindex, hburst, hflows⟩ := hloop
    refine ⟨hindex, ?_, hflows, (Nat.zero_div _).symm, nofun⟩
    rw [hburst, List.length_nil, Nat.zero_mod]
    rfl
  · rintro i s q mem ⟨hindex, hburst, hflows⟩ -
    refine ⟨hindex, hburst, fun j hj => ?_⟩
    by_cases hji : j = i
    · subst hji
      simp
    · simpa [hji] using hflows j (by omega)

/-! ## Blocks

The code takes all packets of a block but the last from flow 0, and the draw decides about the last.
So a block has one flow only if it has one packet, or if no draw leads to another flow.
-/

/-- A full block has had its draw. -/
theorem Inv.lt_drawn_iff (h : Inv cfg picks t) (hB : 0 < cfg.flowburst.toNat) {j : ℕ} :
    (j + 1) * cfg.flowburst.toNat ≤ t.out.length ↔ j < picks.length := by
  rw [h.drawn, Nat.lt_iff_add_one_le, Nat.le_div_iff_mul_le hB]

/-- If no draw comes to another flow, all packets are of flow 0. -/
theorem flowAt_eq_zero (hzero : ∀ r ∈ picks, flowOf cfg r = 0) (n : ℕ) :
    flowAt cfg picks n = 0 := by
  rw [flowAt]
  split
  · rfl
  · cases hr : picks[n / cfg.flowburst.toNat]? with
    | none => rfl
    | some r => exact hzero r (List.mem_of_getElem? hr)

theorem Inv.blocks_iff (h : Inv cfg picks t) (hB : 0 < cfg.flowburst.toNat) :
    Bursts cfg picks (t.out.map Prod.fst) ↔
      cfg.flowburst = 1 ∨ ∀ r ∈ picks, flowOf cfg r = 0 := by
  have hflow : ∀ n (hn : n < (t.out.map Prod.fst).length),
      (t.out.map Prod.fst)[n] = flowAt cfg picks n := fun n hn => by
    rw [List.getElem_map, h.order n (by rwa [List.length_map] at hn)]
  constructor
  · intro hbursts
    by_contra! hboth
    obtain ⟨hone, r, hr, hne⟩ := hboth
    have hlong : 0 + 1 < cfg.flowburst.toNat :=
      Nat.lt_of_le_of_ne hB fun heq => hone (UInt32.toNat_inj.mp heq.symm)
    -- the first packet of the block that the draw belongs to
    obtain ⟨j, hj, rfl⟩ := List.getElem_of_mem hr
    have hfull := (h.lt_drawn_iff hB).mpr hj
    obtain ⟨r, hpick, hblock⟩ := hbursts.fresh j (by rwa [List.length_map])
    obtain rfl := Option.some.inj ((List.getElem?_eq_getElem hj).symm.trans hpick)
    have hfirst : j * cfg.flowburst.toNat < (t.out.map Prod.fst).length := by
      rw [List.length_map]
      rw [Nat.add_mul] at hfull
      omega
    have hzero := hblock _ hfirst (Nat.mul_div_cancel j hB)
    rw [hflow, flowAt, Nat.mul_mod_left, if_pos hlong] at hzero
    exact hne hzero.symm
  · rintro (hone | hzero)
    · have hB1 : cfg.flowburst.toNat = 1 := by rw [hone]; rfl
      refine ⟨fun n hn n' hn' heq => ?_, fun j hj => ?_⟩
      · rw [hB1, Nat.div_one, Nat.div_one] at heq
        simp only [heq]
      · rw [List.length_map, h.lt_drawn_iff hB] at hj
        refine ⟨picks[j], List.getElem?_eq_getElem hj, fun n hn heq => ?_⟩
        rw [hflow, flowAt, heq, if_neg (by omega), List.getElem?_eq_getElem hj]
        rfl
    · refine ⟨fun n hn n' hn' _ => ?_, fun j hj => ?_⟩
      · rw [hflow, hflow, flowAt_eq_zero hzero, flowAt_eq_zero hzero]
      · rw [List.length_map, h.lt_drawn_iff hB] at hj
        refine ⟨picks[j], List.getElem?_eq_getElem hj, fun n hn _ => ?_⟩
        rw [hflow, flowAt_eq_zero hzero, hzero _ (List.getElem_mem hj)]

/-- **Bursts are of the flows drawn** exactly if there is one packet in a burst, or no draw has
come to another flow than 0. -/
theorem bursts_iff {m : M} {s : Gen M Ref} (hseq : cfg.sequential = false)
    (hN : 0 < cfg.nflows.toNat) (hB : 0 < cfg.flowburst.toNat)
    (hinit : initializeFlows cfg click (Gen.new m) = (true, s)) (calls : List Call) :
    (∃ t, run cfg click s calls = some t ∧ t.out.length = gets calls ∧
        Bursts cfg (draws cfg click calls ⟨s, [], []⟩) (t.out.map Prod.fst)) ↔
      cfg.flowburst = 1 ∨ ∀ r ∈ draws cfg click calls ⟨s, [], []⟩, flowOf cfg r = 0 := by
  obtain ⟨t, hrun, hinv, hlength⟩ :=
    @Inv.run M Ref cfg click [] _ (Inv.start hinit) hseq hN hB calls
  rw [List.nil_append] at hinv
  rw [List.length_nil, Nat.zero_add] at hlength
  rw [← hinv.blocks_iff hB]
  constructor
  · rintro ⟨t', hrun', -, hbursts⟩
    obtain rfl := Option.some.inj (hrun'.symm.trans hrun)
    exact hbursts
  · exact fun hbursts => ⟨t, hrun, hlength, hbursts⟩

end Runs

/-! ## A small generator -/

namespace Small

/-- Nothing is random but the choice of a flow. -/
def packets (r : UInt32) : Click (Buffers Datagram) ℕ :=
  { FastUdp.Small.packets with random := fun _ => r }

/-- Two flows, and so many packets at a time. -/
def config (flowburst : UInt32) : Config :=
  { FastUdp.Small.config 2 flowburst with sequential := false }

/-- After `initialize`. -/
def started (r flowburst : UInt32) : Gen (Buffers Datagram) ℕ :=
  (initializeFlows (config flowburst) (packets r) (Gen.new (Buffers.empty FastUdp.Small.blank))).2

theorem initialized (r flowburst : UInt32) :
    initializeFlows (config flowburst) (packets r)
      (Gen.new (Buffers.empty FastUdp.Small.blank)) = (true, started r flowburst) :=
  Prod.ext (initializeFlows_fst (fun _ => rfl) _) rfl

/-- One packet at a time; all draws come to flow 1. -/
theorem bursts_of_one : ∃ t, run (config 1) (packets 4) (started 4 1) [.get, .get, .get] = some t ∧
    t.out.length = 3 ∧ Bursts (config 1)
      (draws (config 1) (packets 4) [.get, .get, .get] ⟨started 4 1, [], []⟩)
      (t.out.map Prod.fst) :=
  (bursts_iff rfl (by decide) (by decide) (initialized 4 1) [.get, .get, .get]).mpr (.inl rfl)

/-- Two packets at a time: the draw comes after the first, which is of flow 0. -/
theorem not_bursts_of_two : ¬ ∃ t, run (config 2) (packets 4) (started 4 2) [.get, .get] = some t ∧
    t.out.length = 2 ∧ Bursts (config 2)
      (draws (config 2) (packets 4) [.get, .get] ⟨started 4 2, [], []⟩) (t.out.map Prod.fst) := by
  rintro ⟨t, hrun, -, hbursts⟩
  have hflows : (run (config 2) (packets 4) (started 4 2) [.get, .get]).map
      (fun t => t.out.map Prod.fst) = some [0, 1] := by decide +kernel
  rw [hrun] at hflows
  have hout : t.out.map Prod.fst = [0, 1] := Option.some.inj hflows
  rw [hout] at hbursts
  have hsame := hbursts.single 0 (by decide) 1 (by decide) rfl
  cases hsame

end Small

end Random

end FastUdp

end Fajita
