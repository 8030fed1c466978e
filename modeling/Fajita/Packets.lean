import Fajita.Generator
import Fajita.Owners

/-!
# The packets of the generator

Every flow of the generator has a packet, and so has everyone downstream who got one: `owner` is
the handle that each of them has. What `initialize`, `get_packet` and `change_ports` do with the
packets is said once here, for any condition `F` on the packets of the flows and any condition `H`
on those downstream: `initialize` fills in the flows one after the other, `get_packet` may give
the packet of one flow other ports and hands out a clone of it, and the packets of all others
stay as they were.
-/

namespace Fajita

namespace FastUdp

variable {M Ref : Type}

/-- The handles of the flows, and of those who hold packets downstream. -/
def owner (flows : ℕ → Option (Flow Ref)) (held : List Ref) : ℕ ⊕ ℕ → Option Ref
  | .inl i => (flows i).map Flow.packet
  | .inr k => held[k]?

section Owner

variable {flows : ℕ → Option (Flow Ref)} {held : List Ref}

@[simp] theorem owner_inl (i : ℕ) : owner flows held (.inl i) = (flows i).map Flow.packet := rfl

@[simp] theorem owner_inr (k : ℕ) : owner flows held (.inr k) = held[k]? := rfl

/-- The handle of a flow. -/
theorem owner_flow {i : ℕ} {fl : Flow Ref} (hfl : flows i = some fl) :
    owner flows held (.inl i) = some fl.packet := by
  rw [owner_inl, hfl]
  rfl

/-- A flow with another packet. -/
theorem owner_update (i : ℕ) (fl : Flow Ref) :
    owner (Function.update flows i (some fl)) held =
      Function.update (owner flows held) (.inl i) (some fl.packet) := by
  funext k
  cases k with
  | inl j =>
    by_cases hj : j = i
    · subst hj
      simp
    · simp [hj]
  | inr k => simp

/-- A packet more downstream. -/
theorem owner_append (q : Ref) :
    owner flows (held ++ [q]) =
      Function.update (owner flows held) (.inr held.length) (some q) := by
  funext k
  cases k with
  | inl j => simp
  | inr k =>
    rcases Nat.lt_trichotomy k held.length with hlt | rfl | hgt
    · simp [List.getElem?_append_left hlt, hlt.ne]
    · simp
    · simp [hgt.ne', List.getElem?_append_right hgt.le, List.getElem?_eq_none hgt.le]
      omega

theorem owner_none : owner (fun _ => none) ([] : List Ref) = fun _ => none := by
  funext k
  cases k with
  | inl i => rfl
  | inr k => rfl

end Owner

variable {cfg : Config} {click : Click M Ref} {live alone : M → Ref → Prop} {s s' : Gen M Ref}
  {held : List Ref} {F F' : ℕ → Datagram → Prop} {H : Datagram → Prop} {i : ℕ} {fl : Flow Ref}

/-! ## `initialize` -/

/-- The loop rule of `initialize`: `P i` is the assertion when the flows below `i` have been
filled in. -/
theorem initFlows_rule (P : ℕ → Gen M Ref → Prop)
    (hstep : ∀ i s q mem, P i s → click.make s.mem = some (q, mem) →
      P (i + 1) { s with
        mem := click.write mem q (firstHeaders cfg click s.drawn
          (if cfg.seqPorts then cfg.sportstart + UInt16.ofNat i else cfg.sportstart)
          (click.data mem q))
        flows := Function.update s.flows i (some ⟨q, 0⟩)
        drawn := if cfg.seqPorts then s.drawn + 2 else s.drawn + 4 })
    (h0 : P 0 { s with flows := fun _ => none })
    (hinit : initializeFlows cfg click s = (true, s')) : P cfg.nflows.toNat s' := by
  suffices h : ∀ n i sport (s : Gen M Ref),
      sport = (if cfg.seqPorts then cfg.sportstart + UInt16.ofNat i else cfg.sportstart) →
      P i s → initFlows cfg click n i sport s = (true, s') → P (i + n) s' by
    have hzero : cfg.sportstart =
        if cfg.seqPorts then cfg.sportstart + UInt16.ofNat 0 else cfg.sportstart := by
      split
      · exact (UInt16.add_zero _).symm
      · rfl
    have := h _ _ _ _ hzero h0 hinit
    rwa [Nat.zero_add] at this
  intro n
  induction n with
  | zero =>
    rintro i sport s - hP heq
    obtain rfl := (Prod.mk.inj heq).2
    exact hP
  | succ n ih =>
    rintro i sport s rfl hP heq
    rw [initFlows] at heq
    split at heq
    · cases (Prod.mk.inj heq).1
    · next q mem hmake =>
      rw [Nat.add_succ, ← Nat.succ_add]
      refine ih (i + 1) _ _ ?_ (hstep i s q mem hP hmake) heq
      split
      · rw [UInt16.ofNat_add, ← UInt16.add_assoc]
        rfl
      · rfl

/-- **After `initialize`** every flow has a packet of its own, with the headers that have been
written into what `make` gave. -/
theorem initializeFlows_owned (hlaw : click.Lawful live alone)
    (h : click.Owned live (owner (fun _ => none) held) (Sum.elim F fun _ => H) s.mem)
    (hF : ∀ i drawn m q m', click.make m = some (q, m') → F i (firstHeaders cfg click drawn
      (if cfg.seqPorts then cfg.sportstart + UInt16.ofNat i else cfg.sportstart)
      (click.data m' q)))
    (hinit : initializeFlows cfg click s = (true, s')) :
    click.Owned live (owner s'.flows held) (Sum.elim F fun _ => H) s'.mem ∧
      s'.index = s.index ∧ s'.burstCount = s.burstCount ∧
      ∀ i < cfg.nflows.toNat, ∃ p, s'.flows i = some ⟨p, 0⟩ := by
  refine initFlows_rule (fun n t => click.Owned live (owner t.flows held)
      (Sum.elim F fun _ => H) t.mem ∧ t.index = s.index ∧ t.burstCount = s.burstCount ∧
      ∀ i < n, ∃ p, t.flows i = some ⟨p, 0⟩) ?_ ⟨h, rfl, rfl, nofun⟩ hinit
  rintro i t q mem ⟨howned, hindex, hburst, hfilled⟩ hmake
  refine ⟨?_, hindex, hburst, fun j hj => ?_⟩
  · rw [owner_update]
    exact howned.make hlaw hmake _ (hF i _ _ _ _ hmake)
  · rcases Nat.lt_succ_iff_lt_or_eq.mp hj with hold | rfl
    · obtain ⟨p, hp⟩ := hfilled j hold
      exact ⟨p, by simp [hold.ne, hp]⟩
    · exact ⟨q, Function.update_self ..⟩

/-! ## `change_ports` -/

/-- **Other ports** for the packet of a flow. -/
theorem changePorts_owned (hlaw : click.Lawful live alone)
    (h : click.Owned live (owner s.flows held) (Sum.elim F fun _ => H) s.mem)
    (hfl : s.flows i = some fl) (hF : ∀ d, F i d → F' i (newPorts cfg click s.drawn d))
    (hothers : ∀ j ≠ i, ∀ d, F j d → F' j d) (n : UInt32) :
    click.Owned live
      (owner (Function.update s.flows i (some ⟨(changePorts cfg click fl s).1.packet, n⟩)) held)
      (Sum.elim F' fun _ => H) (changePorts cfg click fl s).2.mem := by
  have hp : owner s.flows held (.inl i) = some fl.packet := owner_flow hfl
  obtain ⟨hlive, hdata, hspare⟩ :=
    Cow.modify_spec hlaw (newPorts cfg click s.drawn) (h.inUse hp)
  simp only [owner_update, changePorts]
  refine h.replace hp hlive ?_ ?_ hspare
  · rw [Sum.elim_inl, hdata]
    exact hF _ (h.contents hp)
  · rintro (j | k) hne d hd
    · exact hothers j (fun heq => hne (by rw [heq])) d hd
    · exact hd

/-! ## `get_packet`

Which flow is chosen is one question and what happens to its packet another. Only the second touches
memory.
-/

/-- The choice of a flow does not concern the packets. -/
theorem pickFlow_kept : (pickFlow cfg click s).2.mem = s.mem ∧
    (pickFlow cfg click s).2.flows = s.flows := by
  rw [pickFlow]
  split
  · exact ⟨rfl, rfl⟩
  · split <;> exact ⟨rfl, rfl⟩

/-- A call of `get_packet` that finds flow `i`, until then `fl`. -/
structure Got (cfg : Config) (click : Click M Ref) (s : Gen M Ref) (i : ℕ) (fl : Flow Ref)
    (q : Ref) (s' : Gen M Ref) : Prop where
  /-- the flow's number -/
  int : intIndex (pickFlow cfg click s).1 = some i
  /-- the flow -/
  flow : s.flows i = some fl
  /-- what goes out, and what is left -/
  sent : (q, s') =
    let r := refresh cfg click fl (pickFlow cfg click s).2
    let c := click.clone r.2.mem r.1.packet
    (c.1, { r.2 with
      mem := c.2
      flows := Function.update r.2.flows i
        (some { r.1 with flowCount := r.1.flowCount + 1 }) })

/-- **What a call of `get_packet` does.** -/
theorem getPacket_eq_some {q : Ref} :
    getPacket cfg click s = some (i, q, s') ↔ ∃ fl, Got cfg click s i fl q s' := by
  rw [getPacket]
  simp only [Option.bind_eq_some_iff, Option.map_eq_some_iff, Prod.mk.injEq, pickFlow_kept.2]
  constructor
  · rintro ⟨_, hint, fl, hfl, rfl, rfl, rfl⟩
    exact ⟨fl, hint, hfl, rfl⟩
  · rintro ⟨fl, hint, hfl, hsent⟩
    obtain ⟨rfl, rfl⟩ := Prod.mk.inj hsent
    exact ⟨i, hint, fl, hfl, rfl, rfl, rfl⟩

theorem exists_got (hint : intIndex (pickFlow cfg click s).1 = some i) (hfl : s.flows i = some fl) :
    ∃ q s', Got cfg click s i fl q s' := ⟨_, _, hint, hfl, rfl⟩

/-- Such a call in a run. -/
theorem Got.step {t : Run M Ref} {q : Ref} (hgot : Got cfg click t.gen i fl q s') :
    Run.step cfg click .get t = some ⟨s', t.out ++ [(i, click.data s'.mem q)],
      t.held ++ [(q, click.data s'.mem q)]⟩ := by
  rw [Run.step, getPacket_eq_some.mpr ⟨fl, hgot⟩]
  rfl

/-- Other ports do not concern the rotation, and the counter starts again. -/
theorem refresh_rest : (refresh cfg click fl s).2.flows = s.flows ∧
    (refresh cfg click fl s).2.index = s.index ∧
    (refresh cfg click fl s).2.burstCount = s.burstCount ∧
    (refresh cfg click fl s).1.flowCount =
      if cfg.flowsize ≤ fl.flowCount then 0 else fl.flowCount := by
  rw [refresh]
  split <;> exact ⟨rfl, rfl, rfl, rfl⟩

/-- The element after a call, apart from the memory. -/
theorem Got.rest {q : Ref} (hgot : Got cfg click s i fl q s') :
    s'.index = (pickFlow cfg click s).2.index ∧
      s'.burstCount = (pickFlow cfg click s).2.burstCount ∧
      ∃ p, s'.flows = Function.update s.flows i
        (some ⟨p, (if cfg.flowsize ≤ fl.flowCount then 0 else fl.flowCount) + 1⟩) := by
  obtain ⟨rfl, rfl⟩ := Prod.mk.inj hgot.sent
  obtain ⟨hflows, hindex, hburst, hcount⟩ :=
    @refresh_rest M Ref cfg click (pickFlow cfg click s).2 fl
  refine ⟨hindex, hburst, (refresh cfg click fl (pickFlow cfg click s).2).1.packet, ?_⟩
  dsimp only
  rw [hflows, hcount, pickFlow_kept.2]

/-- The packet of the flow as it goes out. -/
theorem refresh_owned (hlaw : click.Lawful live alone)
    (h : click.Owned live (owner s.flows held) (Sum.elim F fun _ => H) s.mem)
    (hfl : s.flows i = some fl)
    (hF : ∀ d, F i d →
      F' i (if cfg.flowsize ≤ fl.flowCount then newPorts cfg click s.drawn d else d))
    (hothers : ∀ j ≠ i, ∀ d, F j d → F' j d) (n : UInt32) :
    click.Owned live
      (owner (Function.update s.flows i (some ⟨(refresh cfg click fl s).1.packet, n⟩)) held)
      (Sum.elim F' fun _ => H) (refresh cfg click fl s).2.mem := by
  rw [refresh]
  by_cases hfull : cfg.flowsize ≤ fl.flowCount
  · simp only [if_pos hfull] at hF ⊢
    exact changePorts_owned hlaw h hfl hF hothers n
  · simp only [if_neg hfull] at hF ⊢
    have hp : owner s.flows held (.inl i) = some fl.packet := owner_flow hfl
    have hsame : owner (Function.update s.flows i (some ⟨fl.packet, n⟩)) held =
        owner s.flows held := by
      rw [owner_update, ← hp, Function.update_eq_self]
    rw [hsame]
    refine h.mono ?_
    rintro (j | k) r hr hd
    · rcases eq_or_ne j i with rfl | hne
      · exact hF _ hd
      · exact hothers j hne _ hd
    · exact hd

/-- **After `get_packet`** there is a packet more downstream, with the contents that the flow's
packet has. -/
theorem Got.owned {q : Ref} (hgot : Got cfg click s i fl q s') (hlaw : click.Lawful live alone)
    (h : click.Owned live (owner s.flows held) (Sum.elim F fun _ => H) s.mem)
    (hF : ∀ drawn d, F i d →
      F' i (if cfg.flowsize ≤ fl.flowCount then newPorts cfg click drawn d else d))
    (hothers : ∀ j ≠ i, ∀ d, F j d → F' j d) (hH : ∀ d, F' i d → H d) :
    click.Owned live (owner s'.flows (held ++ [q])) (Sum.elim F' fun _ => H) s'.mem ∧
      F' i (click.data s'.mem q) := by
  obtain ⟨hmem, hflows⟩ := @pickFlow_kept M Ref cfg click s
  obtain ⟨rfl, rfl⟩ := Prod.mk.inj hgot.sent
  have hfl : (pickFlow cfg click s).2.flows i = some fl := hflows ▸ hgot.flow
  have hrefreshed := refresh_owned hlaw (s := (pickFlow cfg click s).2) (by rwa [hmem, hflows])
    hfl (hF _) hothers
    ((refresh cfg click fl (pickFlow cfg click s).2).1.flowCount + 1)
  rw [← refresh_rest.1] at hrefreshed
  have hp : owner (Function.update (refresh cfg click fl (pickFlow cfg click s).2).2.flows i
      (some ⟨(refresh cfg click fl (pickFlow cfg click s).2).1.packet,
        (refresh cfg click fl (pickFlow cfg click s).2).1.flowCount + 1⟩)) held (.inl i) =
      some (refresh cfg click fl (pickFlow cfg click s).2).1.packet := by
    simp
  have hsent := hrefreshed.contents hp
  refine ⟨?_, ?_⟩
  · rw [owner_append]
    exact hrefreshed.clone hlaw hp (hH _ hsent)
  · rw [(hlaw.clone (hrefreshed.inUse hp)).2.2.1]
    exact hsent

/-! ## Giving up -/

/-- Flows that have no packets. -/
theorem owned_none {m : M} {flows : ℕ → Option (Flow Ref)}
    (h : click.Owned live (owner flows held) (Sum.elim F fun _ => H) m) :
    click.Owned live (owner (fun _ => none) held) (Sum.elim F' fun _ => H) m := by
  have hkept := h.comap (owner (fun _ => none) held) id (fun _ _ heq => heq) ?_
  · refine hkept.mono ?_
    rintro (i | k) r hr hd
    · cases hr
    · exact hd
  · rintro (i | k) r hr
    · cases hr
    · exact hr

/-- **Downstream gives up a packet.** -/
theorem kill_owned (hlaw : click.Lawful live alone)
    (h : click.Owned live (owner s.flows held) (Sum.elim F fun _ => H) s.mem) {k : ℕ} {r : Ref}
    (hr : held[k]? = some r) :
    click.Owned live (owner s.flows (held.eraseIdx k)) (Sum.elim F fun _ => H)
      (click.kill s.mem r) := by
  have hk : owner s.flows held (.inr k) = some r := hr
  have hkilled : click.Owned live (Function.update (owner s.flows held) (.inr k) none)
      (Sum.elim F fun _ => H) (click.kill s.mem r) := by
    refine h.kill hlaw hk fun j r' hj => ?_
    rcases eq_or_ne j (.inr k) with rfl | hne
    · rw [Function.update_self] at hj
      cases hj
    · exact ⟨hne, by rwa [Function.update_of_ne hne] at hj⟩
  -- the packets behind the `k`-th move up
  have hmoved := hkilled.comap (owner s.flows (held.eraseIdx k))
    (Sum.map id fun n => if n < k then n else n + 1) ?_ ?_
  · refine hmoved.mono ?_
    rintro (j | n) r' - hd <;> exact hd
  · rintro (j | n) (j' | n') heq
    · exact congrArg Sum.inl (Sum.inl_injective heq)
    · cases heq
    · cases heq
    · have hn : (if n < k then n else n + 1) = if n' < k then n' else n' + 1 :=
        Sum.inr_injective heq
      refine congrArg Sum.inr ?_
      split at hn <;> split at hn <;> omega
  · rintro (j | n) r' hr'
    · rw [Sum.map_inl, Function.update_of_ne Sum.inl_ne_inr]
      exact hr'
    · rw [owner_inr, List.getElem?_eraseIdx] at hr'
      rw [Sum.map_inr, Function.update_of_ne, owner_inr]
      · split
        · next hlt => rwa [if_pos hlt] at hr'
        · next hge => rwa [if_neg hge] at hr'
      · rw [ne_eq, Sum.inr.injEq]
        split <;> omega

end FastUdp

end Fajita
