import Fajita.HashTables
import Fajita.Collection

/-!
# Where the hash does not matter

A table by key says everything of a table by hash as long as no two flows in it have the same key
(`Keyed`). `Mirrors t sh` says so of the tables `t` of a shard and of the shard `sh` of the router:
the same states, the same recorded flows, the same sorted flows. A lookup that meets no second hash
keeps this, and so does an epoch (`Mirrors.step`); so what has been proved of lookups and epochs by
key holds of the tables by hash. `Fajita.Recording` and `Fajita.Portions` are two such results.

No lookup meets a second hash if the packets have one hash for each 4-tuple and shard
(`oneHash_of_packets`); then every run of the router is a run of the hash tables as well
(`router_mirrored`).
-/

namespace Fajita

open Controller ShardInfo

section

variable {D : Type} {f g : DyssectFlow} {T : DyssectFlow → Option (DyssectState D)}
  {S : FlowKey → Option (DyssectState D)}

/-! ## Tables by key

As long as no two flows of a table have the same key, the table by key says everything. The loops
over a table write under flows that are in it, and a lookup under the one flow it comes to; both
keep that.
-/

/-- `S` is the table `T`, by key. -/
structure Keyed (T : DyssectFlow → Option (DyssectState D))
    (S : FlowKey → Option (DyssectState D)) : Prop where
  /-- a state is found under the key of its flow -/
  same : ∀ g, (T g).isSome = true → S g.key = T g
  /-- and nothing else is found -/
  onto : ∀ k, (S k).isSome = true → ∃ g, g.key = k ∧ (T g).isSome = true
  /-- flows of one key are the same -/
  inj : ∀ g g', (T g).isSome = true → (T g').isSome = true → g.key = g'.key → g = g'

namespace Keyed

/-- A flow of the table is alone with its key. -/
theorem alone (h : Keyed T S) (hf : (T f).isSome = true) :
    Alone DyssectFlow.EqualTo (fun g => (T g).isSome = true) f := fun g hg hkey =>
  h.inj g f hg hf hkey

/-- What the two tables hold for a flow that is alone with its key. -/
theorem get (h : Keyed T S) (halone : Alone DyssectFlow.EqualTo (fun g => (T g).isSome = true) f) :
    S f.key = T f := by
  cases hf : T f with
  | some st =>
    rw [← hf]
    exact h.same f (by rw [hf]; rfl)
  | none =>
    by_contra hsome
    obtain ⟨g, hkey, hg⟩ := h.onto f.key (Option.isSome_iff_ne_none.mpr hsome)
    rw [halone g hg hkey, hf] at hg
    cases hg

/-- Writing a state under such a flow. -/
theorem update (h : Keyed T S)
    (halone : Alone DyssectFlow.EqualTo (fun g => (T g).isSome = true) f) (st : DyssectState D) :
    Keyed (Function.update T f (some st)) (Function.update S f.key (some st)) := by
  have hother : ∀ g, g ≠ f → (Function.update T f (some st) g).isSome = true →
      (T g).isSome = true ∧ g.key ≠ f.key := by
    intro g hne hg
    rw [Function.update_of_ne hne] at hg
    exact ⟨hg, fun hkey => hne (halone g hg hkey)⟩
  refine ⟨fun g hg => ?_, fun k hk => ?_, fun g g' hg hg' hkey => ?_⟩
  · by_cases hgf : g = f
    · rw [hgf, Function.update_self, Function.update_self]
    · obtain ⟨hstored, hkey⟩ := hother g hgf hg
      rw [Function.update_of_ne hgf, Function.update_of_ne hkey, h.same g hstored]
  · by_cases hkf : k = f.key
    · exact ⟨f, hkf.symm, by rw [Function.update_self]; rfl⟩
    · rw [Function.update_of_ne hkf] at hk
      obtain ⟨g, rfl, hg⟩ := h.onto k hk
      have hgf : g ≠ f := fun heq => hkf (congrArg DyssectFlow.key heq)
      exact ⟨g, rfl, by rw [Function.update_of_ne hgf]; exact hg⟩
  · by_cases hgf : g = f
    · by_contra hne
      exact (hother g' (fun heq => hne (hgf.trans heq.symm)) hg').2 (by rw [← hkey, hgf])
    · by_cases hgf' : g' = f
      · exact absurd (by rw [hkey, hgf']) (hother g hgf hg).2
      · exact h.inj g g' (hother g hgf hg).1 (hother g' hgf' hg').1 hkey

/-- Among flows of the table, a key stands for its flow. -/
theorem mem_map_key (h : Keyed T S) {gs : List DyssectFlow} (hgs : ∀ g ∈ gs, (T g).isSome = true)
    (hg : (T g).isSome = true) : g.key ∈ gs.map DyssectFlow.key ↔ g ∈ gs := by
  rw [List.mem_map]
  constructor
  · rintro ⟨g', hg', hkey⟩
    rw [← h.inj g' g (hgs g' hg') hg hkey]
    exact hg'
  · exact fun hmem => ⟨g, hmem, rfl⟩

/-- Copying the shares of flows of the table. -/
theorem copyProb (h : Keyed T S) {gs : List DyssectFlow} (hgs : ∀ g ∈ gs, (T g).isSome = true) :
    Keyed (copyProb gs T) (copyProb (gs.map DyssectFlow.key) S) := by
  refine ⟨fun g hg => ?_, fun k hk => ?_, fun g g' hg hg' hkey => ?_⟩
  · rw [copyProb_isSome] at hg
    simp only [Controller.copyProb, h.mem_map_key hgs hg, h.same g hg]
  · rw [copyProb_isSome] at hk
    obtain ⟨g, hkey, hg⟩ := h.onto k hk
    exact ⟨g, hkey, by rw [copyProb_isSome]; exact hg⟩
  · rw [copyProb_isSome] at hg hg'
    exact h.inj g g' hg hg' hkey

/-- Summing up the shares of flows of the table. -/
theorem assignCdf [Double D] {vec : List DyssectFlow} (h : Keyed T S)
    (hvec : ∀ g ∈ vec, (T g).isSome = true) (accum : D) :
    Keyed (assignCdf accum vec T) (assignCdf accum (vec.map DyssectFlow.key) S) := by
  induction vec generalizing T S accum with
  | nil => exact h
  | cons f vec ih =>
    have hf := hvec f List.mem_cons_self
    obtain ⟨st, hst⟩ := Option.isSome_iff_exists.mp hf
    have hS : S f.key = some st := (h.same f hf).trans hst
    rw [List.map_cons, Controller.assignCdf, Controller.assignCdf, hst, hS]
    refine ih (h.update (h.alone hf) _) (fun g hg => ?_) _
    by_cases hgf : g = f
    · rw [hgf, Function.update_self]
      rfl
    · rw [Function.update_of_ne hgf]
      exact hvec g (List.mem_cons_of_mem _ hg)

end Keyed

end

section

variable {D : Type} [Double D] {s : ℕ} {f g : DyssectFlow} {hit slot : Option DyssectFlow}
  {t : FlowTables D} {sh : ShardInfo D} {vec : List DyssectFlow} {p : Packet} {solver : Bool}
  {e : UInt32}

/-! ## What lookups and epochs do to the tables -/

namespace FlowTables

/-- The state that `extract_state` finds or makes, before it adds the bytes of the packet. -/
def entry (solver : Bool) (e : UInt32) (s : ℕ) (g : DyssectFlow) (p : Packet) (t : FlowTables D) :
    DyssectState D :=
  match t.table g with
  | some st => if !isPriority p && solver then rollover e t.oldBytes st else st
  | none =>
    { cdf := 0
      prob := 0
      prob2 := 0
      priority := isPriority p
      epoch := if solver then e else 0
      bytes := 0
      shard := s
      flow := g.key }

/-- A lookup that comes to a state. -/
theorem extractState_some (hg : hit.getD f = g) {st : DyssectState D} (hst : t.table g = some st) :
    t.extractState solver e s f p hit slot =
      countPacket solver p g (touchFlow solver e p g slot st t) := by
  subst hg
  simp only [extractState, hst]

/-- A lookup that comes to none. -/
theorem extractState_none (hg : hit.getD f = g) (hst : t.table g = none) :
    t.extractState solver e s f p hit slot =
      countPacket solver p g (createFlow solver e s p g t) := by
  subst hg
  simp only [extractState, hst]

/-- A lookup writes the state that it comes to. -/
theorem extractState_table (hg : hit.getD f = g) :
    (t.extractState solver e s f p hit slot).table =
      Function.update t.table g (some { t.entry solver e s g p with
        bytes := (t.entry solver e s g p).bytes + UInt64.ofNat p.ipLen }) := by
  cases hst : t.table g with
  | none =>
    rw [extractState_none hg hst]
    simp only [countPacket, createFlow, entry, hst, Function.update_self, Option.map_some,
      Function.update_idem]
  | some st =>
    rw [extractState_some hg hst]
    simp only [countPacket, touchFlow, entry, hst]
    split
    · simp only [Function.update_self, Option.map_some, Function.update_idem]
    · rw [hst, Option.map_some]

/-- After a lookup the state that it comes to is stored, and so are all that were. -/
theorem extractState_stored (hg : hit.getD f = g) {g' : DyssectFlow}
    (h : g' = g ∨ (t.table g').isSome = true) :
    ((t.extractState solver e s f p hit slot).table g').isSome = true := by
  rw [extractState_table hg]
  by_cases hgg : g' = g
  · rw [hgg, Function.update_self]
    rfl
  · rw [Function.update_of_ne hgg]
    exact h.resolve_left hgg

/-- Recording a flow changes one of the two tables only. -/
theorem touchFlow_kept (st : DyssectState D) :
    (touchFlow solver e p g slot st t).bytes = t.bytes ∧
      (touchFlow solver e p g slot st t).oldBytes = t.oldBytes ∧
      (touchFlow solver e p g slot st t).orderedFlows = t.orderedFlows ∧
      (touchFlow solver e p g slot st t).idle = t.idle := by
  unfold touchFlow idle
  split
  · refine ⟨rfl, rfl, rfl, ?_⟩
    dsimp only
    split <;> rfl
  · exact ⟨rfl, rfl, rfl, rfl⟩

/-- A lookup counts the packet, if the solver option is on, and leaves the rest alone. -/
theorem extractState_kept : (t.extractState solver e s f p hit slot).bytes =
      (if solver then t.bytes + UInt32.ofNat p.ipLen else t.bytes) ∧
    (t.extractState solver e s f p hit slot).oldBytes = t.oldBytes ∧
    (t.extractState solver e s f p hit slot).orderedFlows = t.orderedFlows ∧
    (t.extractState solver e s f p hit slot).idle = t.idle := by
  cases hst : t.table (hit.getD f) with
  | none =>
    rw [extractState_none rfl hst]
    exact ⟨rfl, rfl, rfl, rfl⟩
  | some st =>
    obtain ⟨hbytes, hold, hordered, hidle⟩ :=
      @touchFlow_kept _ _ (hit.getD f) slot t p solver e st
    rw [extractState_some rfl hst]
    refine ⟨?_, hold, hordered, hidle⟩
    simp only [countPacket, hbytes]

/-- A state that a regular packet has found is recorded. -/
theorem extractState_recording (hg : hit.getD f = g) :
    (t.extractState solver e s f p hit slot).recording =
      if (t.table g).isSome && !isPriority p && solver then setEntry slot g g t.recording
      else t.recording := by
  cases hst : t.table g with
  | none =>
    rw [extractState_none hg hst]
    rfl
  | some st =>
    rw [extractState_some hg hst, Option.isSome_some, Bool.true_and]
    change (touchFlow solver e p g slot st t).recording = _
    unfold touchFlow recording
    by_cases hreg : (!isPriority p && solver) = true
    · simp only [hreg, if_true]
      split <;> rfl
    · simp only [hreg, if_false, Bool.false_eq_true]

/-- An epoch swaps the tables, and clears the one that it has gone over. -/
theorem close_tables : (t.close vec).idle = [] ∧ (t.close vec).recording = t.idle ∧
    (t.close vec).orderedFlows = vec ∧ (t.close vec).bytes = 0 ∧
    (t.close vec).oldBytes = t.bytes := by
  unfold close clear idle recording order swap
  cases t.use2 <;> exact ⟨rfl, rfl, rfl, rfl, rfl⟩

omit [Double D] in
/-- The flows of the epoch are those that have been recorded. -/
theorem collected_swap : t.swap.collected = t.recording.map Prod.snd := by
  rw [collected, idle, swap, recording]
  cases t.use2 <;> rfl

/-- The flows of the epoch get their shares and the sums of the shares. -/
theorem close_table : (t.close vec).table =
    assignCdf 0 vec (copyProb (t.recording.map Prod.snd) t.table) := by
  rw [← collected_swap]
  simp only [close, clear, order, pushFlows_eq]
  split <;> rfl

/-- An epoch makes no state. -/
theorem close_isSome (g : DyssectFlow) : ((t.close vec).table g).isSome = (t.table g).isSome := by
  rw [close_table, assignCdf_isSome, copyProb_isSome]

end FlowTables

/-! ## The shard by key -/

/-- The shard `sh` of the router has the tables `t`, by key. -/
structure Mirrors (t : FlowTables D) (sh : ShardInfo D) : Prop where
  /-- the states -/
  table : Keyed t.table sh.table
  /-- a state is stored under its key -/
  named : ∀ k, ∀ st ∈ sh.table k, st.flow = k
  /-- the bytes of the running epoch -/
  bytes : sh.bytes = t.bytes
  /-- the bytes of the last epoch -/
  oldBytes : sh.oldBytes = t.oldBytes
  /-- the recorded flows -/
  recording : sh.recording = t.recording.map fun x => x.2.key
  /-- the flows of the other table -/
  idle : Controller.collected sh = t.idle.map fun x => x.2.key
  /-- an entry leads to the state of its own key, and there is one -/
  plain : ∀ x ∈ t.recording ++ t.idle, x.1 = x.2 ∧ (t.table x.2).isSome = true
  /-- the sorted flows -/
  ordered : sh.orderedFlows = t.orderedFlows.map DyssectFlow.key
  /-- they have states -/
  listed : ∀ g ∈ t.orderedFlows, (t.table g).isSome = true

namespace Mirrors

/-- At first there is nothing in the tables. -/
theorem empty {cfg : Cfg} : Mirrors (FlowTables.empty D) ((init D cfg).shards s) where
  table := ⟨nofun, nofun, nofun⟩
  named := nofun
  bytes := rfl
  oldBytes := rfl
  recording := rfl
  idle := rfl
  plain := nofun
  ordered := rfl
  listed := nofun

omit [Double D] in
/-- A lookup that meets no other flow with the key of the packet comes to the flow of the packet. -/
theorem found (hhit : Finds DyssectFlow.EqualTo (fun g => (t.table g).isSome = true) f hit)
    (halone : Alone DyssectFlow.EqualTo (fun g => (t.table g).isSome = true) f) :
    hit.getD f = f ∧ hit.isSome = (t.table f).isSome := by
  refine ⟨hhit.getD_eq halone, ?_⟩
  rw [hhit.eq halone]
  by_cases hf : (t.table f).isSome = true
  · rw [if_pos hf, hf]
    rfl
  · rw [if_neg hf]
    exact (Bool.eq_false_iff.mpr hf).symm

omit [Double D] in
/-- Recording a flow that is alone with its key. -/
theorem setEntry_recording (h : Mirrors t sh) (hf : (t.table f).isSome = true)
    (hslot : Finds DyssectFlow.EqualTo (· ∈ t.recording.map Prod.fst) f slot) :
    setEntry slot f f t.recording =
        (if f ∈ t.recording.map Prod.fst then t.recording else t.recording ++ [(f, f)]) ∧
      (f ∈ t.recording.map Prod.fst ↔ f.key ∈ sh.recording) := by
  have hplain : ∀ x ∈ t.recording, x.1 = x.2 ∧ (t.table x.2).isSome = true := fun x hx =>
    h.plain x (List.mem_append_left _ hx)
  have hmem : ∀ g ∈ t.recording.map Prod.fst, (t.table g).isSome = true := by
    intro g hg
    obtain ⟨x, hx, rfl⟩ := List.mem_map.mp hg
    rw [(hplain x hx).1]
    exact (hplain x hx).2
  refine ⟨setEntry_self (fun x hx => (hplain x hx).1) hslot
    fun g hg => h.table.alone hf g (hmem g hg), ?_⟩
  have hkeys : sh.recording = (t.recording.map Prod.fst).map DyssectFlow.key := by
    rw [h.recording, List.map_map]
    exact List.map_congr_left fun x hx => by rw [Function.comp_apply, (hplain x hx).1]
  rw [hkeys]
  exact (h.table.mem_map_key hmem hf).symm

/-- After such a lookup an entry still leads to the state of its own key. -/
theorem extractState_plain (h : Mirrors t sh) (hg : hit.getD f = f)
    (hslot : Finds DyssectFlow.EqualTo (· ∈ t.recording.map Prod.fst) f slot) :
    ∀ x ∈ (t.extractState solver e s f p hit slot).recording ++
        (t.extractState solver e s f p hit slot).idle,
      x.1 = x.2 ∧ ((t.extractState solver e s f p hit slot).table x.2).isSome = true := by
  have hstored : ∀ g, (t.table g).isSome = true →
      ((t.extractState solver e s f p hit slot).table g).isSome = true := fun g hstored =>
    FlowTables.extractState_stored hg (.inr hstored)
  have hrec := @FlowTables.extractState_recording _ _ s f f hit slot t p solver e hg
  obtain ⟨-, -, -, hidle⟩ := @FlowTables.extractState_kept _ _ s f hit slot t p solver e
  rw [hrec, hidle]
  intro x hx
  have hold : x ∈ t.recording ++ t.idle ∨ x = (f, f) ∧ (t.table f).isSome = true := by
    split at hx
    · next hregular =>
      have hf : (t.table f).isSome = true := by
        simp only [Bool.and_eq_true] at hregular
        exact hregular.1.1
      rw [(h.setEntry_recording hf hslot).1] at hx
      split at hx
      · exact .inl hx
      · rw [List.append_assoc, List.mem_append, List.singleton_append, List.mem_cons] at hx
        rcases hx with hx | hx | hx
        · exact .inl (List.mem_append_left _ hx)
        · exact .inr ⟨hx, hf⟩
        · exact .inl (List.mem_append_right _ hx)
    · exact .inl hx
  rcases hold with hx | ⟨rfl, hf⟩
  · exact ⟨(h.plain x hx).1, hstored _ (h.plain x hx).2⟩
  · exact ⟨rfl, hstored f hf⟩

/-- **A lookup** that meets no other flow with the key of the packet. -/
theorem extractState (h : Mirrors t sh) (hkey : f.key = p.flow)
    (halone : Alone DyssectFlow.EqualTo (fun g => (t.table g).isSome = true) f)
    (hhit : Finds DyssectFlow.EqualTo (fun g => (t.table g).isSome = true) f hit)
    (hslot : Finds DyssectFlow.EqualTo (· ∈ t.recording.map Prod.fst) (hit.getD f) slot) :
    Mirrors (t.extractState solver e s f p hit slot) (sh.extractState solver e s p) := by
  have hg := (found hhit halone).1
  rw [hg] at hslot
  have hget : sh.table p.flow = t.table f := by
    rw [← hkey]
    exact h.table.get halone
  have hentry : sh.entry solver e s p = t.entry solver e s f p := by
    cases hst : t.table f with
    | none => simp only [ShardInfo.entry, FlowTables.entry, hget, hst, hkey]
    | some st => simp only [ShardInfo.entry, FlowTables.entry, hget, hst, h.oldBytes]
  obtain ⟨hbytes, hold, hordered, hidle⟩ :=
    @FlowTables.extractState_kept _ _ s f hit slot t p solver e
  obtain ⟨-, hold', hordered', hidle'⟩ := @ShardInfo.extractState_kept _ _ s solver e p sh
  have htable := @FlowTables.extractState_table _ _ s f f hit slot t p solver e hg
  have hrec := @FlowTables.extractState_recording _ _ s f f hit slot t p solver e hg
  have hrec' := @ShardInfo.extractState_recording _ _ s solver e p sh (h.named p.flow)
  rw [finds, hget] at hrec'
  constructor
  · rw [htable, ShardInfo.extractState_table, hentry, ← hkey]
    exact h.table.update halone _
  · intro k st hst
    obtain ⟨rfl, rfl⟩ | ⟨-, hst⟩ := extractState_entries hst
    · exact entry_flow (h.named p.flow)
    · exact h.named k st hst
  · rw [hbytes, (@ShardInfo.extractState_counters _ _ s solver e p sh).1, h.bytes]
  · rw [hold, hold', h.oldBytes]
  · rw [hrec, hrec']
    split
    · next hregular =>
      have hf : (t.table f).isSome = true := by
        simp only [Bool.and_eq_true] at hregular
        exact hregular.1.1
      obtain ⟨hput, hmem⟩ := h.setEntry_recording hf hslot
      rw [hput, insertKey, ← hkey]
      simp only [← hmem]
      split
      · exact h.recording
      · rw [h.recording, List.map_append]
        rfl
    · exact h.recording
  · rw [hidle, hidle', h.idle]
  · exact h.extractState_plain hg hslot
  · rw [hordered', hordered, h.ordered]
  · intro g hmem
    rw [hordered] at hmem
    exact FlowTables.extractState_stored hg (.inr (h.listed g hmem))

omit [Double D] in
/-- The flows that an epoch goes over. -/
theorem recorded (h : Mirrors t sh) :
    (∀ g ∈ t.recording.map Prod.snd, (t.table g).isSome = true) ∧
      sh.recording = (t.recording.map Prod.snd).map DyssectFlow.key := by
  constructor
  · intro g hg
    obtain ⟨x, hx, rfl⟩ := List.mem_map.mp hg
    exact (h.plain x (List.mem_append_left _ hx)).2
  · rw [h.recording, List.map_map]
    rfl

/-- The flows of the epoch, sorted, are sorted by key. -/
theorem sorted (h : Mirrors t sh) (hvec : t.Sorted vec) :
    SortedFlows (swapShard sh) (vec.map DyssectFlow.key) := by
  obtain ⟨hstored, hrecording⟩ := h.recorded
  have hperm : vec.Perm (t.recording.map Prod.snd) := by
    rw [← FlowTables.collected_swap]
    exact hvec.perm
  rw [SortedFlows, collected_swapShard, hrecording, pushFlows_eq]
  rw [FlowTables.Sorted, FlowTables.collected_swap, pushFlows_eq] at hvec
  have hkeyed := h.table.copyProb hstored
  refine ⟨hperm.map _, List.pairwise_map.mpr (hvec.2.imp_of_mem fun {g g'} hg hg' hle => ?_)⟩
  -- the two tables hold the same states
  have hsame : ∀ {g}, g ∈ vec → Controller.copyProb ((t.recording.map Prod.snd).map DyssectFlow.key)
      sh.table g.key = Controller.copyProb (t.recording.map Prod.snd) t.table g := by
    intro g hg
    refine hkeyed.same g ?_
    rw [Controller.copyProb, if_pos (hperm.subset hg), Option.isSome_map]
    exact hstored g (hperm.subset hg)
  intro st hst st' hst'
  dsimp only [swapShard] at hst hst'
  rw [hsame hg] at hst
  rw [hsame hg'] at hst'
  exact hle st hst st' hst'

/-- **An epoch.** -/
theorem close (h : Mirrors t sh) (hvec : t.Sorted vec) :
    Mirrors (t.close vec) (closeEpoch (vec.map DyssectFlow.key) sh) := by
  obtain ⟨hstored, hrecording⟩ := h.recorded
  have hperm : vec.Perm (t.recording.map Prod.snd) := by
    rw [← FlowTables.collected_swap]
    exact hvec.perm
  have hperm' : (vec.map DyssectFlow.key).Perm sh.recording := by
    rw [hrecording]
    exact hperm.map _
  obtain ⟨hidle, hrec, hordered, hbytes, hold⟩ := @FlowTables.close_tables _ _ t vec
  obtain ⟨hidle', hrec', hordered'⟩ := @closeEpoch_tables _ _ sh (vec.map DyssectFlow.key)
  obtain ⟨hbytes', hold'⟩ := @closeEpoch_counters _ _ sh (vec.map DyssectFlow.key)
  have hkept := @FlowTables.close_isSome _ _ t vec
  constructor
  · rw [FlowTables.close_table, closeEpoch_loops, hrecording]
    refine (h.table.copyProb hstored).assignCdf (fun g hg => ?_) 0
    rw [copyProb_isSome]
    exact hstored g (hperm.subset hg)
  · intro k st hst
    obtain ⟨st', hst', hflow, -⟩ := closeEpoch_entries hperm' hst
    exact hflow.trans (h.named k st' hst')
  · rw [hbytes', hbytes]
  · rw [hold', hold, h.bytes]
  · rw [hrec', hrec, h.idle]
  · rw [hidle', hidle]
    rfl
  · rw [hidle, hrec, List.append_nil]
    intro x hx
    obtain ⟨hself, hx⟩ := h.plain x (List.mem_append_right _ hx)
    exact ⟨hself, by rw [hkept]; exact hx⟩
  · rw [hordered', hordered]
  · rw [hordered]
    intro g hg
    rw [hkept]
    exact hstored g (hperm.subset hg)

end Mirrors

/-! ## Runs -/

section

variable {cfg : Cfg} {τ : FlowSys D} {a : FlowAct}

/-- What a step does to the tables of a shard by key. -/
def keyStep (cfg : Cfg) (s : ℕ) (e : UInt32) (a : FlowAct) (sh : ShardInfo D) : ShardInfo D :=
  match a with
  | .lookup w p _ _ =>
    if cfg.shardOf p = s then sh.extractState (cfg.workerSolver w) e s p else sh
  | .epoch vec => closeEpoch ((vec s).map DyssectFlow.key) sh

/-- A lookup touches the shard of its packet. -/
theorem flowStep_lookup (w : ℕ) (p : Packet) (hit slot : Option DyssectFlow) :
    (flowStep cfg τ (.lookup w p hit slot)).shards s =
      if cfg.shardOf p = s then
        (τ.shards s).extractState (cfg.workerSolver w) τ.epoch s (cfg.flowOf p) p hit slot
      else τ.shards s := by
  rw [flowStep]
  dsimp only
  by_cases hs : cfg.shardOf p = s
  · subst hs
    rw [if_pos rfl, Function.update_self]
  · rw [if_neg hs, Function.update_of_ne (Ne.symm hs)]

/-- An epoch closes every shard. -/
theorem flowStep_epoch (s : ℕ) (vec : ℕ → List DyssectFlow) :
    (flowStep cfg τ (.epoch vec)).shards s =
      if s < cfg.totalShards then (τ.shards s).close (vec s) else τ.shards s :=
  congrFun (forRange_update cfg.totalShards
    (fun s (t : FlowTables D) => t.close (vec s)) τ.shards) s

/-- **The simulation**: a step that meets no second hash does to the tables what it does to the
tables by key. -/
theorem Mirrors.step (hs : s < cfg.totalShards) (h : Mirrors (τ.shards s) sh)
    (ha : FlowPossible cfg τ a) (hone : OneHash cfg τ a) :
    Mirrors ((flowStep cfg τ a).shards s) (keyStep cfg s τ.epoch a sh) := by
  cases a with
  | lookup w p hit slot =>
    obtain ⟨-, hhit, hslot⟩ := ha
    rw [flowStep_lookup, keyStep]
    by_cases hp : cfg.shardOf p = s
    · subst hp
      rw [if_pos rfl, if_pos rfl]
      exact h.extractState rfl hone hhit hslot
    · rw [if_neg hp, if_neg hp]
      exact h
  | epoch vec =>
    rw [flowStep_epoch, if_pos hs]
    exact h.close (ha s hs)

/-! ## One hash

No lookup meets a second hash if the packets of one 4-tuple in one shard have one `hash_value`. The
flows that have states are then known: they have been made for packets that were looked up.
-/

/-- The packets of a step. -/
def FlowAct.packets : FlowAct → List Packet
  | .lookup _ p _ _ => [p]
  | .epoch _ => []

/-- The packets have one hash for each 4-tuple and shard. -/
def OneHashEach (cfg : Cfg) (ps : List Packet) : Prop :=
  ∀ p ∈ ps, ∀ p' ∈ ps, p.flow = p'.flow → cfg.shardOf p = cfg.shardOf p' →
    cfg.hashValue p = cfg.hashValue p'

instance (cfg : Cfg) (ps : List Packet) : Decidable (OneHashEach cfg ps) :=
  inferInstanceAs (Decidable (∀ p ∈ ps, ∀ p' ∈ ps, _ → _ → _))

/-- A state that is there after a step was there before, or is that of the packet. -/
theorem stored_of_flowStep (ha : FlowPossible cfg τ a) {g : DyssectFlow}
    (hg : (((flowStep cfg τ a).shards s).table g).isSome = true) :
    ((τ.shards s).table g).isSome = true ∨
      ∃ p ∈ a.packets, cfg.shardOf p = s ∧ cfg.flowOf p = g := by
  cases a with
  | lookup w p hit slot =>
    rw [flowStep_lookup] at hg
    split at hg
    · next hp =>
      subst hp
      rw [FlowTables.extractState_table rfl] at hg
      by_cases hgf : g = hit.getD (cfg.flowOf p)
      · cases hhit : hit with
        | none =>
          rw [hhit] at hgf
          exact .inr ⟨p, List.mem_singleton_self p, rfl, hgf.symm⟩
        | some g' =>
          rw [hhit] at hgf
          have hsound := (ha.2.1.sound g' hhit).1
          rw [← show g = g' from hgf] at hsound
          exact .inl hsound
      · rw [Function.update_of_ne hgf] at hg
        exact .inl hg
    · exact .inl hg
  | epoch vec =>
    rw [flowStep_epoch] at hg
    split at hg
    · rw [FlowTables.close_isSome] at hg
      exact .inl hg
    · exact .inl hg

/-- **Packets whose hashes agree** never meet a second hash. -/
theorem oneHash_of_packets {acts : List FlowAct}
    (hrun : Along (flowStep cfg) (FlowPossible cfg) (FlowSys.init D) acts)
    (hagree : OneHashEach cfg (acts.flatMap FlowAct.packets)) :
    Along (flowStep cfg) (OneHash cfg) (FlowSys.init D) acts := by
  have hmem : ∀ a ∈ acts, ∀ p ∈ a.packets, p ∈ acts.flatMap FlowAct.packets :=
    fun a ha p hp => List.mem_flatMap.mpr ⟨a, ha, hp⟩
  refine Along.imp_inv (I := fun τ => ∀ s g, ((τ.shards s).table g).isSome = true →
      ∃ p ∈ acts.flatMap FlowAct.packets, cfg.shardOf p = s ∧ cfg.flowOf p = g)
    (fun τ a hτ ha s g hg => ?_) (fun τ a hτ ha => ?_) nofun (hrun.and (Along.of_forall hmem))
  · rcases stored_of_flowStep ha.1 hg with hg | ⟨p, hp, hflow⟩
    · exact hτ s g hg
    · exact ⟨p, ha.2 p hp, hflow⟩
  · cases a with
    | lookup w p hit slot =>
      intro g hg hkey
      obtain ⟨p', hp', hshard, rfl⟩ := hτ _ g hg
      have hhash := hagree p' hp' p (ha.2 p (List.mem_singleton_self p)) hkey hshard
      exact DyssectFlow.mk.injEq .. ▸ ⟨hkey, hhash⟩
    | epoch vec => trivial

/-! ## The router

With one hash for each 4-tuple of a shard, what the router does to the tables by key is what it does
to the tables by hash: a task is the lookups of its packets, an epoch is an epoch, and nothing else
touches the tables.
-/

/-- The tables `τ` are those of the shards, in epoch `e`, and each flow has the hash that goes with
its key. -/
structure Mirrored (cfg : Cfg) (hash : ℕ → FlowKey → ℕ) (e : UInt32) (shards : ℕ → ShardInfo D)
    (τ : FlowSys D) : Prop where
  /-- `epoch` -/
  epoch : τ.epoch = e
  /-- the tables -/
  shards : ∀ s < cfg.totalShards, Mirrors (τ.shards s) (shards s)
  /-- the flows -/
  hashed : ∀ s < cfg.totalShards, ∀ g, ((τ.shards s).table g).isSome = true →
    g.hashValue = hash s g.key

/-- The packet has the hash that goes with its key and its shard. -/
def HashedBy (cfg : Cfg) (hash : ℕ → FlowKey → ℕ) (p : Packet) : Prop :=
  cfg.hashValue p = hash (cfg.shardOf p) p.flow

instance (cfg : Cfg) (hash : ℕ → FlowKey → ℕ) : DecidablePred (HashedBy cfg hash) := fun p =>
  inferInstanceAs (Decidable (cfg.hashValue p = _))

/-- The lookup of a packet by core `w`, where the flow is found if it is there. -/
def lookupOf (cfg : Cfg) (w : ℕ) (p : Packet) (τ : FlowSys D) : FlowAct :=
  .lookup w p
    (if ((τ.shards (cfg.shardOf p)).table (cfg.flowOf p)).isSome = true then some (cfg.flowOf p)
      else none)
    (if cfg.flowOf p ∈ (τ.shards (cfg.shardOf p)).recording.map Prod.fst then some (cfg.flowOf p)
      else none)

section

variable {hash : ℕ → FlowKey → ℕ} {shards : ℕ → ShardInfo D} {w : ℕ}

/-- The shards may differ in what lookups neither read nor write. -/
theorem Mirrors.of_book {sh' : ShardInfo D} (hbook : sh'.book = sh.book) (h : Mirrors t sh) :
    Mirrors t sh' := by
  obtain ⟨htable, huse, hbytes, -, hold, hflows, hflows₂, hordered⟩ := book_fields hbook
  have hidle : collected sh' = collected sh := by rw [collected, collected, huse, hflows, hflows₂]
  have hrec : sh'.recording = sh.recording := by
    rw [ShardInfo.recording, ShardInfo.recording, huse, hflows, hflows₂]
  constructor
  · rw [htable]
    exact h.table
  · rw [htable]
    exact h.named
  · rw [hbytes, h.bytes]
  · rw [hold, h.oldBytes]
  · rw [hrec, h.recording]
  · rw [hidle, h.idle]
  · exact h.plain
  · rw [hordered, h.ordered]
  · exact h.listed

/-- **A lookup** of the router. -/
theorem Mirrored.lookup (h : Mirrored cfg hash e shards τ) (hw : w < cfg.W)
    (hp : HashedBy cfg hash p) :
    (FlowPossible cfg τ (lookupOf cfg w p τ) ∧ OneHash cfg τ (lookupOf cfg w p τ)) ∧
      Mirrored cfg hash e (Fajita.extractState cfg w e p shards)
        (flowStep cfg τ (lookupOf cfg w p τ)) := by
  have hs := cfg.shardOf_lt p
  have halone : Alone DyssectFlow.EqualTo
      (fun g => ((τ.shards (cfg.shardOf p)).table g).isSome = true) (cfg.flowOf p) := by
    intro g hg hkey
    have hhash := h.hashed _ hs g hg
    rw [show g.key = p.flow from hkey, ← hp] at hhash
    exact DyssectFlow.mk.injEq .. ▸ ⟨hkey, hhash⟩
  have hhit := @Finds.of_self _ DyssectFlow.EqualTo
    (fun g => ((τ.shards (cfg.shardOf p)).table g).isSome = true) (cfg.flowOf p) _ rfl
  have hpossible : FlowPossible cfg τ (lookupOf cfg w p τ) := by
    refine ⟨hw, hhit, ?_⟩
    rw [hhit.getD_eq halone]
    exact Finds.of_self rfl
  refine ⟨⟨hpossible, halone⟩, h.epoch, fun s hs => ?_, fun s hs g hg => ?_⟩
  · have hstep := (h.shards s hs).step hs hpossible halone
    rw [h.epoch, lookupOf, keyStep] at hstep
    rw [Fajita.extractState, updateShard]
    by_cases hps : cfg.shardOf p = s
    · subst hps
      rw [Function.update_self]
      rw [if_pos rfl] at hstep
      exact hstep
    · rw [Function.update_of_ne (Ne.symm hps)]
      rw [if_neg hps] at hstep
      exact hstep
  · rcases stored_of_flowStep hpossible hg with hg | ⟨p', hp', rfl, rfl⟩
    · exact h.hashed s hs g hg
    · obtain rfl := List.mem_singleton.mp hp'
      exact hp

/-- **The lookups of a batch.** -/
theorem Mirrored.lookups (h : Mirrored cfg hash e shards τ) (hw : w < cfg.W) {ps : List Packet}
    (hps : ∀ p ∈ ps, HashedBy cfg hash p) :
    ∃ acts, Along (flowStep cfg) (fun τ a => FlowPossible cfg τ a ∧ OneHash cfg τ a) τ acts ∧
      acts.flatMap FlowAct.packets = ps ∧
      Mirrored cfg hash e (extractAll cfg w e ps shards) (runFrom (flowStep cfg) τ acts) := by
  induction ps generalizing τ shards with
  | nil => exact ⟨[], trivial, rfl, h⟩
  | cons p ps ih =>
    obtain ⟨hstep, hnext⟩ := h.lookup hw (hps p List.mem_cons_self)
    obtain ⟨acts, hacts, hpackets, hlast⟩ := ih hnext fun q hq => hps q (List.mem_cons_of_mem _ hq)
    refine ⟨lookupOf cfg w p τ :: acts, ⟨hstep, hacts⟩, ?_, hlast⟩
    rw [List.flatMap_cons, hpackets]
    rfl

/-- The flows of an epoch, sorted by key, are sorted. -/
theorem Mirrors.sorted_of_key {hash : FlowKey → ℕ} (h : Mirrors t sh)
    (hhashed : ∀ g, (t.table g).isSome = true → g.hashValue = hash g.key) {vec : List FlowKey}
    (hvec : SortedFlows (swapShard sh) vec) : t.Sorted (vec.map fun k => ⟨k, hash k⟩) := by
  obtain ⟨hstored, hrecording⟩ := h.recorded
  have hflow : ∀ g, (t.table g).isSome = true → ⟨g.key, hash g.key⟩ = g := fun g hg =>
    DyssectFlow.mk.injEq .. ▸ ⟨rfl, (hhashed g hg).symm⟩
  have hperm := hvec.perm
  rw [collected_swapShard, hrecording] at hperm
  have hback : ((t.recording.map Prod.snd).map DyssectFlow.key).map
      (fun k => (⟨k, hash k⟩ : DyssectFlow)) = t.recording.map Prod.snd := by
    rw [List.map_map]
    conv_rhs => rw [← List.map_id (t.recording.map Prod.snd)]
    exact List.map_congr_left fun g hg => hflow g (hstored g hg)
  have hperm' := hperm.map fun k => (⟨k, hash k⟩ : DyssectFlow)
  rw [hback] at hperm'
  rw [SortedFlows, collected_swapShard, hrecording, pushFlows_eq] at hvec
  rw [FlowTables.Sorted, FlowTables.collected_swap, pushFlows_eq]
  have hkeyed := h.table.copyProb hstored
  refine ⟨hperm', List.pairwise_map.mpr (hvec.2.imp_of_mem fun {k k'} hk hk' hle => ?_)⟩
  have hsame : ∀ {k}, k ∈ vec → Controller.copyProb (t.recording.map Prod.snd) t.table ⟨k, hash k⟩ =
      Controller.copyProb ((t.recording.map Prod.snd).map DyssectFlow.key) sh.table k := by
    intro k hk
    have hg := hperm'.subset (List.mem_map_of_mem hk)
    refine (hkeyed.same ⟨k, hash k⟩ ?_).symm
    rw [copyProb_isSome]
    exact hstored _ hg
  intro st hst st' hst'
  dsimp only [FlowTables.swap] at hst hst'
  rw [hsame hk] at hst
  rw [hsame hk'] at hst'
  exact hle st hst st' hst'

/-- **A step of the router** is a run of the tables. -/
theorem Mirrored.step {σ : Sys D} (hwired : Wired cfg σ)
    (h : Mirrored cfg hash σ.epoch σ.shards τ) {b : Act D} (hb : Possible cfg σ b)
    (hps : ∀ p ∈ (taskLog cfg σ b).extracted, HashedBy cfg hash p) :
    ∃ acts, Along (flowStep cfg) (fun τ a => FlowPossible cfg τ a ∧ OneHash cfg τ a) τ acts ∧
      acts.flatMap FlowAct.packets = (taskLog cfg σ b).extracted ∧
      Mirrored cfg hash (Fajita.step cfg σ b).epoch (Fajita.step cfg σ b).shards
        (runFrom (flowStep cfg) τ acts) := by
  -- it is enough to follow the books of the shards
  have hbooks : ∀ τ' : FlowSys D, Mirrored cfg hash (epochAfter σ b)
      (fun s => bookAfter cfg s σ b) τ' →
      Mirrored cfg hash (Fajita.step cfg σ b).epoch (Fajita.step cfg σ b).shards τ' := by
    intro τ' h'
    refine ⟨h'.epoch.trans (step_epoch hwired hb).symm, fun s hs => ?_, h'.hashed⟩
    exact (h'.shards s hs).of_book (step_book hwired hb hs)
  cases b with
  | arrive p => exact ⟨[], trivial, rfl, hbooks τ h⟩
  | offload e accept =>
    refine ⟨[], trivial, ?_, hbooks τ h⟩
    simp only [taskLog, OffloadingCore.runTask, OffloadingCore.poll]
    split <;> rfl
  | work w inp =>
    obtain ⟨acts, hacts, hpackets, hlast⟩ := h.lookups hb hps
    refine ⟨acts, hacts, hpackets, hbooks _ ⟨hlast.epoch, fun s hs => ?_, hlast.hashed⟩⟩
    have hshard := hlast.shards s hs
    rw [extractAll_shard] at hshard
    exact hshard
  | epoch ans vec =>
    have hsorted : ∀ s < cfg.totalShards,
        (τ.shards s).Sorted ((vec s).map fun k => ⟨k, hash s k⟩) := by
      intro s hs
      have hvec := hb s hs
      rw [swapShards_shard, if_pos hs] at hvec
      exact (h.shards s hs).sorted_of_key (h.hashed s hs) hvec
    refine ⟨[.epoch fun s => (vec s).map fun k => ⟨k, hash s k⟩], ⟨⟨hsorted, trivial⟩, trivial⟩,
      rfl, hbooks _ ⟨congrArg (· + 1) h.epoch, fun s hs => ?_, fun s hs g hg => ?_⟩⟩
    · rw [runFrom_cons, runFrom_nil, flowStep_epoch, if_pos hs]
      have hclose := (h.shards s hs).close (hsorted s hs)
      rw [List.map_map] at hclose
      have hid : (vec s).map (DyssectFlow.key ∘ fun k => (⟨k, hash s k⟩ : DyssectFlow)) = vec s :=
        List.map_id (vec s)
      rw [hid] at hclose
      exact hclose
    · rw [runFrom_cons, runFrom_nil, flowStep_epoch, if_pos hs, FlowTables.close_isSome] at hg
      exact h.hashed s hs g hg

/-- **Every run of the router** whose packets have one hash for each 4-tuple and shard is, as far as
the tables go, a run of the hash tables in which each lookup comes to the flow of its packet: the
states, the recorded and the sorted flows are the same. -/
theorem router_mirrored {acts : List (Act D)} (hrun : Along (Fajita.step cfg)
      (fun σ b => Possible cfg σ b ∧ ∀ p ∈ (taskLog cfg σ b).extracted, HashedBy cfg hash p)
      (init D cfg) acts) :
    ∃ flowActs, Along (flowStep cfg) (fun τ a => FlowPossible cfg τ a ∧ OneHash cfg τ a)
        (FlowSys.init D) flowActs ∧
      flowActs.flatMap FlowAct.packets =
        history (Fajita.step cfg) (fun σ b => (taskLog cfg σ b).extracted) (init D cfg) acts ∧
      Mirrored cfg hash (runFrom (Fajita.step cfg) (init D cfg) acts).epoch
        (runFrom (Fajita.step cfg) (init D cfg) acts).shards
        (runFrom (flowStep cfg) (FlowSys.init D) flowActs) := by
  have hfrom : ∀ {σ : Sys D} {τ : FlowSys D} {acts}, Wired cfg σ →
      Mirrored cfg hash σ.epoch σ.shards τ → Along (Fajita.step cfg)
        (fun σ b => Possible cfg σ b ∧ ∀ p ∈ (taskLog cfg σ b).extracted, HashedBy cfg hash p)
        σ acts →
      ∃ flowActs, Along (flowStep cfg) (fun τ a => FlowPossible cfg τ a ∧ OneHash cfg τ a)
          τ flowActs ∧
        flowActs.flatMap FlowAct.packets =
          history (Fajita.step cfg) (fun σ b => (taskLog cfg σ b).extracted) σ acts ∧
        Mirrored cfg hash (runFrom (Fajita.step cfg) σ acts).epoch
          (runFrom (Fajita.step cfg) σ acts).shards (runFrom (flowStep cfg) τ flowActs) := by
    intro σ τ acts hwired hσ hacts
    induction acts generalizing σ τ with
    | nil => exact ⟨[], trivial, rfl, hσ⟩
    | cons b acts ih =>
      obtain ⟨⟨hb, hps⟩, hrest⟩ := hacts
      obtain ⟨first, hfirst, hpackets, hnext⟩ := hσ.step hwired hb hps
      obtain ⟨others, hothers, hothersPackets, hlast⟩ := ih (hwired.step hb) hnext hrest
      refine ⟨first ++ others, along_append.mpr ⟨hfirst, hothers⟩, ?_, ?_⟩
      · rw [List.flatMap_append, hpackets, hothersPackets]
        rfl
      · rw [runFrom_append]
        exact hlast
  exact hfrom wired_init ⟨rfl, fun s _ => Mirrors.empty, nofun⟩ hrun

end

end

end

namespace Small

/-- The hash of the packets of this router, which have it in their source address. -/
def hashOf (_ : ℕ) (k : FlowKey) : ℕ := k.srcAddr

/-- Two packets of a flow, an epoch and a third packet. -/
def threePackets : List (Act ℚ) :=
  [.arrive (packet 1 0), .arrive (packet 2 0), .work 0 (task 2),
    .epoch none fun s => if s = 0 then [(packet 1 0).flow] else [],
    .arrive (packet 3 0), .work 0 (task 1)]

theorem threePackets_mirrored : ∃ acts,
    Along (flowStep (router 1)) (fun τ a => FlowPossible (router 1) τ a ∧ OneHash (router 1) τ a)
        (FlowSys.init ℚ) acts ∧
      acts.flatMap FlowAct.packets = history (Fajita.step (router 1))
        (fun σ b => (taskLog (router 1) σ b).extracted) (init ℚ (router 1)) threePackets ∧
      Mirrored (router 1) hashOf
        (runFrom (Fajita.step (router 1)) (init ℚ (router 1)) threePackets).epoch
        (runFrom (Fajita.step (router 1)) (init ℚ (router 1)) threePackets).shards
        (runFrom (flowStep (router 1)) (FlowSys.init ℚ) acts) :=
  router_mirrored (by decide +kernel)

end Small

end Fajita
