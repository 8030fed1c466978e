import Fajita.Chain
import Fajita.FlowOrder
import Fajita.Mailbox

/-!
# The network functions behind the cores

Behind output 0 of every core the packets go through a chain of network functions, which keep
their state for a flow in the slots of its `DyssectState`. The packet's annotation leads there,
set when a working core looks the packet up; an offloading core uses it without a look at the
tables. Here the tasks of the router drive the chain (`serve`).

`chain_follows_flow` is the account of it all, for every interleaving: as long as a flow is kept
in line, each function's state of the flow is what it makes of the packets pushed, by whichever
core, and these, followed by the packets that wait, are in the order of arrival. So for each flow
the cores together do what one core with one queue would do.
-/

namespace Fajita

namespace Chain

open WorkingCore

/-! ## The tasks at work

A task looks packets up and pushes packets, and its log says which and in which order. What the log
says is served here by the store and by the chain.
-/

/-- The flow states, and where the annotation of a packet leads. -/
structure Memory where
  /-- the tables and the states -/
  store : Store
  /-- the number of the packet's state -/
  anno : Packet → ℕ

/-- Before the first packet. -/
def Memory.init : Memory := ⟨.init, fun _ => 0⟩

/-- `extract_state` sets the annotations of a batch. -/
def annotate (batch : List (Segment × ℕ)) (anno : Packet → ℕ) : Packet → ℕ :=
  batch.foldl (fun anno x => Function.update anno x.1.packet x.2) anno

/-- What a task does, where `content p` is what the buffer of `p` holds: it looks packets up, and
it pushes packets through the chain. -/
def serve (cfg : Cfg) (sfcLength : UInt32) (chain : List Element) (content : Packet → Segment)
    (log : TaskLog) (t : Memory) : Option Memory :=
  (tryAll (extractState cfg) (log.extracted.map content) (t.store, [])).bind fun b =>
    let anno := annotate b.2 t.anno
    (tryAll (pushBatch sfcLength (log.pushed.map fun p => (content p, anno p))) chain b.1).map
      fun m => ⟨m, anno⟩

/-- The slot of the element with the given handle, in the state of a flow. -/
def Memory.slot (t : Memory) (s : ℕ) (k : FlowKey) (handle : ℕ) : Option Slot :=
  (t.store.table s k).bind fun i => (t.store.state i).globalState handle

/-- `content` tells what the buffer of the packet holds, and the key is not the reserved one. -/
def Buffered (content : Packet → Segment) (p : Packet) : Prop :=
  (content p).packet = p ∧ p.flow ≠ flowEmpty

/-- A packet's annotation is that of the batch if it is in the batch, else what it was. -/
theorem annotate_spec (batch : List (Segment × ℕ)) (anno : Packet → ℕ) (p : Packet) :
    (∃ x ∈ batch, x.1.packet = p ∧ annotate batch anno p = x.2) ∨
      (∀ x ∈ batch, x.1.packet ≠ p) ∧ annotate batch anno p = anno p := by
  induction batch generalizing anno with
  | nil => exact Or.inr ⟨fun _ hx => (by cases hx), rfl⟩
  | cons y batch ih =>
    rcases ih (Function.update anno y.1.packet y.2) with ⟨x, hx, hp, hi⟩ | ⟨hnone, hi⟩
    · exact Or.inl ⟨x, List.mem_cons_of_mem y hx, hp, hi⟩
    · by_cases hy : y.1.packet = p
      · refine Or.inl ⟨y, List.mem_cons_self, hy, hi.trans ?_⟩
        rw [hy, Function.update_self]
      · refine Or.inr ⟨fun x hx => ?_, hi.trans (Function.update_of_ne (Ne.symm hy) ..)⟩
        rcases List.mem_cons.mp hx with rfl | hx
        · exact hy
        · exact hnone x hx

/-! ## The invariant

The network functions see the packets that are pushed, and `extract_state` the ones that are looked
up, which are ahead. `Behind` says of the two histories that the chain has done its work on the
first, and that all packets that are still to be pushed have been looked up.
-/

variable {D : Type} {cfg : Cfg} {σ σ' : Sys D} {f : Flow} {w : ℕ} {sfcLength : UInt32}
  {chain : List Element} {content : Packet → Segment} {got done : List (Segment × ℕ)}
  {t : Memory}

/-- A packet that arrives is in its buffer, and if it is of the flow, the NIC says so. -/
def Arrives (content : Packet → Segment) (f : Flow) (p : Packet) : Prop :=
  Buffered content p ∧ (p.flow = f.key → p.rss = f.rss)

/-- The chain behind the router: the packets `got` have been looked up, the packets `done` have been
pushed. -/
structure Behind (cfg : Cfg) (chain : List Element) (content : Packet → Segment)
    (got done : List (Segment × ℕ)) (σ : Sys D) (t : Memory) : Prop where
  /-- the states of the flows -/
  inv : Inv cfg chain got (fun _ => done) t.store
  /-- only packets that have been looked up are pushed -/
  done : ∀ x ∈ done, x ∈ got
  /-- and they only wait for offloading cores -/
  waiting : ∀ v, ∀ p ∈ σ.qItems v, (content p, t.anno p) ∈ got

/-- The packets of a task are looked up: none fails, and they are put in a batch in their order. -/
theorem Inv.lookUp {m : Store} (h : Inv cfg chain got (fun _ => done) m) {ps : List Packet}
    (hps : ∀ p ∈ ps, Buffered content p) :
    ∃ m' batch, tryAll (Chain.extractState cfg) (ps.map content) (m, []) = some (m', batch) ∧
      batch.map Prod.fst = ps.map content ∧ Inv cfg chain (got ++ batch) (fun _ => done) m' := by
  obtain ⟨⟨m', batch⟩, hrun, hbatch, hm'⟩ : ∃ t,
      tryAll (Chain.extractState cfg) (ps.map content) (m, []) = some t ∧
        t.2.map Prod.fst = ps.map content ∧ Inv cfg chain (got ++ t.2) (fun _ => done) t.1 := by
    refine tryAll_rule (P := fun pre (t : Progress) => t.2.map Prod.fst = pre ∧
      Inv cfg chain (got ++ t.2) (fun _ => done) t.1) ?_ ⟨rfl, by rwa [List.append_nil]⟩
    rintro pre x post ⟨m₁, batch⟩ hsplit ⟨rfl, hm₁⟩
    obtain ⟨p, hp, rfl⟩ : ∃ p ∈ ps, content p = x :=
      List.mem_map.mp (by rw [hsplit]; simp)
    obtain ⟨hpacket, hkey⟩ := hps p hp
    have hkey' : (content p).key ≠ flowEmpty := by
      rw [← hpacket] at hkey
      exact hkey
    obtain ⟨m₂, i, hstep, hm₂⟩ := hm₁.extractState hkey' batch
    refine ⟨_, hstep, by simp, ?_⟩
    rwa [List.append_assoc] at hm₂
  exact ⟨m', batch, hrun, hbatch, hm'⟩

/-- The annotation of a packet leads to what it was looked up as last. -/
theorem annotate_mem {ps : List Packet} (hps : ∀ p ∈ ps, Buffered content p)
    {batch : List (Segment × ℕ)} (hbatch : batch.map Prod.fst = ps.map content)
    {anno : Packet → ℕ} {p : Packet} (hp : p ∈ ps ∨ (content p, anno p) ∈ got) :
    (content p, annotate batch anno p) ∈ got ++ batch := by
  rcases annotate_spec batch anno p with ⟨x, hx, hpacket, hi⟩ | ⟨hnone, hi⟩
  · obtain ⟨p', hp', hcontent⟩ : ∃ p' ∈ ps, content p' = x.1 :=
      List.mem_map.mp (by rw [← hbatch]; exact List.mem_map_of_mem hx)
    have hsame : p' = p := by
      rw [← (hps p' hp').1, hcontent, hpacket]
    rw [hi, ← hsame, hcontent]
    exact List.mem_append_right _ hx
  · rw [hi]
    refine List.mem_append_left _ (hp.resolve_left fun hp => ?_)
    obtain ⟨x, hx, hcontent⟩ : ∃ x ∈ batch, x.1 = content p :=
      List.mem_map.mp (by rw [hbatch]; exact List.mem_map_of_mem hp)
    exact hnone x hx (by rw [hcontent, (hps p hp).1])

/-- A task's packets find their states, and the chain takes them. -/
theorem Behind.serve (h : Behind cfg chain content got done σ t)
    (hnodup : (chain.map Element.handle).Nodup) (hlt : ∀ e ∈ chain, e.handle < sfcLength.toNat)
    {log : TaskLog} (hps : ∀ p ∈ log.extracted, Buffered content p)
    (hpushed : ∀ p ∈ log.pushed, p ∈ log.extracted ∨ ∃ v, p ∈ σ.qItems v)
    (hwaits : ∀ v, ∀ p ∈ σ'.qItems v, p ∈ log.extracted ∨ ∃ u, p ∈ σ.qItems u) :
    ∃ t' batch outs, Chain.serve cfg sfcLength chain content log t = some t' ∧
      outs.map Prod.fst = log.pushed.map content ∧
      Behind cfg chain content (got ++ batch) (done ++ outs) σ' t' := by
  obtain ⟨m₁, batch, hrun, hbatch, h₁⟩ := h.inv.lookUp hps
  obtain ⟨anno, hanno⟩ : ∃ anno, anno = annotate batch t.anno := ⟨_, rfl⟩
  have hknown : ∀ p, (p ∈ log.extracted ∨ ∃ v, p ∈ σ.qItems v) →
      (content p, anno p) ∈ got ++ batch := by
    intro p hp
    rw [hanno]
    exact annotate_mem hps hbatch (hp.imp_right fun ⟨v, hv⟩ => h.waiting v p hv)
  obtain ⟨outs, houts⟩ : ∃ outs, outs = log.pushed.map fun p => (content p, anno p) := ⟨_, rfl⟩
  have hmem : ∀ x ∈ outs, x ∈ got ++ batch := by
    intro x hx
    rw [houts] at hx
    obtain ⟨p, hp, rfl⟩ := List.mem_map.mp hx
    exact hknown p (hpushed p hp)
  obtain ⟨m₂, hchain, h₂⟩ := h₁.pushChain hnodup hlt
    fun x hx => (h₁.known _ _ _ (h₁.got x (hmem x hx))).1
  refine ⟨⟨m₂, anno⟩, batch, outs, ?_, ?_, h₂, fun x hx => ?_, fun v p hp => ?_⟩
  · rw [Chain.serve, hrun, Option.bind_some, ← hanno]
    dsimp only
    rw [← houts, hchain, Option.map_some]
  · rw [houts, List.map_map]
    rfl
  · rcases List.mem_append.mp hx with hx | hx
    · exact List.mem_append_left _ (h.done x hx)
    · exact hmem x hx
  · exact hknown p (hwaits v p hp)

/-- The packets that lead to the state of a flow are its own. -/
theorem Behind.slot (h : Behind cfg chain content got done σ t) {ps : List Packet}
    (hps : ∀ p ∈ ps, Arrives content f p) (hdone : done.map Prod.fst = ps.map content)
    {e : Element} (he : e ∈ chain) :
    Keeps e ((f.among ps).map content) (t.slot (f.shard cfg) f.key e.handle) := by
  have htable : ∀ x ∈ done,
      t.store.table (cfg.shardOf x.1.packet) x.1.packet.flow = some x.2 :=
    fun x hx => h.inv.got x (h.done x hx)
  have hamong : (f.among ps).map content =
      (done.filter fun x => f.has x.1.packet).map Prod.fst := by
    have hfilter : f.among ps = ps.filter fun p => f.has (content p).packet :=
      List.filter_congr fun p hp => by rw [(hps p hp).1.1]
    calc (f.among ps).map content
        = (ps.map content).filter fun x => f.has x.packet := by
          rw [hfilter, List.filter_map]
          rfl
      _ = (done.filter fun x => f.has x.1.packet).map Prod.fst := by
          rw [← hdone, List.filter_map]
          rfl
  rw [hamong, Memory.slot]
  cases htab : t.store.table (f.shard cfg) f.key with
  | none =>
    have hnil : (done.filter fun x => f.has x.1.packet) = [] := by
      refine List.filter_eq_nil_iff.mpr fun x hx hhas => ?_
      have hx' := htable x hx
      rw [Flow.shardOf_eq_shard hhas, (of_decide_eq_true hhas).1, htab] at hx'
      cases hx'
    rw [hnil]
    exact keeps_nil.mpr rfl
  | some i =>
    obtain ⟨hi, hflow⟩ := h.inv.known _ _ _ htab
    have hstate : (done.filter fun x => f.has x.1.packet) = done.filter fun x => x.2 = i := by
      refine List.filter_congr fun x hx => Bool.eq_iff_iff.mpr ?_
      rw [decide_eq_true_eq]
      have hx' := htable x hx
      constructor
      · intro hhas
        rw [Flow.shardOf_eq_shard hhas, (of_decide_eq_true hhas).1, htab] at hx'
        exact (Option.some.inj hx').symm
      · rintro rfl
        have hkey : x.1.packet.flow = f.key := ((h.inv.known _ _ _ hx').2).symm.trans hflow
        -- the NIC gives all packets with these addresses one hash
        obtain ⟨p, hp, hcontent⟩ : ∃ p ∈ ps, content p = x.1 :=
          List.mem_map.mp (by rw [← hdone]; exact List.mem_map_of_mem hx)
        obtain ⟨⟨hpacket, -⟩, hrss⟩ := hps p hp
        rw [← hcontent, hpacket] at hkey ⊢
        exact decide_eq_true ⟨hkey, hrss hkey⟩
    rw [hstate]
    exact h.inv.own e he i hi

/-! ## The steps -/

/-- An offloading core polls packets that wait for it. -/
theorem offload_pushed (hm : Mailed σ) (hpolled : Polled cfg σ) {e accept : ℕ} (he : e < cfg.E)
    (hr : Roomy σ (.offload e accept)) (hk : KeepsOrder σ (.offload e accept)) {p : Packet}
    (hp : p ∈ (OffloadingCore.runTask cfg e accept σ).2.pushed) : ∃ v, p ∈ σ.qItems v := by
  simp only [OffloadingCore.runTask, OffloadingCore.poll] at hp
  split at hp
  · cases hp
  · next r hchoose =>
    have hmem : r ∈ σ.pending e := by
      rw [← (OffloadingCore.control_Q_iff hm hr).mpr hk]
      exact List.mem_of_getElem? hchoose
    obtain ⟨v, rfl, -⟩ := hpolled.inUse e he r hmem
    exact ⟨v, List.mem_of_mem_take hp⟩

/-- An offloading core puts nothing in a queue. -/
theorem offload_waiting (e accept : ℕ) {v : ℕ} {p : Packet}
    (hp : p ∈ (OffloadingCore.runTask cfg e accept σ).1.qItems v) : p ∈ σ.qItems v := by
  obtain ⟨core, ring, transmitted, lost, heq, hring⟩ := OffloadingCore.runTask_eq cfg e accept σ
  rw [heq] at hp
  obtain ⟨n, hn⟩ := hring (σ.worker v).q
  have hp' : p ∈ (ring (σ.worker v).q).items := hp
  rw [hn] at hp'
  exact List.mem_of_mem_drop hp'

variable [Double D]

/-- What waits for an offloading core has been looked up, by this task or before it. -/
theorem runTask_waiting (hwired : Wired cfg σ) (hw : w < cfg.W) (hc : Calm w σ) (inp : TaskInput)
    {p : Packet} (hp : p ∈ (runTask cfg w inp σ).1.qItems w) :
    p ∈ (runTask cfg w inp σ).2.extracted ∨ p ∈ σ.qItems w := by
  cases hm : (σ.worker w).myown with
  | true =>
    right
    rw [runTask, if_pos hm] at hp
    split at hp
    · simpa [drained, Sys.setWorker, Sys.qItems] using hp
    · rwa [workOff_qItems hwired] at hp
  | false =>
    have hserves := serveSignal_serves hwired hw inp.drains
    obtain ⟨hq, -, -⟩ := processChanges_desk (w := w) hserves.wired
    rw [runTask, if_neg (by rw [hm]; exact Bool.false_ne_true)] at hp ⊢
    dsimp only at hp ⊢
    rw [forward_qItems] at hp
    rcases Fifo.mem_enqueueBurst hp with hp | hp
    · right
      rw [← Sys.qItems, hq] at hp
      rcases serveSignal_qItems hwired hw hc hm inp.drains with hnil | ⟨-, hsame⟩
      · rw [hnil] at hp
        cases hp
      · rwa [hsame] at hp
    · exact Or.inl ((classify_sublist ..).2.subset hp)

/-- The condition on the steps of a run: the flow stays in line, the offloading cores carry out the
requests in order, and packets arrive with their contents. -/
def InChain (cfg : Cfg) (content : Packet → Segment) (f : Flow) (w : ℕ) (σ : Sys D) (a : Act D) :
    Prop :=
  InLine cfg f w σ a ∧ (Roomy σ a ∧ KeepsOrder σ a) ∧ ∀ p, a = .arrive p → Arrives content f p

/-- What the router is like along such a run. -/
structure Orderly (cfg : Cfg) (content : Packet → Segment) (f : Flow) (σ : Sys D) : Prop where
  /-- the rings are wired -/
  wired : Wired cfg σ
  /-- the cores are calm -/
  calm : ∀ v, Calm v σ
  /-- the requests are in the control rings -/
  mailed : Mailed σ
  /-- the offloading cores poll rings in use -/
  polled : Polled cfg σ
  /-- the packets have arrived with their contents -/
  holding : Holding (fun _ => Arrives content f) σ

/-- At first nothing has been looked up or pushed. -/
theorem Behind.init : Behind cfg chain content [] [] (init D cfg) .init where
  inv := .init
  done _ hx := by cases hx
  waiting _ _ hp := by cases hp

/-- At first nothing has arrived. -/
theorem Orderly.init : Orderly cfg content f (init D cfg) :=
  ⟨wired_init, fun _ => ⟨fun _ => rfl, fun _ => rfl⟩, .init, .init, .init⟩

/-- What waits has arrived, and so have the packets that a step pushes. -/
theorem Orderly.step (h : Orderly cfg content f σ) {a : Act D} (ha : InChain cfg content f w σ a) :
    Orderly cfg content f (step cfg σ a) where
  wired := h.wired.step ha.1.1.1
  calm := Calm.step h.calm h.wired ha.1.1.1 ha.1.noStrand
  mailed := h.mailed.step h.wired ha.1.1.1
  polled := h.polled.step h.wired h.mailed ha.1.1.1 ha.2.1.1 ha.2.1.2
  holding := h.holding.step h.wired ⟨ha.1.1.1, ha.1.noStrand⟩ ha.2.2

/-- A step looks up, and pushes, packets that have arrived. -/
theorem Orderly.taskLog (h : Orderly cfg content f σ) {a : Act D}
    (ha : InChain cfg content f w σ a) :
    (∀ p ∈ (taskLog cfg σ a).extracted, Arrives content f p) ∧
      (∀ p ∈ (Fajita.taskLog cfg σ a).pushed,
        p ∈ (Fajita.taskLog cfg σ a).extracted ∨ ∃ v, p ∈ σ.qItems v) ∧
      ∀ v, ∀ p ∈ (Fajita.step cfg σ a).qItems v,
        p ∈ (Fajita.taskLog cfg σ a).extracted ∨ ∃ u, p ∈ σ.qItems u := by
  cases a with
  | arrive p =>
    exact ⟨fun _ hp => (by cases hp), fun _ hp => (by cases hp), fun v p hp => Or.inr ⟨v, hp⟩⟩
  | epoch ans vec =>
    have hf := Controller.updateShortEpoch_frame cfg σ ans vec
    refine ⟨fun _ hp => (by cases hp), fun _ hp => (by cases hp), fun v p hp => Or.inr ⟨v, ?_⟩⟩
    rwa [Fajita.step, Sys.qItems, hf.worker, hf.traffic.ring] at hp
  | work v inp =>
    have hl := h.wired.runTask_localTo ha.1.1.1 inp
    refine ⟨fun p hp => h.holding.runTask h.wired ha.1.1.1 ha.1.noStrand p (Or.inr (Or.inr hp)),
      fun p hp => Or.inl ((runTask_pushed inp).subset hp), fun u p hp => ?_⟩
    by_cases huv : u = v
    · subst huv
      exact (runTask_waiting h.wired ha.1.1.1 (h.calm u) inp hp).imp_right fun hp => ⟨u, hp⟩
    · rw [Fajita.step, hl.qItems huv (h.wired.pair u)] at hp
      exact Or.inr ⟨u, hp⟩
  | offload e accept =>
    refine ⟨fun _ hp => ?_, fun p hp => Or.inr ?_,
      fun v p hp => Or.inr ⟨v, offload_waiting e accept hp⟩⟩
    · simp only [Fajita.taskLog, OffloadingCore.runTask, OffloadingCore.poll] at hp
      split at hp
      · cases hp
      · cases hp
    · exact offload_pushed h.mailed h.polled ha.1.1.1 ha.2.1.1 ha.2.1.2 hp

/-- The packets that are pushed are in their buffers. -/
theorem Orderly.pushed (h : Orderly cfg content f σ) {a : Act D}
    (ha : InChain cfg content f w σ a) :
    ∀ p ∈ (Fajita.taskLog cfg σ a).pushed, Arrives content f p := by
  obtain ⟨hextracted, hpushed, -⟩ := h.taskLog ha
  intro p hp
  rcases hpushed p hp with hp | ⟨v, hp⟩
  · exact hextracted p hp
  · exact h.holding.rings v p (Or.inl hp)

/-! ## The runs -/

section Runs

variable (hnodup : (chain.map Element.handle).Nodup)
  (hlt : ∀ e ∈ chain, e.handle < sfcLength.toNat)

include hnodup hlt

/-- The chain takes what the steps of a run push. -/
theorem Behind.run (acts : List (Act D)) : ∀ (σ : Sys D) (t : Memory) (got done),
    Behind cfg chain content got done σ t → Orderly cfg content f σ →
      Along (step cfg) (InChain cfg content f w) σ acts →
        ∃ t' got' outs, tryAll (Chain.serve cfg sfcLength chain content)
            (history (step cfg) (fun σ a => [Fajita.taskLog cfg σ a]) σ acts) t = some t' ∧
          outs.map Prod.fst =
            (history (step cfg) (fun σ a => (Fajita.taskLog cfg σ a).pushed) σ acts).map content ∧
          Behind cfg chain content got' (done ++ outs) (runFrom (step cfg) σ acts) t' := by
  induction acts with
  | nil =>
    intro σ t got done h _ _
    exact ⟨t, got, [], rfl, rfl, by rwa [List.append_nil]⟩
  | cons a acts ih =>
    rintro σ t got done h ho ⟨ha, hC⟩
    obtain ⟨hextracted, hpushed, hwaits⟩ := ho.taskLog ha
    obtain ⟨t₁, batch, outs, hrun, houts, h₁⟩ :=
      h.serve hnodup hlt (fun p hp => (hextracted p hp).1) hpushed hwaits
    obtain ⟨t', got', outs', hrun', houts', h'⟩ := ih _ t₁ _ _ h₁ (ho.step ha) hC
    refine ⟨t', got', outs ++ outs', ?_, ?_, ?_⟩
    · rw [history, List.singleton_append, tryAll_cons, hrun, Option.bind_some, hrun']
    · rw [List.map_append, houts, houts', history, List.map_append]
    · rwa [List.append_assoc] at h'

/-- **The chain follows the flow.** In every run in which the flow stays in line and the offloading
cores carry out the requests in order, no task takes an element behind the array of slots, and at
the end the slot of each element holds what the element makes of the packets of the flow that have
been pushed, by its core or by offloading cores. These, and behind them what waits in `myring`, in
`q` and in the NIC queue, are in the order of arrival. -/
theorem chain_follows_flow {acts : List (Act D)} (hw : w < cfg.W)
    (hC : Along (step cfg) (InChain cfg content f w) (init D cfg) acts) :
    ∃ t, tryAll (serve cfg sfcLength chain content)
        (history (step cfg) (fun σ a => [taskLog cfg σ a]) (init D cfg) acts) .init = some t ∧
      (∀ e ∈ chain, Keeps e ((f.pushed cfg (init D cfg) acts).map content)
        (t.slot (f.shard cfg) f.key e.handle)) ∧
      (f.pushed cfg (init D cfg) acts ++
        (runFrom (step cfg) (init D cfg) acts).line f w).Sublist (f.arrived acts) := by
  obtain ⟨t, got, outs, hrun, houts, h⟩ :=
    Behind.run hnodup hlt acts (init D cfg) .init [] [] .init .init hC
  have harrived : ∀ p ∈ history (step cfg) (fun σ a => (taskLog cfg σ a).pushed) (init D cfg) acts,
      Arrives content f p :=
    Along.history_mem (I := Orderly cfg content f) (fun _ _ ho ha => ho.step ha)
      (fun _ _ ho ha => ho.pushed ha) .init hC
  have hpushed : f.pushed cfg (init D cfg) acts =
      f.among (history (step cfg) (fun σ a => (taskLog cfg σ a).pushed) (init D cfg) acts) :=
    history_filter ..
  refine ⟨t, hrun, fun e he => ?_, pushes_in_order hw (hC.imp fun _ _ ha => ha.1)⟩
  rw [hpushed]
  exact h.slot harrived houts he

end Runs

/-! ## A run -/

instance (p : Packet) : Decidable (Arrives content f p) :=
  inferInstanceAs (Decidable ((_ ∧ _) ∧ (_ → _)))

instance (a : Act D) : Decidable (∀ p, a = .arrive p → Arrives content f p) :=
  match a with
  | .arrive p =>
    decidable_of_iff (Arrives content f p) ⟨fun h _ hp => Act.arrive.inj hp ▸ h, fun h => h p rfl⟩
  | .epoch _ _ => isTrue fun _ hp => nomatch hp
  | .work _ _ => isTrue fun _ hp => nomatch hp
  | .offload _ _ => isTrue fun _ hp => nomatch hp

instance (σ : Sys D) : DecidablePred (InChain cfg content f w σ) := fun _ =>
  inferInstanceAs (Decidable (_ ∧ (_ ∧ _) ∧ _))

namespace Small

open Fajita.Small

/-- The flow of the packets from port 2. -/
def portTwo : Flow := ⟨(segment 0 2).key, 2⟩

/-- Half of the first shard is offloaded: the offloading core takes a packet; then nothing is to be
offloaded any more, and a second packet comes back to its own core. -/
def handedOver : List (Act ℚ) :=
  [.epoch (some (answer id (fun _ => 0) fun _ => 1 / 2)) fun _ => [], .work 0 (task 1),
    .arrive (segment 1 2).packet, .work 0 (task 1), .offload 0 1,
    .arrive (segment 2 2).packet, .work 0 (task 1),
    .epoch (some (answer id (fun _ => 0) fun _ => 0)) fun s => if s = 0 then [portTwo.key] else [],
    .work 0 (task 1), .work 0 (task 1)]

/-- Both packets have been counted, one by the offloading core. -/
theorem handedOver_counted :
    ∃ t, tryAll (serve (router 1) 1 [.dynapt 0] fun p => segment p.mbuf 2)
        (history (step (router 1)) (fun σ a => [taskLog (router 1) σ a]) (init ℚ (router 1))
          handedOver) .init = some t ∧
      (∀ e ∈ [Element.dynapt 0],
        Keeps e ((portTwo.pushed (router 1) (init ℚ (router 1)) handedOver).map fun p =>
            segment p.mbuf 2) (t.slot (portTwo.shard (router 1)) portTwo.key e.handle)) ∧
      (portTwo.pushed (router 1) (init ℚ (router 1)) handedOver ++
        (runFrom (step (router 1)) (init ℚ (router 1)) handedOver).line portTwo 0).Sublist
          (portTwo.arrived handedOver) :=
  chain_follows_flow (by decide) (by decide) (w := 0) (by decide) (by decide +kernel)

end Small

end Chain

end Fajita
