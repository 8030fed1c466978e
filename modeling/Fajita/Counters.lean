import Fajita.Lookups

/-!
# The traffic counters, access by access

`bytes` and `packets` of every shard with each `rte_atomic32_add`, `_inc`, `_read` and
`_clear` as a step of its own. `swap_shards` reads the counters of a shard and clears
them afterwards; what a core adds in between is read by nobody.

`balance` is the law of the counters: what has been read, what is in a counter and what
clears have discarded are together what was added. So the counters are accurate whenever
no swap is going on if and only if every clear finds the value that was read
(`accurate_iff_kept`).
-/

namespace Fajita

namespace Counters

/-! ## The state

How the three ways to write a counter show in its fields.
-/

/-- The counters of a shard. -/
inductive Counter where
  /-- `bytes` -/
  | bytes
  /-- `packets` -/
  | packets
  deriving DecidableEq

/-- Where the controller is in `swap_shards`. -/
inductive Ctrl where
  /-- not in `swap_shards` -/
  | idle
  /-- at the test of the loop, before shard `s` -/
  | loop (s : ℕ)
  /-- before the read of a counter of shard `s` -/
  | reading (c : Counter) (s : ℕ)
  /-- before the clear of a counter of shard `s` -/
  | clearing (c : Counter) (s : ℕ)
  deriving DecidableEq

/-- The counters and the parties. -/
@[ext] structure State where
  /-- `bytes` and `packets` of each shard -/
  count : Counter → ℕ → UInt32
  /-- `old_bytes` and `old_packets` of each shard -/
  old : Counter → ℕ → UInt32
  /-- the controller -/
  ctrl : Ctrl
  /-- the shard a core in `extract_state` has added to `bytes` of, and not to `packets` -/
  pc : ℕ → Option ℕ

/-- The state `init_shards` builds. -/
def start : State where
  count := fun _ _ => 0
  old := fun _ _ => 0
  ctrl := .idle
  pc := fun _ => none

namespace State

variable (c c' : Counter) (s s' : ℕ) (n : UInt32) (l : Ctrl) (st : State)

/-- A counter becomes `n`. -/
def setCount : State :=
  { st with count := Function.update st.count c (Function.update (st.count c) s n) }

/-- `rte_atomic32_read` into the old value; the controller goes on at `l`. -/
def take : State :=
  { st with
    old := Function.update st.old c (Function.update (st.old c) s (st.count c s))
    ctrl := l }

/-- `rte_atomic32_clear`; the controller goes on at `l`. -/
def clear : State := { st.setCount c s 0 with ctrl := l }

@[simp] theorem setCount_count : (st.setCount c s n).count c' s' =
    if c' = c ∧ s' = s then n else st.count c' s' := by
  by_cases hc : c' = c
  · subst hc
    simp [setCount, Function.update_apply]
  · simp [setCount, hc]

@[simp] theorem setCount_old : (st.setCount c s n).old = st.old := rfl

@[simp] theorem setCount_ctrl : (st.setCount c s n).ctrl = st.ctrl := rfl

@[simp] theorem take_count : (st.take c s l).count = st.count := rfl

@[simp] theorem take_old : (st.take c s l).old c' s' =
    if c' = c ∧ s' = s then st.count c s else st.old c' s' := by
  by_cases hc : c' = c
  · subst hc
    simp [take, Function.update_apply]
  · simp [take, hc]

@[simp] theorem take_ctrl : (st.take c s l).ctrl = l := rfl

@[simp] theorem clear_count : (st.clear c s l).count c' s' =
    if c' = c ∧ s' = s then 0 else st.count c' s' := setCount_count ..

@[simp] theorem clear_old : (st.clear c s l).old = st.old := rfl

@[simp] theorem clear_ctrl : (st.clear c s l).ctrl = l := rfl

end State

/-! ## The steps -/

/-- The label of a step. -/
inductive Act where
  /-- the controller goes on -/
  | ctrl
  /-- core `w` adds the length of a packet to `bytes` of shard `s` -/
  | count (w s len : ℕ)
  /-- core `w` increments `packets` -/
  | go (w : ℕ)

/-- A step of the controller: both reads of a shard come before both clears. -/
def control (cfg : Cfg) (st : State) : State :=
  match st.ctrl with
  | .idle => { st with ctrl := .loop 0 }
  | .loop s => { st with ctrl := if s < cfg.totalShards then .reading .bytes s else .idle }
  | .reading .bytes s => st.take .bytes s (.reading .packets s)
  | .reading .packets s => st.take .packets s (.clearing .bytes s)
  | .clearing .bytes s => st.clear .bytes s (.clearing .packets s)
  | .clearing .packets s => st.clear .packets s (.loop (s + 1))

/-- The step function. A core starts with a packet when it is done with the one before. -/
def step (cfg : Cfg) (st : State) : Act → State
  | .ctrl => control cfg st
  | .count w s len =>
    match st.pc w with
    | none =>
      { st.setCount .bytes s (st.count .bytes s + UInt32.ofNat len) with
        pc := Function.update st.pc w (some s) }
    | some _ => st
  | .go w =>
    match st.pc w with
    | none => st
    | some s =>
      { st.setCount .packets s (st.count .packets s + 1) with
        pc := Function.update st.pc w none }

/-! ## What becomes of the increments

Each increment is still in the counter, or a swap has taken it, or a clear has discarded it. The
three are histories of a run, and the law of the counters is that they add up.
-/

variable (c : Counter) (s : ℕ) (st : State)

/-- What a step adds to a counter. -/
def added : Act → List ℕ
  | .ctrl => []
  | .count w s' len => if c = .bytes ∧ s' = s ∧ st.pc w = none then [len] else []
  | .go w => if c = .packets ∧ st.pc w = some s then [1] else []

/-- The old value a step takes. -/
def taken : Act → List ℕ
  | .ctrl => if st.ctrl = .reading c s then [(st.count c s).toNat] else []
  | _ => []

/-- What a clear discards without its having been read. -/
def discarded : Act → List ℕ
  | .ctrl => if st.ctrl = .clearing c s then [(st.count c s - st.old c s).toNat] else []
  | _ => []

/-- What has been read and not yet cleared. -/
def pending : UInt32 :=
  match st.ctrl with
  | .reading .packets s' => if c = .bytes ∧ s' = s then st.old c s else 0
  | .clearing .bytes s' => if s' = s then st.old c s else 0
  | .clearing .packets s' => if c = .packets ∧ s' = s then st.old c s else 0
  | _ => 0

/-! ## The law of the counters

What has been added, what has been taken and what is there are three numbers with one law. It is
broken by `clear` alone, and only if the counter has grown since it was read.
-/

section

variable {c s st} {cfg : Cfg} {acts : List Act}

/-- What a core adds is in the counter. -/
theorem core_balance {a : Act} (ha : a ≠ .ctrl) :
    (step cfg st a).count c s = UInt32.ofNat (added c s st a).sum + st.count c s ∧
      pending c s (step cfg st a) = pending c s st := by
  cases a with
  | ctrl => exact absurd rfl ha
  | count w s' len =>
    dsimp only [step, added]
    cases hpc : st.pc w with
    | none =>
      refine ⟨?_, rfl⟩
      rw [State.setCount_count]
      by_cases hcs : c = .bytes ∧ s' = s
      · obtain ⟨rfl, rfl⟩ := hcs
        simp [UInt32.add_comm]
      · simp [hcs, eq_comm (a := s)]
    | some s'' => simp
  | go w =>
    dsimp only [step, added]
    cases hpc : st.pc w with
    | none => simp
    | some s' =>
      refine ⟨?_, rfl⟩
      rw [State.setCount_count]
      by_cases hcs : c = .packets ∧ s' = s
      · obtain ⟨rfl, rfl⟩ := hcs
        simp [UInt32.add_comm]
      · simp [hcs, eq_comm (a := s)]

/-- What the controller clears it has taken or discards. -/
theorem control_balance :
    UInt32.ofNat (taken c s st .ctrl).sum + (control cfg st).count c s +
        UInt32.ofNat (discarded c s st .ctrl).sum + pending c s st =
      pending c s (control cfg st) + st.count c s := by
  simp only [control]
  cases hctrl : st.ctrl with
  | idle => simp [taken, discarded, pending, hctrl]
  | loop s' =>
    by_cases hlt : s' < cfg.totalShards
    · simp [taken, discarded, pending, hctrl, hlt]
    · simp [taken, discarded, pending, hctrl, hlt]
  | reading c' s' =>
    by_cases hs : s' = s
    · cases c' <;> cases c <;> simp [taken, discarded, pending, hctrl, hs, UInt32.add_comm]
    · cases c' <;> simp [taken, discarded, pending, hctrl, hs]
  | clearing c' s' =>
    by_cases hs : s' = s
    · -- what came in between the read and the store is discarded
      by_cases hc : c' = c
      · subst hc
        cases c' <;> simp [taken, discarded, pending, hctrl, hs]
      · cases c' <;> cases c <;>
          first | exact absurd rfl hc | simp [taken, discarded, pending, hctrl, hs, UInt32.add_comm]
    · cases c' <;> simp [taken, discarded, pending, hctrl, hs, eq_comm (a := s)]

/-- **The law of a step**: what a step takes, discards and leaves is what it finds and adds, in the
arithmetic of 32 bits. What the swap has read and not yet cleared is pending. -/
theorem step_balance (a : Act) :
    UInt32.ofNat (taken c s st a).sum + (step cfg st a).count c s +
        UInt32.ofNat (discarded c s st a).sum + pending c s st =
      UInt32.ofNat (added c s st a).sum + pending c s (step cfg st a) + st.count c s := by
  by_cases ha : a = .ctrl
  · subst ha
    refine control_balance.trans ?_
    rw [added, List.sum_nil, show UInt32.ofNat 0 = 0 from rfl, UInt32.zero_add]
    rfl
  · obtain ⟨hcount, hpending⟩ := @core_balance c s st cfg a ha
    have hnone : taken c s st a = [] ∧ discarded c s st a = [] := by
      cases a with
      | ctrl => exact absurd rfl ha
      | _ => exact ⟨rfl, rfl⟩
    rw [hnone.1, hnone.2, hcount, hpending, List.sum_nil, show UInt32.ofNat 0 = 0 from rfl]
    grind

/-- **The law of the counters**, for any number of cores and any interleaving. -/
theorem balance :
    UInt32.ofNat (history (step cfg) (taken c s) st acts).sum +
        (runFrom (step cfg) st acts).count c s +
        UInt32.ofNat (history (step cfg) (discarded c s) st acts).sum + pending c s st =
      UInt32.ofNat (history (step cfg) (added c s) st acts).sum +
        pending c s (runFrom (step cfg) st acts) + st.count c s := by
  induction acts generalizing st with
  | nil => simp [history, UInt32.add_comm]
  | cons a acts ih =>
    have hstep := @step_balance c s st cfg a
    have hrest := @ih (step cfg st a)
    rw [history, history, history, List.sum_append, List.sum_append, List.sum_append,
      UInt32.ofNat_add, UInt32.ofNat_add, UInt32.ofNat_add, runFrom_cons]
    grind

end

/-! ## Accuracy

Between two swaps the counters are accurate if every clear so far has found the value that was read.
The first that has not leaves them inaccurate at the end of its swap.
-/

/-- What the controller has taken and what is in the counter are what was added. -/
def Accurate (cfg : Cfg) (c : Counter) (s : ℕ) (acts : List Act) : Prop :=
  UInt32.ofNat (history (step cfg) (taken c s) start acts).sum +
      (runFrom (step cfg) start acts).count c s =
    UInt32.ofNat (history (step cfg) (added c s) start acts).sum

/-- No `swap_shards` is in progress after the steps. -/
def Quiet (cfg : Cfg) (acts : List Act) : Prop := (runFrom (step cfg) start acts).ctrl = .idle

/-- If the step clears a counter, the counter holds the value that was read. -/
def Kept (st : State) : Act → Prop
  | .ctrl =>
    match st.ctrl with
    | .clearing c s => st.count c s = st.old c s
    | _ => True
  | _ => True

/-- The controller has dealt with the counter in the swap that is going on. -/
def Past (c : Counter) (s : ℕ) : Ctrl → Prop
  | .idle => True
  | .loop s' | .reading _ s' | .clearing .bytes s' => s < s'
  | .clearing .packets s' => s < s' ∨ c = .bytes ∧ s' = s

section

variable {c s st} {cfg : Cfg} {acts : List Act}

/-- Between two swaps the counters are accurate if nothing was discarded. -/
theorem accurate_iff (hquiet : Quiet cfg acts) : Accurate cfg c s acts ↔
    UInt32.ofNat (history (step cfg) (discarded c s) start acts).sum = 0 := by
  have hbalance := @balance c s start cfg acts
  have hend : pending c s (runFrom (step cfg) start acts) = 0 := by
    rw [pending, show _ = Ctrl.idle from hquiet]
  have hstart : pending c s start = 0 ∧ start.count c s = 0 := ⟨rfl, rfl⟩
  rw [hend, hstart.1, hstart.2] at hbalance
  simp only [Accurate]
  constructor <;> intro h <;> grind

/-- A clear that finds what has been read discards nothing. -/
theorem discarded_of_kept {a : Act} (h : Kept st a) : (discarded c s st a).sum = 0 := by
  cases a with
  | ctrl =>
    rw [discarded]
    split
    · next hctrl =>
      simp only [Kept, hctrl] at h
      rw [h, UInt32.sub_self]
      rfl
    · rfl
  | _ => rfl

/-- In a run whose clears find what has been read, nothing is discarded. -/
theorem history_of_kept (h : Along (step cfg) Kept st acts) :
    (history (step cfg) (discarded c s) st acts).sum = 0 := by
  induction acts generalizing st with
  | nil => rfl
  | cons a acts ih =>
    rw [history, List.sum_append, discarded_of_kept h.1, ih h.2]

/-- What is discarded in a run, and then in another. -/
theorem history_append {acts' : List Act} :
    history (step cfg) (discarded c s) st (acts ++ acts') =
      history (step cfg) (discarded c s) st acts ++
        history (step cfg) (discarded c s) (runFrom (step cfg) st acts) acts' := by
  induction acts generalizing st with
  | nil => rfl
  | cons a acts ih => rw [List.cons_append, history, history, ih, List.append_assoc, runFrom_cons]

/-- A counter the controller has dealt with is left alone by the rest of the swap. -/
theorem Past.step (h : Past c s st.ctrl) (hidle : st.ctrl ≠ .idle) (a : Act) :
    discarded c s st a = [] ∧ Past c s (step cfg st a).ctrl := by
  cases a with
  | ctrl =>
    dsimp only [discarded, Counters.step, control]
    cases hctrl : st.ctrl with
    | idle => exact absurd hctrl hidle
    | loop s' =>
      rw [hctrl] at h
      refine ⟨if_neg nofun, ?_⟩
      dsimp only
      split
      · exact h
      · trivial
    | reading c' s' =>
      rw [hctrl] at h
      refine ⟨if_neg nofun, ?_⟩
      cases c' <;> exact h
    | clearing c' s' =>
      rw [hctrl] at h
      cases c' with
      | bytes =>
        -- the shard itself is past only once its `packets` are cleared as well
        have hlt : s < s' := h
        refine ⟨if_neg fun heq => ?_, Or.inl hlt⟩
        injection heq
        omega
      | packets =>
        -- the last access of round `s'`: from here on shard `s'` is past too
        have hle : s < s' + 1 := h.elim (fun h => by omega) fun h => by omega
        refine ⟨if_neg fun heq => ?_, hle⟩
        injection heq with hc hs
        exact h.elim (fun h => by omega) fun h => by rw [h.1] at hc; cases hc
  | count w s' len =>
    refine ⟨rfl, ?_⟩
    dsimp only [Counters.step]
    split <;> exact h
  | go w =>
    refine ⟨rfl, ?_⟩
    dsimp only [Counters.step]
    split <;> exact h

/-- A clear is the last access to the counter in a swap. -/
theorem past_clear (h : st.ctrl = .clearing c s) :
    Past c s (Counters.step cfg st .ctrl).ctrl := by
  dsimp only [Counters.step, control]
  rw [h]
  cases c with
  | bytes => exact Or.inr ⟨rfl, rfl⟩
  | packets => exact Nat.lt_succ_self s

/-- Until the swap ends, nothing of such a counter is discarded. -/
theorem Past.untilQuiet (h : Past c s st.ctrl)
    (hend : (runFrom (Counters.step cfg) st acts).ctrl = .idle) :
    ∃ pre, pre <+: acts ∧ (runFrom (Counters.step cfg) st pre).ctrl = .idle ∧
      history (Counters.step cfg) (discarded c s) st pre = [] := by
  induction acts generalizing st with
  | nil => exact ⟨[], List.prefix_refl _, hend, rfl⟩
  | cons a acts ih =>
    by_cases hidle : st.ctrl = .idle
    · exact ⟨[], List.nil_prefix, hidle, rfl⟩
    · obtain ⟨hnone, hpast⟩ := @Past.step c s st cfg h hidle a
      obtain ⟨pre, hpre, hquiet, hrest⟩ := ih hpast hend
      exact ⟨a :: pre, List.cons_prefix_cons.mpr ⟨rfl, hpre⟩, hquiet, by
        rw [history, hnone, hrest, List.append_nil]⟩

/-- **An accurate count has lost nothing.** If the clears before it are kept and the counts
are accurate at the next quiet moment, then a clear is kept. -/
theorem kept_of_accurate {pre post : List Act}
    (hbefore : Along (step cfg) Kept start pre) (hquiet : Quiet cfg (pre ++ .ctrl :: post))
    (hacc : ∀ pre', pre' <+: pre ++ .ctrl :: post → Quiet cfg pre' → ∀ c s, Accurate cfg c s pre') :
    Kept (runFrom (step cfg) start pre) .ctrl := by
  cases hctrl : (runFrom (step cfg) start pre).ctrl with
  | clearing c s =>
    rw [Quiet, runFrom_append] at hquiet
    obtain ⟨pre', hpre', hend', hnone⟩ := (past_clear hctrl).untilQuiet hquiet
    have hsplit : history (step cfg) (discarded c s) start (pre ++ .ctrl :: pre') =
        history (step cfg) (discarded c s) start pre ++
          discarded c s (runFrom (step cfg) start pre) .ctrl := by
      rw [history_append, history, hnone, List.append_nil]
    have hquiet' : Quiet cfg (pre ++ .ctrl :: pre') := by
      rw [Quiet, runFrom_append]
      exact hend'
    have hcount := hacc (pre ++ .ctrl :: pre') (by simpa using hpre') hquiet' c s
    rw [accurate_iff hquiet', hsplit, List.sum_append, history_of_kept hbefore, discarded,
      if_pos hctrl] at hcount
    have hzero : (runFrom (step cfg) start pre).count c s -
        (runFrom (step cfg) start pre).old c s = 0 := by simpa using hcount
    simp only [Kept, hctrl]
    grind
  | _ => simp only [Kept, hctrl]

/-- **Counters.** For any number of cores and any interleaving, the counters of all
shards are accurate whenever no swap is in progress if and only if, up to these moments,
every clear found the value that had been read. -/
theorem accurate_iff_kept (cfg : Cfg) (acts : List Act) :
    (∀ pre, pre <+: acts → Quiet cfg pre → ∀ c s, Accurate cfg c s pre) ↔
      ∀ pre, pre <+: acts → Quiet cfg pre → Along (step cfg) Kept start pre := by
  constructor
  · intro h quiet hquiet hend
    -- by induction on the prefix: its last clear is kept if those before it are
    have hkept : ∀ pre, pre <+: quiet → Along (step cfg) Kept start pre := by
      intro pre
      induction pre using List.reverseRecOn with
      | nil => exact fun _ => trivial
      | append_singleton pre a ih =>
        intro hpre
        have hbefore := ih ((List.prefix_append pre [a]).trans hpre)
        refine along_append.mpr ⟨hbefore, ?_, trivial⟩
        cases a with
        | ctrl =>
          obtain ⟨post, rfl⟩ := hpre
          rw [List.append_assoc] at hquiet hend
          exact kept_of_accurate hbefore hend fun pre' hpre' => h pre' (hpre'.trans hquiet)
        | _ => trivial
    exact hkept quiet (List.prefix_refl _)
  · intro h pre hpre hquiet c s
    rw [accurate_iff hquiet, history_of_kept (h pre hpre hquiet)]
    rfl

end

/-! ## Uninterrupted packets and swaps

If nobody interrupts, the accesses of a routine do what the routine does in one step of the atomic
model.
-/

/-- The counters of the atomic model, between two tasks. -/
def view {D : Type} (σ : Sys D) : State where
  count := fun
    | .bytes, s => (σ.shards s).bytes
    | .packets, s => (σ.shards s).packets
  old := fun
    | .bytes, s => (σ.shards s).oldBytes
    | .packets, s => (σ.shards s).oldPackets
  ctrl := .idle
  pc := fun _ => none

section

variable {D : Type} {cfg : Cfg} (σ : Sys D)

/-- **An uninterrupted core** counts a packet as `extract_state` of the atomic model. -/
theorem count_uninterrupted [Double D] (w s : ℕ) (p : Packet) :
    runFrom (step cfg) (view σ) [.count w s p.ipLen, .go w] =
      view { σ with shards := updateShard s (ShardInfo.countPacket true p) σ.shards } := by
  refine State.ext ?_ ?_ (by simp [step, view]) (by simp [step, view])
  · funext c s'
    cases c <;> by_cases hs : s' = s <;>
      simp [step, view, updateShard, ShardInfo.countPacket, hs]
  · funext c s'
    cases c <;> by_cases hs : s' = s <;>
      simp [step, view, updateShard, ShardInfo.countPacket, hs]

/-- **An uninterrupted swap** takes and clears the counters as `swap_shards` of the
atomic model. -/
theorem swap_uninterrupted :
    GoesTo (step cfg) .ctrl (view σ) (view (Controller.swapShards cfg σ)) := by
  -- the state at the head of round `i`: the shards below `i` are swapped, the others as before
  let swapped : ℕ → Ctrl → State := fun i l => { view σ with
    count := fun c s => if s < i then 0 else (view σ).count c s
    old := fun c s => if s < i then (view σ).count c s else (view σ).old c s
    ctrl := l }
  have hbegin : step cfg (view σ) .ctrl = swapped 0 (.loop 0) :=
    State.ext (by simp [swapped, step, control, view]) (by simp [swapped, step, control, view])
      rfl rfl
  have hloop := GoesTo.loop (step cfg) .ctrl (n := cfg.totalShards)
    (f := fun i => swapped i (.loop i)) fun i hi => by
      have hread : step cfg (swapped i (.loop i)) .ctrl = swapped i (.reading .bytes i) := by
        simp [step, control, swapped, hi]
      have hclear : swapped (i + 1) (.loop (i + 1)) =
          ((((swapped i (.reading .bytes i)).take .bytes i (.reading .packets i)).take
            .packets i (.clearing .bytes i)).clear .bytes i (.clearing .packets i)).clear
            .packets i (.loop (i + 1)) := by
        have hlt : ∀ s, s < i + 1 ↔ s = i ∨ s < i := fun s => by omega
        refine State.ext ?_ ?_ rfl rfl
        · funext c s
          cases c <;> by_cases hs : s = i <;> simp [swapped, hlt, hs]
        · funext c s
          cases c <;> by_cases hs : s = i <;> simp [swapped, hlt, hs]
      rw [hclear]
      -- five accesses make a round
      exact .head hread (.head rfl (.head rfl (.head rfl (.one rfl))))
  have hend : step cfg (swapped cfg.totalShards (.loop cfg.totalShards)) .ctrl =
      view (Controller.swapShards cfg σ) := by
    have hshard := @Controller.swapShards_shard _ cfg σ
    refine State.ext ?_ ?_ (by simp [step, control, swapped, view]) rfl
    · funext c s
      cases c <;> by_cases hs : s < cfg.totalShards <;>
        simp [step, control, swapped, view, hshard, Controller.swapShard, hs]
    · funext c s
      cases c <;> by_cases hs : s < cfg.totalShards <;>
        simp [step, control, swapped, view, hshard, Controller.swapShard, hs]
  exact .head hbegin (hloop.trans (.one hend))

end

/-! ## What goes wrong -/

/-- The controller has read `bytes` and `packets` of shard 0 when core 0 counts a packet
of 100 bytes; then it goes on to the end of the swap. -/
def lateAdd : List Act :=
  List.replicate 4 .ctrl ++ [.count 0 0 100, .go 0] ++ List.replicate 8 .ctrl

/-- No swap is in progress, and the packet is lost to both counters. -/
theorem lateAdd_notAccurate : Quiet (Small.router 0) lateAdd ∧
    ∀ c, ¬ Accurate (Small.router 0) c 0 lateAdd := by
  refine ⟨by unfold Quiet; decide +kernel, fun c => ?_⟩
  cases c <;> unfold Accurate <;> decide +kernel

end Counters

end Fajita
