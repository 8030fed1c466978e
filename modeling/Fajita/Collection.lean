import Fajita.Lookups

/-!
# The collected flows

Working cores record flows in one of two tables of a shard while the controller sorts
and clears the other; `swap_shards` exchanges the two.

`Collects` is the invariant: the idle table is empty, and the other one holds, once
each, the flows a regular packet has found since the last epoch. Lookups keep it
(`Collects.extractState`), and so does an epoch (`Collects.close`); `Collects.orders` is
what follows for the list `order_shards` leaves behind. The tables are keyed by the 12
bytes of a flow here; what becomes of all this when they are keyed by hash as well is
the subject of `Fajita.Hashing`.
-/

namespace Fajita

open Controller ShardInfo

section

variable {D : Type} [Double D] {cfg : Cfg} {σ : Sys D} {s : ℕ} {sh : ShardInfo D}
  {known : List FlowKey}

/-! ## The invariant -/

/-- The tables of a shard, when regular packets have found the flows `known` since the
last epoch. -/
structure Collects (known : List FlowKey) (sh : ShardInfo D) : Prop where
  /-- the controller has cleared its table -/
  idle : collected sh = []
  /-- no flow is recorded twice -/
  nodup : sh.recording.Nodup
  /-- the recorded flows are those found -/
  exact : ∀ k, k ∈ sh.recording ↔ k ∈ known
  /-- they are in the table -/
  stored : ∀ k ∈ known, (sh.table k).isSome = true
  /-- a flow is stored under its key -/
  named : ∀ k, ∀ st ∈ sh.table k, st.flow = k

namespace Collects

/-- The invariant is one of the book of the shard. -/
theorem of_book {sh' : ShardInfo D} (hbook : sh'.book = sh.book) (h : Collects known sh) :
    Collects known sh' := by
  obtain ⟨htable, huse, -, -, -, hflows, hflows₂, -⟩ := book_fields hbook
  have hidle : collected sh' = collected sh := by rw [collected, collected, huse, hflows, hflows₂]
  have hrec : sh'.recording = sh.recording := by rw [recording, recording, huse, hflows, hflows₂]
  exact ⟨hidle ▸ h.idle, hrec ▸ h.nodup, hrec ▸ h.exact, htable ▸ h.stored, htable ▸ h.named⟩

/-- A lookup; a core with its solver option off records nothing. -/
theorem extractState (h : Collects known sh) (solver : Bool) (epoch : UInt32) (p : Packet) :
    Collects (if sh.finds p && solver then known ++ [p.flow] else known)
      (sh.extractState solver epoch s p) := by
  have hname := h.named p.flow
  have hrec := @extractState_recording _ _ s solver epoch p sh hname
  have hentry := @entry_flow _ _ s solver epoch p sh hname
  have hstored : ∀ k ∈ known, ((sh.extractState solver epoch s p).table k).isSome = true :=
    fun k hk => extractState_stored (Or.inr (h.stored k hk))
  refine ⟨extractState_kept.2.2.2.trans h.idle, ?_, fun k => ?_, fun k hk => ?_,
    fun k st hst => ?_⟩
  · rw [hrec]
    split
    · exact nodup_insertKey _ h.nodup
    · exact h.nodup
  · rw [hrec]
    split
    · rw [mem_insertKey, h.exact, List.mem_append, List.mem_singleton]
    · exact h.exact k
  · split at hk
    · rcases List.mem_append.mp hk with hk | hk
      · exact hstored k hk
      · exact extractState_stored (Or.inl (List.mem_singleton.mp hk))
    · exact hstored k hk
  · obtain ⟨rfl, rfl⟩ | ⟨-, hst⟩ := extractState_entries hst
    · exact hentry
    · exact h.named k st hst

end Collects

/-! ## Closing an epoch

An epoch is three loops over a shard: the swap of the tables, the sums of the shares, and the
clearing of the table that has been gone over. These lemmas say what they leave of the tables, of
the counters and of the records.
-/

namespace Controller

variable {vec : List FlowKey}

omit [Double D] in
/-- The swap hands the recorded flows to the controller. -/
theorem collected_swapShard : collected (swapShard sh) = sh.recording := by
  rw [collected, swapShard, recording]
  cases sh.use2 <;> rfl

/-- The tables have changed roles, and the controller's is empty. -/
theorem closeEpoch_tables : collected (closeEpoch vec sh) = [] ∧
    (closeEpoch vec sh).recording = collected sh ∧ (closeEpoch vec sh).orderedFlows = vec := by
  unfold closeEpoch clearShard collected recording orderShard swapShard
  cases sh.use2 <;> exact ⟨rfl, rfl, rfl⟩

/-- An epoch hands over the byte count, and starts a new one. -/
theorem closeEpoch_counters : (closeEpoch vec sh).bytes = 0 ∧
    (closeEpoch vec sh).oldBytes = sh.bytes := by
  simp only [closeEpoch, clearShard]
  split <;> exact ⟨rfl, rfl⟩

/-- The loops of `order_shards` have gone over the flows recorded in the epoch. -/
theorem closeEpoch_loops :
    (closeEpoch vec sh).table = assignCdf 0 vec (copyProb sh.recording sh.table) := by
  rw [← collected_swapShard]
  simp only [closeEpoch, clearShard, orderShard_eq]
  split <;> rfl

/-- The sorted flows have got their shares. -/
theorem closeEpoch_table (hvec : vec.Perm sh.recording) (k : FlowKey) :
    (closeEpoch vec sh).table k = if k ∈ vec then
      (sh.table k).map fun st => { st with prob2 := st.prob, cdf := sharesTo sh vec k }
    else sh.table k := by
  have hmem : ∀ k, k ∈ vec ↔ k ∈ collected (swapShard sh) := fun k => by
    rw [collected_swapShard, hvec.mem_iff]
  have htable : (closeEpoch vec sh).table =
      assignCdf 0 vec (copyProb (collected (swapShard sh)) (swapShard sh).table) := by
    rw [collected_swapShard]
    exact closeEpoch_loops
  rw [htable, assignCdf_eq, shares_copyProb fun k hk => (hmem k).mp hk]
  by_cases hk : k ∈ vec
  · rw [if_pos hk, if_pos hk, copyProb, if_pos ((hmem k).mp hk), Option.map_map]
    rfl
  · rw [if_neg hk, if_neg hk, copyProb, if_neg (mt (hmem k).mpr hk)]
    rfl

/-- Apart from the shares, the records stay what they were. -/
theorem closeEpoch_entries (hvec : vec.Perm sh.recording) {k : FlowKey} {st : DyssectState D}
    (hst : st ∈ (closeEpoch vec sh).table k) :
    ∃ st' ∈ sh.table k, st.flow = st'.flow ∧ st.epoch = st'.epoch ∧ st.bytes = st'.bytes := by
  rw [Option.mem_def, closeEpoch_table hvec] at hst
  split at hst
  · obtain ⟨st', hst', rfl⟩ := Option.map_eq_some_iff.mp hst
    exact ⟨st', hst', rfl, rfl, rfl⟩
  · exact ⟨st, hst, rfl, rfl, rfl⟩

end Controller

/-- **An epoch** leaves both tables empty. -/
theorem Collects.close {vec : List FlowKey} (h : Collects known sh)
    (hvec : vec.Perm sh.recording) : Collects [] (closeEpoch vec sh) := by
  obtain ⟨hidle, hrec, -⟩ := @closeEpoch_tables _ _ sh vec
  have hempty : (closeEpoch vec sh).recording = [] := hrec.trans h.idle
  refine ⟨hidle, ?_, fun k => ?_, fun k hk => (List.not_mem_nil hk).elim, fun k st hst => ?_⟩
  · rw [hempty]
    exact .nil
  · rw [hempty]
  · obtain ⟨st', hst', hflow, -⟩ := closeEpoch_entries hvec hst
    exact hflow.trans (h.named k st' hst')

/-- At first nothing has been recorded. -/
theorem collects_init : Collects [] ((init D cfg).shards s) where
  idle := rfl
  nodup := .nil
  exact _ := Iff.rfl
  stored _ hk := by cases hk
  named _ _ hst := by cases hst

end

/-! ## The sorted list -/

section

variable {cfg : Cfg} {s : ℕ} {sh : ShardInfo ℚ} {known vec : List FlowKey}

/-- In a list without repetitions, the keys up to a key are a prefix. -/
theorem upTo_getElem {ks : List FlowKey} (hnodup : ks.Nodup) (i : ℕ) (hi : i < ks.length) :
    upTo ks[i] ks = ks.take (i + 1) := by
  induction ks generalizing i with
  | nil => cases hi
  | cons k ks ih =>
    obtain ⟨hk, hks⟩ := List.nodup_cons.mp hnodup
    cases i with
    | zero => rw [List.getElem_cons_zero, upTo, if_neg hk, List.take_succ_cons, List.take_zero]
    | succ i =>
      have hi' : i < ks.length := Nat.lt_of_succ_lt_succ hi
      rw [List.getElem_cons_succ, upTo, if_pos (List.getElem_mem hi'), ih hks i hi',
        List.take_succ_cons]

/-- What an epoch leaves behind in a shard in which regular packets have found the flows
`known`, in exact arithmetic. -/
structure CollectionExact (known : List FlowKey) (sh : ShardInfo ℚ) : Prop where
  /-- no flow is listed twice -/
  nodup : sh.orderedFlows.Nodup
  /-- the listed flows are those found -/
  exact : ∀ k, k ∈ sh.orderedFlows ↔ k ∈ known
  /-- they are flows of the shard -/
  stored : ∀ k ∈ sh.orderedFlows, (sh.table k).isSome = true
  /-- larger shares come first -/
  sorted : sh.orderedFlows.Pairwise fun k k' =>
    ∀ st ∈ sh.table k, ∀ st' ∈ sh.table k', st'.prob2 ≤ st.prob2
  /-- the `cdf` of a listed flow is the sum of the shares up to it -/
  cdf : ∀ i, (hi : i < sh.orderedFlows.length) → ∀ st ∈ sh.table sh.orderedFlows[i],
    st.cdf = ((sh.orderedFlows.take (i + 1)).filterMap fun k =>
      (sh.table k).map DyssectState.prob2).sum
  /-- both tables are empty -/
  cleared : sh.flows3 = [] ∧ sh.flows3₂ = []

/-- What the epoch leaves behind is in the book of the shard. -/
theorem CollectionExact.of_book {sh' : ShardInfo ℚ} (hbook : sh'.book = sh.book)
    (h : CollectionExact known sh) : CollectionExact known sh' := by
  obtain ⟨htable, -, -, -, -, hflows, hflows₂, hordered⟩ := book_fields hbook
  obtain ⟨hnodup, hexact, hstored, hsorted, hcdf, hcleared⟩ := h
  constructor
  · exact hordered ▸ hnodup
  · exact hordered ▸ hexact
  · rw [hordered, htable]
    exact hstored
  · rw [hordered, htable]
    exact hsorted
  · simp only [hordered, htable]
    exact hcdf
  · rw [hflows, hflows₂]
    exact hcleared

/-- **What `order_shards` and `clear_flows` leave behind.** -/
theorem Collects.orders (h : Collects known sh) (hsorted : SortedFlows (swapShard sh) vec) :
    CollectionExact known (closeEpoch vec sh) := by
  -- the vector that is sorted is a copy of the table that was recorded into before the swap
  have hvec : vec.Perm sh.recording := by
    rw [← collected_swapShard]
    exact hsorted.perm
  have hnodup : vec.Nodup := hvec.nodup_iff.mpr h.nodup
  have hknown : ∀ k, k ∈ vec ↔ k ∈ known := fun k => by rw [hvec.mem_iff, h.exact]
  obtain ⟨hidle, hrec, hordered⟩ := @closeEpoch_tables _ _ sh vec
  have hentry : ∀ k ∈ vec, (closeEpoch vec sh).table k =
      (sh.table k).map fun st => { st with prob2 := st.prob, cdf := sharesTo sh vec k } :=
    fun k hk => by rw [closeEpoch_table hvec, if_pos hk]
  constructor
  · rw [hordered]
    exact hnodup
  · rw [hordered]
    exact hknown
  · intro k hk
    rw [hordered] at hk
    rw [hentry k hk, Option.isSome_map]
    exact h.stored k ((hknown k).mp hk)
  · rw [hordered]
    -- `sort` compared the shares before `prob2` and `cdf` were set; neither changes the share
    refine hsorted.sorted.imp_of_mem fun {k k'} hk hk' hle st hst st' hst' => ?_
    rw [Option.mem_def, hentry k hk] at hst
    rw [Option.mem_def, hentry k' hk'] at hst'
    obtain ⟨st₁, hst₁, rfl⟩ := Option.map_eq_some_iff.mp hst
    obtain ⟨st₂, hst₂, rfl⟩ := Option.map_eq_some_iff.mp hst'
    exact not_lt.mp (hle st₁ hst₁ st₂ hst₂)
  · intro i hi st hst
    simp only [hordered] at hi hst ⊢
    have hk := List.getElem_mem hi
    rw [Option.mem_def, hentry _ hk] at hst
    obtain ⟨st₁, hst₁, rfl⟩ := Option.map_eq_some_iff.mp hst
    dsimp only
    -- no key occurs twice, so the prefix up to the key is the prefix up to its index
    rw [sharesTo, upTo_getElem hnodup i hi, List.sum_eq_foldl]
    congr 1
    refine List.filterMap_congr fun k hk => ?_
    rw [hentry k (List.mem_of_mem_take hk), Option.map_map]
    rfl
  · have huse : ∀ sh : ShardInfo ℚ, collected sh = [] → sh.recording = [] →
        sh.flows3 = [] ∧ sh.flows3₂ = [] := by
      intro sh
      simp only [collected, recording]
      cases sh.use2 with
      | true => exact fun h h' => ⟨h, h'⟩
      | false => exact fun h h' => ⟨h', h⟩
    exact huse _ hidle (hrec.trans h.idle)

end

end Fajita
