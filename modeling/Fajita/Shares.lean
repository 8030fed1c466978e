import Fajita.Collection
import Mathlib.Algebra.BigOperators.Ring.Finset
import Mathlib.Algebra.Order.BigOperators.Group.List
import Mathlib.Algebra.Order.Field.Rat
import Mathlib.Tactic.Linarith

/-!
# The shares of the flows

The share of a flow is its bytes of one epoch, divided by the bytes of its shard in that
epoch. The two are counted apart: the shard's by the controller's epochs, a flow's by
the regular packets that find it. They belong together as long as every packet adds its
bytes to a record of the epoch that is running (`InTime`).

`Balanced` is the invariant: what the records of the running epoch count is part of what
the shard counts, and what is left of the epoch before, as bytes or as shares, is part
of what it counted then. A lookup in time keeps it (`Balanced.extractState`), and so does an
epoch (`Balanced.close`); it contains that the shares of the sorted flows are those of parts
of a whole (`SubProb`).
-/

namespace Fajita

open Controller ShardInfo

variable {cfg : Cfg} {s : ℕ} {sh : ShardInfo ℚ} {e : UInt32} {solver : Bool} {p : Packet}

/-! ## What the records count -/

/-- The bytes of a record of epoch `e`. -/
def current (e : UInt32) : Option (DyssectState ℚ) → ℕ
  | some st => if st.epoch = e then st.bytes.toNat else 0
  | none => 0

/-- What a record has of the `old` bytes of the epoch before `e`: its share of them, or
its bytes if it has not been closed yet. -/
def previous (e old : UInt32) : Option (DyssectState ℚ) → ℚ
  | some st =>
    if st.epoch = e then st.prob * old.toNat
    else if st.epoch = e - 1 then st.bytes.toNat else 0
  | none => 0

/-- The packet adds its bytes to no record of the epoch before, and to a record of the
running epoch only if the shard counts them as well. A regular packet closes the record
first, if the solver option is on; without it, a new record is numbered 0. -/
def InTime (solver : Bool) (e : UInt32) (o : Option (DyssectState ℚ)) (p : Packet) : Prop :=
  match o with
  | some st =>
    (solver && !isPriority p) = true ∨ st.epoch ≠ e - 1 ∧ (st.epoch = e → solver = true)
  | none => solver = true ∨ (0 ≠ e - 1 ∧ 0 ≠ e)

instance (solver : Bool) (e : UInt32) (o : Option (DyssectState ℚ)) (p : Packet) :
    Decidable (InTime solver e o p) := by
  simp only [InTime]
  split <;> infer_instance

/-- The byte count of the shard stays below 2^32. -/
def FitsCount (solver : Bool) (bytes : UInt32) (p : Packet) : Prop :=
  solver = true → bytes.toNat + p.ipLen < 2 ^ 32

instance (solver : Bool) (bytes : UInt32) (p : Packet) : Decidable (FitsCount solver bytes p) :=
  inferInstanceAs (Decidable (_ → _))

/-- The shares of the sorted flows are those of parts of a whole. -/
structure SubProb (sh : ShardInfo ℚ) : Prop where
  /-- no share is negative -/
  nonneg : ∀ x ∈ prob2s sh, 0 ≤ x
  /-- together they are at most 1 -/
  sum_le : (prob2s sh).sum ≤ 1
  /-- and so is every sum up to a flow -/
  cdf : ∀ k ∈ sh.orderedFlows, ∀ st ∈ sh.table k, 0 ≤ st.cdf ∧ st.cdf ≤ 1

/-- **The invariant** of a shard in epoch `e`. -/
structure Balanced (e : UInt32) (sh : ShardInfo ℚ) : Prop where
  /-- the records of the epoch count no more than the shard does -/
  bytes : ∀ K : Finset FlowKey, ∑ k ∈ K, current e (sh.table k) ≤ sh.bytes.toNat
  /-- what is left of the epoch before is no more than the shard counted -/
  shares : ∀ K : Finset FlowKey, ∑ k ∈ K, previous e sh.oldBytes (sh.table k) ≤ sh.oldBytes.toNat
  /-- a share is not negative, and there is none of nothing -/
  prob : ∀ k, ∀ st ∈ sh.table k, st.epoch = e → 0 ≤ st.prob ∧ (sh.oldBytes = 0 → st.prob = 0)
  /-- the tables are in order -/
  tables : ∃ known, Collects known sh
  /-- recorded flows have records of the epoch -/
  recorded : ∀ k ∈ sh.recording, ∀ st ∈ sh.table k, st.epoch = e
  /-- the sorted flows are in the table -/
  listed : ∀ k ∈ sh.orderedFlows, (sh.table k).isSome = true
  /-- their shares are in order -/
  sub : SubProb sh

theorem SubProb.of_book {sh' : ShardInfo ℚ} (hbook : sh'.book = sh.book) (h : SubProb sh) :
    SubProb sh' := by
  obtain ⟨htable, -, -, -, -, -, -, hordered⟩ := book_fields hbook
  have hprob : prob2s sh' = prob2s sh := by rw [prob2s, prob2s, htable, hordered]
  exact ⟨hprob ▸ h.nonneg, hprob ▸ h.sum_le, by rw [htable, hordered]; exact h.cdf⟩

theorem Balanced.of_book {sh' : ShardInfo ℚ} (hbook : sh'.book = sh.book) (h : Balanced e sh) :
    Balanced e sh' := by
  obtain ⟨htable, huse, hbytes, -, hold, hflows, hflows₂, hordered⟩ := book_fields hbook
  have hrec : sh'.recording = sh.recording := by rw [recording, recording, huse, hflows, hflows₂]
  obtain ⟨known, hknown⟩ := h.tables
  constructor
  · rw [htable, hbytes]
    exact h.bytes
  · rw [htable, hold]
    exact h.shares
  · rw [htable, hold]
    exact h.prob
  · exact ⟨known, hknown.of_book hbook⟩
  · rw [htable, hrec]
    exact h.recorded
  · rw [htable, hordered]
    exact h.listed
  · exact h.sub.of_book hbook

/-! ## A lookup

A lookup counts bytes in the record of a flow and in the counter of the shard, by the same number.
The sum of the records of the epoch is therefore no more than the counter.
-/

theorem entry_epoch (h : InTime solver e (sh.table p.flow) p) :
    (sh.entry solver e s p).epoch ≠ e - 1 ∧
      ((sh.entry solver e s p).epoch = e → solver = true) := by
  unfold InTime at h
  simp only [entry]
  -- epochs wrap around, but one never follows itself
  have hne : e ≠ e - 1 := by grind
  cases hst : sh.table p.flow with
  | none =>
    rw [hst] at h
    dsimp only at h ⊢
    cases solver with
    | true => exact ⟨hne, fun _ => rfl⟩
    | false =>
      rcases h with h | h
      · cases h
      · exact ⟨h.1, fun heq => absurd heq h.2⟩
  | some st =>
    rw [hst] at h
    dsimp only at h ⊢
    rw [Bool.and_comm] at h
    cases hreg : (!isPriority p && solver) with
    | true =>
      rw [if_pos rfl]
      refine ⟨?_, fun _ => (Bool.and_eq_true_iff.mp hreg).2⟩
      simp only [rollover]
      split
      · exact hne
      · next heq =>
        rw [not_not.mp heq]
        exact hne
    | false =>
      rw [if_neg Bool.false_ne_true]
      rcases h with h | h
      · rw [hreg] at h
        cases h
      · exact h

theorem previous_nonneg {old : UInt32} {o : Option (DyssectState ℚ)}
    (h : ∀ st ∈ o, st.epoch = e → 0 ≤ st.prob) : 0 ≤ previous e old o := by
  cases o with
  | none => exact le_refl 0
  | some st =>
    simp only [previous]
    split_ifs with he he'
    · exact mul_nonneg (h st rfl he) (Nat.cast_nonneg _)
    · exact Nat.cast_nonneg _
    · exact le_refl 0

theorem rollover_epoch {old : UInt32} {st : DyssectState ℚ} : (rollover e old st).epoch = e := by
  simp only [rollover]
  split
  · rfl
  · next he => exact not_not.mp he

/-- **Closing a record** turns its bytes into a share. -/
theorem rollover_spec {old : UInt32} {st : DyssectState ℚ}
    (hprob : st.epoch = e → 0 ≤ st.prob ∧ (old = 0 → st.prob = 0)) :
    (rollover e old st).epoch = e ∧
      current e (some (rollover e old st)) ≤ current e (some st) ∧
      (rollover e old st).prob * old.toNat ≤ previous e old (some st) ∧
      0 ≤ (rollover e old st).prob ∧ (old = 0 → (rollover e old st).prob = 0) := by
  refine ⟨rollover_epoch, ?_⟩
  simp only [rollover]
  by_cases he : st.epoch = e
  · obtain ⟨hnonneg, hzero⟩ := hprob he
    rw [if_neg (not_not.mpr he)]
    refine ⟨le_refl _, ?_, hnonneg, hzero⟩
    rw [previous, if_pos he]
  · rw [if_pos he]
    dsimp only
    refine ⟨?_, ?_⟩
    · rw [current, if_pos rfl]
      exact Nat.zero_le _
    · by_cases hclose : old ≠ 0 ∧ st.epoch = e - 1
      · -- a record of the epoch before: its bytes become a share, and `current` loses them
        have hold : (old.toNat : ℚ) ≠ 0 := by
          intro hcast
          refine hclose.1 (UInt32.toNat_inj.mp ?_)
          rw [Nat.cast_eq_zero.mp hcast]
          rfl
        rw [if_pos hclose, previous, if_neg he, if_pos hclose.2]
        refine ⟨le_of_eq (div_mul_cancel₀ _ hold), ?_, fun h0 => absurd h0 hclose.1⟩
        exact div_nonneg (Nat.cast_nonneg _) (Nat.cast_nonneg _)
      · -- an older record, or an epoch without bytes: the share is 0
        rw [if_neg hclose]
        refine ⟨?_, le_refl 0, fun _ => rfl⟩
        have hzero : (0 : ℚ) * old.toNat = 0 := zero_mul _
        exact hzero.le.trans (previous_nonneg fun st' hst' he' => by
          obtain rfl := Option.some.inj hst'
          exact absurd he' he)

/-- What the record of the packet counts, before the bytes of the packet. -/
theorem entry_spec (h : Balanced e sh) (s : ℕ) (hin : InTime solver e (sh.table p.flow) p) :
    current e (some (sh.entry solver e s p)) ≤ current e (sh.table p.flow) ∧
      previous e sh.oldBytes (some (sh.entry solver e s p)) ≤
        previous e sh.oldBytes (sh.table p.flow) ∧
      ((sh.entry solver e s p).epoch = e → 0 ≤ (sh.entry solver e s p).prob ∧
        (sh.oldBytes = 0 → (sh.entry solver e s p).prob = 0)) := by
  have hne := (entry_epoch (s := s) hin).1
  unfold entry at hne ⊢
  cases hst : sh.table p.flow with
  | none =>
    rw [hst] at hne
    dsimp only at hne ⊢
    generalize (if solver = true then e else 0) = n at hne ⊢
    refine ⟨?_, ?_, fun _ => ⟨le_refl 0, fun _ => rfl⟩⟩
    · rw [current]
      split <;> exact le_refl 0
    · have hzero : (0 : ℚ) * sh.oldBytes.toNat = 0 := zero_mul _
      rw [previous]
      split
      · exact hzero.le
      · exact le_refl 0
  | some st =>
    obtain ⟨he, hcurrent, hprevious, hprob⟩ := rollover_spec (h.prob p.flow st hst)
    rw [hst] at hne
    dsimp only at hne ⊢
    split
    · refine ⟨hcurrent, ?_, fun _ => hprob⟩
      rw [previous, if_pos he]
      exact hprevious
    · exact ⟨le_refl _, le_refl _, h.prob p.flow st hst⟩

/-- The record of the packet's flow after the lookup. -/
theorem current_added {st : DyssectState ℚ} (h : st.epoch = e → solver = true) (n : ℕ) :
    current e (some { st with bytes := st.bytes + UInt64.ofNat n }) ≤
      current e (some st) + if solver then n else 0 := by
  simp only [current]
  split
  · next he =>
    have hn : (UInt64.ofNat n).toNat ≤ n := by
      rw [UInt64.toNat_ofNat']
      exact Nat.mod_le ..
    rw [if_pos (h he), UInt64.toNat_add]
    exact (Nat.mod_le ..).trans (Nat.add_le_add_left hn _)
  · exact Nat.zero_le _

theorem previous_added {old : UInt32} {st : DyssectState ℚ} (h : st.epoch ≠ e - 1) (n : ℕ) :
    previous e old (some { st with bytes := st.bytes + UInt64.ofNat n }) =
      previous e old (some st) := by
  simp only [previous]
  rw [if_neg h, if_neg h]

/-- A lookup leaves the copies the controller sorts by alone. -/
theorem SubProb.extractState (h : SubProb sh)
    (hlisted : ∀ k ∈ sh.orderedFlows, (sh.table k).isSome = true) :
    SubProb (sh.extractState solver e s p) := by
  have hordered := (@extractState_kept _ _ s solver e p sh).2.2.1
  have hentry : ∀ k ∈ sh.orderedFlows, ∀ st ∈ (sh.extractState solver e s p).table k,
      ∃ st' ∈ sh.table k, st.prob2 = st'.prob2 ∧ st.cdf = st'.cdf := by
    intro k hk st hst
    obtain ⟨rfl, rfl⟩ | ⟨-, hst⟩ := extractState_entries hst
    · obtain ⟨st', hst'⟩ := Option.isSome_iff_exists.mp (hlisted _ hk)
      refine ⟨st', hst', ?_⟩
      simp only [entry]
      rw [hst']
      dsimp only
      split
      · simp only [rollover]
        split <;> exact ⟨rfl, rfl⟩
      · exact ⟨rfl, rfl⟩
    · exact ⟨st, hst, rfl, rfl⟩
  have hprob : prob2s (sh.extractState solver e s p) = prob2s sh := by
    simp only [prob2s]
    rw [hordered]
    refine List.filterMap_congr fun k hk => ?_
    obtain ⟨st, hst⟩ :=
      Option.isSome_iff_exists.mp (extractState_stored (Or.inr (hlisted k hk)))
    obtain ⟨st', hst', heq, -⟩ := hentry k hk st hst
    rw [hst, Option.mem_def.mp hst', Option.map_some, Option.map_some, heq]
  refine ⟨hprob ▸ h.nonneg, hprob ▸ h.sum_le, fun k hk st hst => ?_⟩
  rw [hordered] at hk
  obtain ⟨st', hst', -, heq⟩ := hentry k hk st hst
  rw [heq]
  exact h.cdf k hk st' hst'

/-- A flow that is recorded after the lookup of one of its packets has a record of the
epoch. -/
theorem entry_of_recorded {known : List FlowKey} (h : Balanced e sh) (hknown : Collects known sh)
    (hrec : p.flow ∈ (sh.extractState solver e s p).recording) :
    (sh.entry solver e s p).epoch = e := by
  rw [extractState_recording (hknown.named p.flow)] at hrec
  simp only [entry]
  cases hst : sh.table p.flow with
  | none =>
    have hmem : p.flow ∈ sh.recording := by
      rw [finds, hst] at hrec
      exact hrec
    have hstored := hknown.stored _ ((hknown.exact _).mp hmem)
    rw [hst] at hstored
    cases hstored
  | some st =>
    dsimp only
    rw [finds, hst, Option.isSome_some, Bool.true_and] at hrec
    split
    · exact rollover_epoch
    · next hreg =>
      rw [if_neg hreg] at hrec
      exact h.recorded _ hrec st hst

/-- A packet in time adds its bytes to one record of the epoch at most. -/
theorem current_extractState (h : Balanced e sh) (hin : InTime solver e (sh.table p.flow) p)
    (k : FlowKey) :
    current e ((sh.extractState solver e s p).table k) ≤
      current e (sh.table k) + if k = p.flow then (if solver then p.ipLen else 0) else 0 := by
  rw [extractState_table]
  by_cases hkp : k = p.flow
  · subst hkp
    rw [Function.update_self, if_pos rfl]
    refine (current_added (entry_epoch (s := s) hin).2 p.ipLen).trans ?_
    exact Nat.add_le_add_right (entry_spec h s hin).1 _
  · rw [Function.update_of_ne hkp]
    exact Nat.le_add_right ..

/-- It adds nothing to what is left of the epoch before. -/
theorem previous_extractState (h : Balanced e sh) (hin : InTime solver e (sh.table p.flow) p)
    (k : FlowKey) :
    previous e sh.oldBytes ((sh.extractState solver e s p).table k) ≤
      previous e sh.oldBytes (sh.table k) := by
  rw [extractState_table]
  by_cases hkp : k = p.flow
  · subst hkp
    rw [Function.update_self, previous_added (entry_epoch (s := s) hin).1]
    exact (entry_spec h s hin).2.1
  · rw [Function.update_of_ne hkp]

/-- The shard counts the bytes as well. -/
theorem bytes_extractState (hfits : FitsCount solver sh.bytes p) :
    (sh.extractState solver e s p).bytes.toNat =
      sh.bytes.toNat + if solver then p.ipLen else 0 := by
  rw [(@extractState_counters _ _ s solver e p sh).1]
  cases solver with
  | false => rfl
  | true =>
    rw [if_pos rfl, if_pos rfl, UInt32.toNat_add, UInt32.toNat_ofNat', Nat.add_mod_mod,
      Nat.mod_eq_of_lt (hfits rfl)]

/-- **A lookup in time keeps the balance.** -/
theorem Balanced.extractState (h : Balanced e sh) (hin : InTime solver e (sh.table p.flow) p)
    (hfits : FitsCount solver sh.bytes p) : Balanced e (sh.extractState solver e s p) := by
  obtain ⟨huse, hold, hordered, hidle⟩ := @extractState_kept _ _ s solver e p sh
  obtain ⟨known, hknown⟩ := h.tables
  constructor
  · intro K
    rw [bytes_extractState hfits]
    refine (sum_le_of_update (Nat.zero_le _) (current_extractState h hin) K).trans ?_
    exact Nat.add_le_add_right (h.bytes K) _
  · intro K
    rw [hold]
    exact (Finset.sum_le_sum fun k _ => previous_extractState h hin k).trans (h.shares K)
  · intro k st hst he
    rw [hold]
    obtain ⟨rfl, rfl⟩ | ⟨-, hst⟩ := extractState_entries hst
    · exact (entry_spec h s hin).2.2 he
    · exact h.prob k st hst he
  · exact ⟨_, hknown.extractState solver e p⟩
  · intro k hk st hst
    obtain ⟨rfl, rfl⟩ | ⟨hkp, hst⟩ := extractState_entries hst
    · exact entry_of_recorded h hknown hk
    · rw [extractState_recording (hknown.named p.flow)] at hk
      refine h.recorded k ?_ st hst
      split at hk
      · exact (mem_insertKey.mp hk).resolve_right hkp
      · exact hk
  · intro k hk
    rw [hordered] at hk
    exact extractState_stored (Or.inr (h.listed k hk))
  · exact h.sub.extractState h.listed

/-! ## An epoch -/

section

variable {vec : List FlowKey}

/-- The share of a flow. -/
def probOf (o : Option (DyssectState ℚ)) : ℚ := (o.map DyssectState.prob).getD 0

/-- After an epoch the shares are those the sorted flows had before. -/
theorem prob2s_closeEpoch {known : List FlowKey} (h : Collects known sh)
    (hvec : vec.Perm sh.recording) :
    prob2s (closeEpoch vec sh) = vec.map fun k => probOf (sh.table k) := by
  have hstored : ∀ k ∈ vec, ∃ st, sh.table k = some st := fun k hk =>
    Option.isSome_iff_exists.mp (h.stored k ((h.exact k).mp (hvec.mem_iff.mp hk)))
  rw [prob2s, (@closeEpoch_tables _ _ sh vec).2.2, ← List.filterMap_eq_map]
  refine List.filterMap_congr fun k hk => ?_
  obtain ⟨st, hst⟩ := hstored k hk
  rw [closeEpoch_table hvec, if_pos hk, Function.comp_apply, hst]
  rfl

/-- **The recorded flows share the bytes of the epoch before.** -/
theorem Balanced.shares_of_recorded (h : Balanced e sh) (hvec : vec.Perm sh.recording)
    (hnodup : vec.Nodup) : (∀ k ∈ vec, 0 ≤ probOf (sh.table k)) ∧
      (vec.map fun k => probOf (sh.table k)).sum ≤ 1 := by
  have hrec : ∀ k ∈ vec, ∀ st ∈ sh.table k, st.epoch = e :=
    fun k hk => h.recorded k (hvec.mem_iff.mp hk)
  have hprob : ∀ k ∈ vec, 0 ≤ probOf (sh.table k) ∧
      (sh.oldBytes = 0 → probOf (sh.table k) = 0) ∧
      previous e sh.oldBytes (sh.table k) = probOf (sh.table k) * sh.oldBytes.toNat := by
    intro k hk
    cases hst : sh.table k with
    | none => exact ⟨le_refl 0, fun _ => rfl, (zero_mul _).symm⟩
    | some st =>
      have he := hrec k hk st hst
      obtain ⟨hnonneg, hzero⟩ := h.prob k st hst he
      exact ⟨hnonneg, hzero, if_pos he⟩
  refine ⟨fun k hk => (hprob k hk).1, ?_⟩
  by_cases hold : sh.oldBytes = 0
  · refine le_trans (le_of_eq (List.sum_eq_zero fun x hx => ?_)) zero_le_one
    obtain ⟨k, hk, rfl⟩ := List.mem_map.mp hx
    exact (hprob k hk).2.1 hold
  · have hpos : (0 : ℚ) < sh.oldBytes.toNat := by
      rw [Nat.cast_pos, Nat.pos_iff_ne_zero]
      exact fun h0 => hold (UInt32.toNat_inj.mp h0)
    have hsum := h.shares vec.toFinset
    rw [Finset.sum_congr rfl fun k hk => (hprob k (List.mem_toFinset.mp hk)).2.2,
      ← Finset.sum_mul, List.sum_toFinset _ hnodup] at hsum
    exact le_of_mul_le_mul_right (hsum.trans (one_mul _).ge) hpos

/-- The sums up to the flows of a list of shares. -/
theorem sum_take_filterMap {f : FlowKey → Option ℚ} {ks : List FlowKey}
    (hnonneg : ∀ x ∈ ks.filterMap f, 0 ≤ x) (n : ℕ) :
    0 ≤ ((ks.take n).filterMap f).sum ∧
      ((ks.take n).filterMap f).sum ≤ (ks.filterMap f).sum := by
  have hsplit : ks.filterMap f = (ks.take n).filterMap f ++ (ks.drop n).filterMap f := by
    rw [← List.filterMap_append, List.take_append_drop]
  rw [hsplit] at hnonneg ⊢
  rw [List.sum_append]
  have htake := List.sum_nonneg fun x hx => hnonneg x (List.mem_append_left _ hx)
  have hdrop := List.sum_nonneg fun x hx => hnonneg x (List.mem_append_right _ hx)
  exact ⟨htake, by linarith⟩

/-- After an epoch no record is one of the new epoch, if none had its number before. -/
theorem closeEpoch_fresh (hvec : vec.Perm sh.recording)
    (hfresh : ∀ k, ∀ st ∈ sh.table k, st.epoch ≠ e + 1) (k : FlowKey) :
    ∀ st ∈ (closeEpoch vec sh).table k, st.epoch ≠ e + 1 := by
  intro st hst
  obtain ⟨st', hst', -, he, -⟩ := closeEpoch_entries hvec hst
  rw [he]
  exact hfresh k st' hst'

/-- What the records of the epoch counted is what is left of it afterwards. -/
theorem previous_closeEpoch (hvec : vec.Perm sh.recording) (old : UInt32)
    (hfresh : ∀ k, ∀ st ∈ sh.table k, st.epoch ≠ e + 1) (k : FlowKey) :
    previous (e + 1) old ((closeEpoch vec sh).table k) ≤ (current e (sh.table k) : ℚ) := by
  cases hst : (closeEpoch vec sh).table k with
  | none => exact Nat.cast_nonneg _
  | some st =>
    obtain ⟨st', hst', -, he, hb⟩ := closeEpoch_entries hvec hst
    have hnew := closeEpoch_fresh hvec hfresh k st hst
    have hprev : e + 1 - 1 = e := by grind
    rw [Option.mem_def.mp hst', previous, if_neg hnew, hprev, he, hb, current]
    split
    · exact le_refl _
    · exact Nat.cast_nonneg _

/-- The shares of the sorted flows after an epoch. -/
theorem Balanced.sub_closeEpoch {known : List FlowKey} (h : Balanced e sh)
    (hknown : Collects known sh) (hsorted : SortedFlows (swapShard sh) vec)
    (hvec : vec.Perm sh.recording) : SubProb (closeEpoch vec sh) := by
  have hexact := hknown.orders hsorted
  obtain ⟨hnonneg, hsum⟩ := h.shares_of_recorded hvec (hvec.nodup_iff.mpr hknown.nodup)
  rw [← prob2s_closeEpoch hknown hvec] at hsum
  have hpos : ∀ x ∈ prob2s (closeEpoch vec sh), 0 ≤ x := by
    intro x hx
    rw [prob2s_closeEpoch hknown hvec] at hx
    obtain ⟨k, hk, rfl⟩ := List.mem_map.mp hx
    exact hnonneg k hk
  refine ⟨hpos, hsum, fun k hk st hst => ?_⟩
  obtain ⟨i, hi, rfl⟩ := List.mem_iff_getElem.mp hk
  rw [hexact.cdf i hi st hst]
  obtain ⟨hlow, hhigh⟩ := sum_take_filterMap hpos (i + 1)
  exact ⟨hlow, hhigh.trans hsum⟩

/-- **An epoch keeps the balance**, if no record has the number of the new epoch yet. -/
theorem Balanced.close (h : Balanced e sh) (hsorted : SortedFlows (swapShard sh) vec)
    (hfresh : ∀ k, ∀ st ∈ sh.table k, st.epoch ≠ e + 1) :
    Balanced (e + 1) (closeEpoch vec sh) := by
  obtain ⟨known, hknown⟩ := h.tables
  have hvec : vec.Perm sh.recording := by
    rw [← collected_swapShard]
    exact hsorted.perm
  obtain ⟨hidle, hrec, hordered⟩ := @closeEpoch_tables _ _ sh vec
  obtain ⟨hbytes, hold⟩ := @closeEpoch_counters _ _ sh vec
  have hnew := closeEpoch_fresh hvec hfresh
  constructor
  · intro K
    rw [hbytes, Finset.sum_eq_zero fun k _ => ?_]
    · exact Nat.zero_le _
    · cases hst : (closeEpoch vec sh).table k with
      | none => rfl
      | some st => exact if_neg (hnew k st hst)
  · intro K
    rw [hold]
    calc ∑ k ∈ K, previous (e + 1) sh.bytes ((closeEpoch vec sh).table k)
        ≤ ∑ k ∈ K, (current e (sh.table k) : ℚ) :=
          Finset.sum_le_sum fun k _ => previous_closeEpoch hvec sh.bytes hfresh k
      _ = ((∑ k ∈ K, current e (sh.table k) : ℕ) : ℚ) := (Nat.cast_sum ..).symm
      _ ≤ sh.bytes.toNat := Nat.cast_le.mpr (h.bytes K)
  · exact fun k st hst he => absurd he (hnew k st hst)
  · exact ⟨[], hknown.close hvec⟩
  · intro k hk
    rw [hrec, hknown.idle] at hk
    cases hk
  · exact (hknown.orders hsorted).stored
  · exact h.sub_closeEpoch hknown hsorted hvec

end

/-! ## Shards without shares -/

theorem subProb_of_unlisted (h : sh.orderedFlows = []) : SubProb sh := by
  have hprob : prob2s sh = [] := by
    rw [prob2s, h]
    rfl
  refine ⟨fun x hx => ?_, ?_, fun k hk => ?_⟩
  · rw [hprob] at hx
    cases hx
  · rw [hprob]
    exact zero_le_one
  · rw [h] at hk
    cases hk

theorem balanced_init : Balanced 0 ((init ℚ cfg).shards s) where
  bytes _ := (Finset.sum_eq_zero fun _ _ => rfl).trans_le (Nat.zero_le _)
  shares _ := (Finset.sum_eq_zero fun _ _ => rfl).trans_le (Nat.cast_nonneg _)
  prob _ _ hst := by cases hst
  tables := ⟨[], collects_init⟩
  recorded _ hk := by cases hk
  listed _ hk := by cases hk
  sub := subProb_of_unlisted rfl

/-! ## Before the number of the epoch wraps around

Until the number of the epoch wraps around, no record can have the number of the epoch to come.
-/

/-- No record has a number that is still to come. -/
def Young (e : UInt32) (sh : ShardInfo ℚ) : Prop :=
  (∃ known, Collects known sh) ∧ ∀ k, ∀ st ∈ sh.table k, st.epoch.toNat ≤ e.toNat

theorem Young.extractState (h : Young e sh) (solver : Bool) (p : Packet) :
    Young e (sh.extractState solver e s p) := by
  obtain ⟨⟨known, hknown⟩, hage⟩ := h
  refine ⟨⟨_, hknown.extractState solver e p⟩, fun k st hst => ?_⟩
  obtain ⟨rfl, rfl⟩ | ⟨-, hst⟩ := extractState_entries hst
  · simp only [entry]
    cases hst : sh.table p.flow with
    | none =>
      dsimp only
      split
      · exact le_refl _
      · exact Nat.zero_le _
    | some st =>
      dsimp only
      split
      · exact (congrArg UInt32.toNat rollover_epoch).le
      · exact hage _ st hst
  · exact hage k st hst

theorem Young.close (h : Young e sh) {vec : List FlowKey} (hvec : vec.Perm sh.recording)
    (hun : e + 1 ≠ 0) : Young (e + 1) (closeEpoch vec sh) := by
  obtain ⟨⟨known, hknown⟩, hage⟩ := h
  refine ⟨⟨[], hknown.close hvec⟩, fun k st hst => ?_⟩
  have hnext : (e + 1).toNat = e.toNat + 1 := by
    have hlt := e.toNat_lt
    have hne : (e + 1).toNat ≠ 0 := fun h0 => hun (UInt32.toNat_inj.mp h0)
    rw [UInt32.toNat_add, UInt32.toNat_one] at hne ⊢
    omega
  obtain ⟨st', hst', -, he, -⟩ := closeEpoch_entries hvec hst
  rw [hnext, he]
  exact Nat.le_succ_of_le (hage k st' hst')

/-- As long as the number does not wrap around, no record has the next one. -/
theorem Young.fresh (h : Young e sh) (hun : e + 1 ≠ 0) (k : FlowKey) :
    ∀ st ∈ sh.table k, st.epoch ≠ e + 1 := by
  intro st hst he
  have hage := h.2 k st hst
  have hlt := e.toNat_lt
  have hne : (e + 1).toNat ≠ 0 := fun h0 => hun (UInt32.toNat_inj.mp h0)
  rw [he] at hage
  rw [UInt32.toNat_add, UInt32.toNat_one] at hage hne
  omega

end Fajita
