import Fajita.System
import Mathlib.Data.Finset.Card

/-!
# The flow tables, read by read

`flows3` and `flows3_2` of a shard with each read of `use_2`, each operation on a
reference count and each flip of `use_2` as a step of its own. The table and the
count `_2` are the ones with index `true`.

A core reads `use_2` and only then raises the count of the table it has chosen;
the controller flips `use_2` and only then waits for the count of the other table
to be 0. Between its two steps the core is invisible to the controller. Unless
the controller's wait ends while a core is in between (`Careful`), the controller
and the cores are never at the same table: `excluded_of_careful`.
-/

namespace Fajita

namespace RefCount

/-! ## The state

A core that looks up a flow goes through three points: it reads which table is in use, counts up,
works, and counts down. The controller flips the table and waits for the count of the old one. All
of these are separate accesses, and the order of the accesses of different threads is free.
-/

/-- Where the controller is in `update_short_epoch`. -/
inductive Ctrl where
  /-- between two epochs -/
  | idle
  /-- in `swap_shards`, before shard `s` -/
  | swapping (s : ℕ)
  /-- between `swap_shards` and `order_shards` -/
  | solving
  /-- in `order_shards`, before or in the wait for shard `s` -/
  | waitOrder (s : ℕ)
  /-- in `order_shards`, iterating over the table of shard `s` -/
  | ordering (s : ℕ)
  /-- in `clear_flows`, before or in the wait for shard `s` -/
  | waitClear (s : ℕ)
  /-- in `clear_flows`, clearing the table of shard `s` -/
  | clearing (s : ℕ)
  deriving DecidableEq

/-- Where a working core is in `extract_state`. -/
inductive Pc where
  /-- not at the flow tables -/
  | idle
  /-- it has read `use_2` of shard `s`, which was `b` -/
  | chosen (s : ℕ) (b : Bool)
  /-- between the increment and the decrement of the count of table `b` -/
  | inside (s : ℕ) (b : Bool)
  deriving DecidableEq

/-- The selectors, the counts and the parties. -/
structure State where
  /-- `use_2` of each shard -/
  use2 : ℕ → Bool
  /-- `ref_count_1` and `ref_count_2` of each shard -/
  refCount : ℕ → Bool → UInt32
  /-- the controller -/
  ctrl : Ctrl
  /-- the cores -/
  pc : ℕ → Pc

/-- The state `init_shards` builds. -/
def start : State where
  use2 := fun _ => false
  refCount := fun _ _ => 0
  ctrl := .idle
  pc := fun _ => .idle

namespace State

/-- The core goes on at `l`. -/
def goto (w : ℕ) (l : Pc) (st : State) : State := { st with pc := Function.update st.pc w l }

/-- The count of table `b` of shard `s` becomes `n`. -/
def setCount (s : ℕ) (b : Bool) (n : UInt32) (st : State) : State :=
  { st with refCount := Function.update st.refCount s (Function.update (st.refCount s) b n) }

end State

/-! ## The steps -/

/-- The label of a step. -/
inductive Act where
  /-- the controller goes on -/
  | ctrl
  /-- core `w` reads `use_2` of shard `s` -/
  | choose (w s : ℕ)
  /-- core `w` goes on -/
  | go (w : ℕ)

/-- A step of the controller. The wait ends when the count is 0. -/
def control (cfg : Cfg) (st : State) : State :=
  match st.ctrl with
  | .idle => { st with ctrl := .swapping 0 }
  | .swapping s =>
    if s < cfg.totalShards then
      { st with use2 := Function.update st.use2 s (!st.use2 s), ctrl := .swapping (s + 1) }
    else { st with ctrl := .solving }
  | .solving => { st with ctrl := .waitOrder 0 }
  | .waitOrder s =>
    if s < cfg.totalShards then
      if st.refCount s (!st.use2 s) = 0 then { st with ctrl := .ordering s } else st
    else { st with ctrl := .waitClear 0 }
  | .ordering s => { st with ctrl := .waitOrder (s + 1) }
  | .waitClear s =>
    if s < cfg.totalShards then
      if st.refCount s (!st.use2 s) = 0 then { st with ctrl := .clearing s } else st
    else { st with ctrl := .idle }
  | .clearing s => { st with ctrl := .waitClear (s + 1) }

/-- A step of a core at the flow tables. -/
def go (w : ℕ) (st : State) : State :=
  match st.pc w with
  | .idle => st
  | .chosen s b => (st.setCount s b (st.refCount s b + 1)).goto w (.inside s b)
  | .inside s b => (st.setCount s b (st.refCount s b - 1)).goto w .idle

/-- The step function. -/
def step (cfg : Cfg) (st : State) : Act → State
  | .ctrl => control cfg st
  | .choose w s => st.goto w (.chosen s (st.use2 s))
  | .go w => go w st

/-- The labels that are possible in a state. -/
def Possible (cfg : Cfg) (st : State) : Act → Prop
  | .ctrl => True
  | .choose w s => w < cfg.W ∧ s < cfg.totalShards ∧ st.pc w = .idle
  | .go w => w < cfg.W ∧ st.pc w ≠ .idle

/-- No core is at the table the controller is at. -/
def Excluded (cfg : Cfg) (st : State) : Prop :=
  match st.ctrl with
  | .ordering s | .clearing s => ∀ w < cfg.W, st.pc w ≠ .inside s (!st.use2 s)
  | _ => True

/-- The wait of `order_shards` does not end while a core has chosen the table and
not yet raised its count. -/
def Careful (cfg : Cfg) (st : State) : Act → Prop
  | .ctrl =>
    match st.ctrl with
    | .waitOrder s => s < cfg.totalShards → st.refCount s (!st.use2 s) = 0 →
        ∀ w < cfg.W, st.pc w ≠ .chosen s (!st.use2 s)
    | _ => True
  | _ => True

/-! ## Counting the cores at a table

The count of a table is compared with the number of cores that are inside of it, a number that only
the model has.
-/

/-- Writing one count leaves the others alone. -/
theorem setCount_of_ne {st : State} {s s' : ℕ} {b b' : Bool} {n : UInt32}
    (h : ¬ (s' = s ∧ b' = b)) : (st.setCount s b n).refCount s' b' = st.refCount s' b' := by
  simp only [State.setCount]
  by_cases hs : s' = s
  · subst hs
    rw [Function.update_self, Function.update_of_ne fun hb => h ⟨rfl, hb⟩]
  · rw [Function.update_of_ne hs]

/-- A core is inside of one table at a time. -/
theorem inside_inj {s s' : ℕ} {b b' : Bool} (h : Pc.inside s b = .inside s' b') :
    s' = s ∧ b' = b := by
  obtain ⟨rfl, rfl⟩ := Pc.inside.inj h
  exact ⟨rfl, rfl⟩

/-- The cores between the increment and the decrement of a count. -/
def holders (cfg : Cfg) (st : State) (s : ℕ) (b : Bool) : Finset ℕ :=
  (Finset.range cfg.W).filter fun w => st.pc w = .inside s b

variable {cfg : Cfg} {st : State} {w s : ℕ} {b : Bool}

/-- There are no more cores inside than there are cores. -/
theorem holders_le : (holders cfg st s b).card ≤ cfg.W := by
  have h := Finset.card_filter_le (Finset.range cfg.W) fun w => st.pc w = .inside s b
  rwa [Finset.card_range] at h

/-- Nobody is inside if no core is. -/
theorem holders_eq_empty : (holders cfg st s b).card = 0 ↔ ∀ w < cfg.W, st.pc w ≠ .inside s b := by
  simp [holders, Finset.filter_eq_empty_iff]

/-- A core that goes elsewhere from elsewhere. -/
theorem holders_same {st' : State} {l : Pc} (hpc : st'.pc = Function.update st.pc w l)
    (hold : st.pc w ≠ .inside s b) (hnew : l ≠ .inside s b) :
    holders cfg st' s b = holders cfg st s b := by
  ext v
  simp only [holders, hpc, Finset.mem_filter]
  by_cases hv : v = w
  · subst hv
    simp [hold, hnew]
  · rw [Function.update_of_ne hv]

/-- A core that arrives at the table. -/
theorem holders_arrive {st' : State} (hw : w < cfg.W)
    (hpc : st'.pc = Function.update st.pc w (.inside s b)) (hold : st.pc w ≠ .inside s b) :
    (holders cfg st' s b).card = (holders cfg st s b).card + 1 := by
  have hset : holders cfg st' s b = insert w (holders cfg st s b) := by
    ext v
    simp only [holders, hpc, Finset.mem_filter, Finset.mem_insert, Finset.mem_range]
    by_cases hv : v = w
    · subst hv
      simp [hw]
    · simp [hv]
  rw [hset, Finset.card_insert_of_notMem]
  simp [holders, hold]

/-- A core that leaves the table. -/
theorem holders_leave {st' : State} {l : Pc} (hw : w < cfg.W)
    (hpc : st'.pc = Function.update st.pc w l) (hold : st.pc w = .inside s b)
    (hnew : l ≠ .inside s b) :
    (holders cfg st s b).card = (holders cfg st' s b).card + 1 := by
  have hset : holders cfg st s b = insert w (holders cfg st' s b) := by
    ext v
    simp only [holders, hpc, Finset.mem_filter, Finset.mem_insert, Finset.mem_range]
    by_cases hv : v = w
    · subst hv
      simp [hw, hold]
    · simp [hv]
  rw [hset, Finset.card_insert_of_notMem]
  simp [holders, hpc, hnew]

/-! ## The invariant

The counts are right, and while the controller is past its wait, nobody is inside of the table that
it works on.
-/

/-- The controller has passed its wait for shard `s` in `order_shards`, and not
yet ended the epoch. -/
def Ctrl.Passed (cfg : Cfg) (s : ℕ) : Ctrl → Prop
  | waitOrder s' => s < s'
  | ordering s' => s ≤ s'
  | waitClear _ => s < cfg.totalShards
  | clearing s' => s < cfg.totalShards ∨ s = s'
  | _ => False

/-- The counts count, and nobody is at or on its way to a table the controller has
waited for. -/
structure Guarded (cfg : Cfg) (st : State) : Prop where
  /-- the counts -/
  count : ∀ s b, (st.refCount s b).toNat = (holders cfg st s b).card
  /-- the tables the controller has waited for -/
  passed : ∀ s, st.ctrl.Passed cfg s → ∀ w < cfg.W,
    st.pc w ≠ .chosen s (!st.use2 s) ∧ st.pc w ≠ .inside s (!st.use2 s)

namespace Guarded

/-- At the start nobody is inside, and no table has been counted. -/
theorem init (cfg : Cfg) : Guarded cfg start where
  count s b := by
    refine (holders_eq_empty.mpr fun w _ h => ?_).symm
    cases h
  passed _ h := by cases h

/-- **While the invariant holds**, the controller and the cores are at different tables. -/
theorem excluded (h : Guarded cfg st) : Excluded cfg st := by
  simp only [Excluded]
  split
  · next s hc => exact fun w hw => (h.passed s (by rw [hc]; exact Nat.le_refl s) w hw).2
  · next s hc => exact fun w hw => (h.passed s (by rw [hc]; exact Or.inr rfl) w hw).2
  · trivial

/-- The controller goes on, with no wait ended for another shard. -/
theorem goOn (h : Guarded cfg st) {c : Ctrl}
    (hc : ∀ s, c.Passed cfg s → st.ctrl.Passed cfg s) : Guarded cfg { st with ctrl := c } where
  count := h.count
  passed s hs := h.passed s (hc s hs)

/-- **The wait of `order_shards`.** -/
theorem endWait (h : Guarded cfg st) (hc : st.ctrl = .waitOrder s)
    (hzero : st.refCount s (!st.use2 s) = 0)
    (hno : ∀ w < cfg.W, st.pc w ≠ .chosen s (!st.use2 s)) :
    Guarded cfg { st with ctrl := .ordering s } where
  count := h.count
  passed s' hs' w hw := by
    rcases Nat.lt_or_eq_of_le hs' with hs' | rfl
    · exact h.passed s' (by rw [hc]; exact hs') w hw
    · have hempty : (holders cfg st s' (!st.use2 s')).card = 0 := by
        rw [← h.count, hzero]
        rfl
      exact ⟨hno w hw, holders_eq_empty.mp hempty w hw⟩

/-- A careful step of the controller keeps the invariant. -/
theorem control (h : Guarded cfg st) (hcareful : Careful cfg st .ctrl) :
    Guarded cfg (control cfg st) := by
  unfold Careful at hcareful
  simp only [RefCount.control]
  cases hc : st.ctrl with
  | idle => exact h.goOn fun _ hs => hs.elim
  | swapping s =>
    dsimp only
    split
    · exact ⟨h.count, fun _ hs => hs.elim⟩
    · exact h.goOn fun _ hs => hs.elim
  -- nothing has been waited for yet: the obligation is void
  | solving => exact h.goOn fun s hs => absurd hs (Nat.not_lt_zero s)
  | waitOrder s =>
    dsimp only
    split
    · next hlt =>
      split
      · next hzero =>
        -- the only step that takes on an obligation: table `s` joins those waited for
        rw [hc] at hcareful
        exact h.endWait hc hzero (hcareful hlt hzero)
      · exact h
    · next hge =>
      refine h.goOn fun s' hs' => ?_
      rw [hc]
      exact Nat.lt_of_lt_of_le hs' (Nat.le_of_not_lt hge)
  | ordering s =>
    refine h.goOn fun s' hs' => ?_
    rw [hc]
    exact Nat.le_of_lt_succ hs'
  | waitClear s =>
    dsimp only
    split
    · next hlt =>
      split
      · refine h.goOn fun s' hs' => ?_
        rw [hc]
        -- `clear_flows` waits again, but the tables stay waited for since `order_shards`
        rcases hs' with hs' | rfl
        · exact hs'
        · exact hlt
      · exact h
    · exact h.goOn fun _ hs => hs.elim
  | clearing s =>
    refine h.goOn fun s' hs' => ?_
    rw [hc]
    exact Or.inl hs'

/-- A core that goes to `l` is not at a table the controller has waited for, if `l` is
not. -/
theorem passed_goto (h : Guarded cfg st) {l : Pc}
    (hl : ∀ s, st.ctrl.Passed cfg s → w < cfg.W →
      l ≠ .chosen s (!st.use2 s) ∧ l ≠ .inside s (!st.use2 s)) :
    ∀ s, st.ctrl.Passed cfg s → ∀ v < cfg.W, Function.update st.pc w l v ≠ .chosen s (!st.use2 s) ∧
      Function.update st.pc w l v ≠ .inside s (!st.use2 s) := by
  intro s hs v hv
  by_cases hvw : v = w
  · subst hvw
    rw [Function.update_self]
    exact hl s hs hv
  · rw [Function.update_of_ne hvw]
    exact h.passed s hs v hv

/-- A core that reads the selector chooses the table the controller is not at. -/
theorem choose (h : Guarded cfg st) (hidle : st.pc w = .idle) (s : ℕ) :
    Guarded cfg (st.goto w (.chosen s (st.use2 s))) where
  count s' b := by
    rw [@holders_same _ st w _ _ _ (.chosen s (st.use2 s)) rfl
      (by rw [hidle]; exact Pc.noConfusion) Pc.noConfusion]
    exact h.count s' b
  passed := by
    refine h.passed_goto fun s' _ _ => ⟨fun heq => ?_, Pc.noConfusion⟩
    obtain ⟨rfl, hb⟩ := Pc.chosen.inj heq
    exact Bool.not_ne_self _ hb.symm

/-- A core that arrives at the table it has chosen. -/
theorem arrive (h : Guarded cfg st) (hw : w < cfg.W) (hpc : st.pc w = .chosen s b) :
    Guarded cfg ((st.setCount s b (st.refCount s b + 1)).goto w (.inside s b)) := by
  have hnot : ∀ s' b', st.pc w ≠ .inside s' b' := by
    intro s' b'
    rw [hpc]
    exact Pc.noConfusion
  refine ⟨fun s' b' => ?_, h.passed_goto fun s' hs' hv => ?_⟩
  · by_cases hsb : s' = s ∧ b' = b
    · obtain ⟨rfl, rfl⟩ := hsb
      -- there are fewer cores than the count can hold
      rw [@holders_arrive _ st _ _ _ _ hw rfl (hnot s' b'), ← h.count]
      have hle := h.count s' b' ▸ @holders_le cfg st s' b'
      have hW := cfg.cores_le
      simp only [State.goto, State.setCount, Function.update_self]
      rw [UInt32.toNat_add, UInt32.toNat_one, Nat.mod_eq_of_lt (by omega)]
    · rw [@holders_same _ st w _ _ _ (.inside s b) rfl (hnot s' b')
        (fun heq => hsb (inside_inj heq)), ← h.count]
      exact congrArg _ (setCount_of_ne hsb)
  · refine ⟨Pc.noConfusion, fun heq => (h.passed s' hs' w hv).1 ?_⟩
    rw [hpc]
    obtain ⟨rfl, rfl⟩ := Pc.inside.inj heq
    rfl

/-- A core that leaves it. -/
theorem leave (h : Guarded cfg st) (hw : w < cfg.W) (hpc : st.pc w = .inside s b) :
    Guarded cfg ((st.setCount s b (st.refCount s b - 1)).goto w .idle) := by
  refine ⟨fun s' b' => ?_, h.passed_goto fun _ _ _ => ⟨Pc.noConfusion, Pc.noConfusion⟩⟩
  by_cases hsb : s' = s ∧ b' = b
  · obtain ⟨rfl, rfl⟩ := hsb
    have hleave := @holders_leave cfg st w s' b'
      ((st.setCount s' b' (st.refCount s' b' - 1)).goto w .idle) .idle hw rfl hpc
      Pc.noConfusion
    have hcount := h.count s' b'
    simp only [State.goto, State.setCount, Function.update_self] at hleave ⊢
    rw [UInt32.toNat_sub_of_le _ _ (by rw [UInt32.le_iff_toNat_le, UInt32.toNat_one]; omega),
      UInt32.toNat_one]
    omega
  · rw [@holders_same _ st w _ _ _ .idle rfl
      (fun heq => hsb (by rw [hpc] at heq; exact inside_inj heq)) Pc.noConfusion, ← h.count]
    exact congrArg _ (setCount_of_ne hsb)

/-- A step of a core keeps the invariant: the count goes up when it comes in and down when it
leaves. -/
theorem go (h : Guarded cfg st) (hw : w < cfg.W) : Guarded cfg (go w st) := by
  simp only [RefCount.go]
  cases hpc : st.pc w with
  | idle => exact h
  | chosen s b => exact h.arrive hw hpc
  | inside s b => exact h.leave hw hpc

/-- **Every careful step keeps the tables guarded.** -/
theorem step (h : Guarded cfg st) {a : Act} (hp : Possible cfg st a) (hc : Careful cfg st a) :
    Guarded cfg (step cfg st a) := by
  cases a with
  | ctrl => exact h.control hc
  | choose w s => exact h.choose hp.2.2 s
  | go w => exact h.go hp.1

end Guarded

/-! ## Runs -/

/-- **Mutual exclusion on the flow tables.** In every run from the state
`init_shards` builds whose steps are careful, no core is at the table the
controller iterates over or clears. -/
theorem excluded_of_careful {acts : List Act}
    (hC : Along (step cfg) (fun st a => Possible cfg st a ∧ Careful cfg st a) start acts) :
    Excluded cfg (runFrom (step cfg) start acts) :=
  (hC.inv (I := Guarded cfg) (fun _ _ h ha => h.step ha.1 ha.2) (.init cfg)).excluded

instance : Decidable (Excluded cfg st) :=
  match h : st.ctrl with
  | .ordering s | .clearing s =>
    decidable_of_iff (∀ w < cfg.W, st.pc w ≠ .inside s (!st.use2 s)) (by simp only [Excluded, h])
  | .idle | .swapping _ | .solving | .waitOrder _ | .waitClear _ =>
    isTrue (by simp only [Excluded, h])

instance (st : State) : DecidablePred (Possible cfg st)
  | .ctrl => isTrue trivial
  | .choose _ _ => inferInstanceAs (Decidable (_ ∧ _ ∧ _))
  | .go _ => inferInstanceAs (Decidable (_ ∧ _))

instance (st : State) : DecidablePred (Careful cfg st)
  | .ctrl =>
    match h : st.ctrl with
    | .waitOrder s =>
      decidable_of_iff (s < cfg.totalShards → st.refCount s (!st.use2 s) = 0 →
        ∀ w < cfg.W, st.pc w ≠ .chosen s (!st.use2 s)) (by simp only [Careful, h])
    | .idle | .swapping _ | .solving | .ordering _ | .waitClear _ | .clearing _ =>
      isTrue (by simp only [Careful, h])
  | .choose _ _ => isTrue trivial
  | .go _ => isTrue trivial

/-! ## Uninterrupted lookups and epochs -/

/-- An uninterrupted lookup leaves the selectors and the counts as they were. -/
theorem lookup_uninterrupted (hidle : st.pc w = .idle) (s : ℕ) :
    runFrom (step cfg) st [.choose w s, .go w, .go w] = st := by
  have hcount : ∀ n : UInt32, n + 1 - 1 = n := fun n => by simp
  simp [runFrom, step, go, State.goto, State.setCount, hcount, ← hidle]

/-- The loop that flips the selectors. -/
theorem swap_uninterrupted : GoesTo (step cfg) .ctrl
    { st with use2 := fun s => if s < 0 then !st.use2 s else st.use2 s, ctrl := .swapping 0 }
    { st with
      use2 := fun s => if s < cfg.totalShards then !st.use2 s else st.use2 s
      ctrl := .swapping cfg.totalShards } :=
  GoesTo.loop (step cfg) .ctrl (n := cfg.totalShards) (f := fun i =>
    { st with use2 := fun s => if s < i then !st.use2 s else st.use2 s, ctrl := .swapping i })
    fun i hi => by
      refine .one ?_
      simp only [step, control, if_pos hi]
      congr 1
      funext s
      by_cases hs : s = i
      · subst hs
        simp
      · have hlt : s < i + 1 ↔ s < i := by omega
        simp [hs, hlt]

/-- The two waits of every shard end at once if all counts are 0. -/
theorem waits_uninterrupted (hzero : ∀ s b, st.refCount s b = 0) :
    GoesTo (step cfg) .ctrl { st with ctrl := .waitOrder 0 }
        { st with ctrl := .waitOrder cfg.totalShards } ∧
      GoesTo (step cfg) .ctrl { st with ctrl := .waitClear 0 }
        { st with ctrl := .waitClear cfg.totalShards } := by
  refine ⟨GoesTo.loop (step cfg) .ctrl (f := fun i => { st with ctrl := .waitOrder i })
    fun i hi => ?_, GoesTo.loop (step cfg) .ctrl (f := fun i => { st with ctrl := .waitClear i })
    fun i hi => ?_⟩
  · have hwait : step cfg { st with ctrl := .waitOrder i } .ctrl =
        { st with ctrl := .ordering i } := by
      simp [step, control, hi, hzero]
    exact .head hwait (.one rfl)
  · have hwait : step cfg { st with ctrl := .waitClear i } .ctrl =
        { st with ctrl := .clearing i } := by
      simp [step, control, hi, hzero]
    exact .head hwait (.one rfl)

/-- **An uninterrupted epoch flips the selectors**, as `swap_shards` of the atomic
model does, and finds every count 0. -/
theorem epoch_uninterrupted {D : Type} {σ : Sys D} (huse : ∀ s, st.use2 s = (σ.shards s).use2)
    (hidle : st.ctrl = .idle) (hzero : ∀ s b, st.refCount s b = 0) :
    GoesTo (step cfg) .ctrl st
      { st with use2 := fun s => ((Controller.swapShards cfg σ).shards s).use2 } := by
  have hflip : (fun s => ((Controller.swapShards cfg σ).shards s).use2) =
      fun s => if s < cfg.totalShards then !st.use2 s else st.use2 s := by
    funext s
    have hloop := congrFun (forRange_update cfg.totalShards (fun _ (sh : ShardInfo D) => { sh with
      use2 := !sh.use2
      oldBytes := sh.bytes
      oldPackets := sh.packets
      bytes := 0
      packets := 0 }) σ.shards) s
    refine (congrArg ShardInfo.use2 hloop).trans ?_
    rw [huse]
    split <;> rfl
  rw [hflip]
  -- the places of the controller once the selectors are flipped
  let flipped : Ctrl → State := fun c => { st with
    use2 := fun s => if s < cfg.totalShards then !st.use2 s else st.use2 s, ctrl := c }
  obtain ⟨horder, hclear⟩ := @waits_uninterrupted cfg (flipped .idle) hzero
  have hbegin : step cfg st .ctrl = { st with
      use2 := fun s => if s < 0 then !st.use2 s else st.use2 s, ctrl := .swapping 0 } := by
    simp [step, control, hidle]
  have hend : ∀ c c', step cfg (flipped c) .ctrl = flipped c' →
      GoesTo (step cfg) .ctrl (flipped c) (flipped c') := fun _ _ h => .one h
  have hidle' : flipped .idle = { st with
      use2 := fun s => if s < cfg.totalShards then !st.use2 s else st.use2 s } := by
    rw [← hidle]
  rw [← hidle']
  refine .head hbegin (swap_uninterrupted.trans ?_)
  refine (hend (.swapping cfg.totalShards) .solving (by simp [step, control, flipped])).trans ?_
  refine (hend .solving (.waitOrder 0) rfl).trans (horder.trans ?_)
  refine (hend _ (.waitClear 0) (by simp [step, control, flipped])).trans (hclear.trans ?_)
  exact hend _ .idle (by simp [step, control, flipped])

/-! ## What goes wrong -/

/-- Core 0 chooses `flows3` of shard 0 just before the controller flips the
selectors of both shards, and raises the count when the controller has found it 0. -/
def lateRun : List Act :=
  [.choose 0 0, .ctrl, .ctrl, .ctrl, .ctrl, .ctrl, .ctrl, .go 0]

/-- If the swap comes between reading `use_2` and counting up, the core is in the table that is
cleared. -/
theorem lateRun_notExcluded :
    Along (step (Small.router 0)) (Possible (Small.router 0)) start lateRun ∧
      ¬ Excluded (Small.router 0) (runFrom (step (Small.router 0)) start lateRun) := by
  decide +kernel

/-- Core 0 raises the count in time; the controller finds it 1, then 0. -/
def timelyRun : List Act :=
  [.choose 0 0, .ctrl, .ctrl, .go 0, .ctrl, .ctrl, .ctrl, .ctrl, .go 0, .ctrl]

/-- A swap that waits for the count finds nobody. -/
theorem timelyRun_excluded :
    Excluded (Small.router 0) (runFrom (step (Small.router 0)) start timelyRun) :=
  excluded_of_careful (by decide +kernel)

end RefCount

end Fajita
