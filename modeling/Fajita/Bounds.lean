import Fajita.Accesses
import Fajita.LoadBound
import Fajita.Placement
import Mathlib.Algebra.Order.Ring.Abs

/-!
# Indices that can be "none"

`UINT32_MAX` stands for "no offloading core" and for "no new owner", and not every place that uses
such a field as an index tests it first. `Bounded` is the invariant that makes the others safe:
`transfer_r` indexes by `offloading_idx` only when packets wait in `q`, and without offloading
cores none ever do, because the solver asks for no share, no flow is below a share of 0, and so
nothing is put in `q`.

The loops that release shards test `owner_new` and read it again. What the test has found out
is a note of the thread (`Part`), and it is true at the second read as long as no other core
acquires the shard in between (`NotTaken`). `inBounds_of_notTaken` is the result for all runs
that meet this, and `race_outside` a run that does not.
-/

namespace Fajita

/-! ## Arithmetic

Of the numbers the bounds need very little: that sums of shares are not negative, and that nothing
which is not negative is below 0. The rational numbers have it.
-/

/-- What is needed of the arithmetic: shares and their sums are not negative, and nothing of this
kind is below 0. -/
class Signed (D : Type) [Double D] : Prop where
  /-- 0 is not negative -/
  zero_nonneg : (0 : D) ≤ 0
  /-- a sum is not negative -/
  add_nonneg : ∀ {a b : D}, 0 ≤ a → 0 ≤ b → 0 ≤ a + b
  /-- a share is not negative -/
  share_nonneg : ∀ (m : ℕ) {n : ℕ}, n ≠ 0 → 0 ≤ (m / n : D)
  /-- no share is less than 0 -/
  not_lessThan : ∀ {a : D}, 0 ≤ a → isLessThan a 0 = false
  /-- 0 is equal to 0 -/
  equalThan : isEqualThan (0 : D) 0 = true

/-- The tolerance of a comparison is not negative. -/
theorem tolerance_nonneg (a b : ℚ) : 0 ≤ tolerance a b := by
  simp only [tolerance]
  refine mul_nonneg ?_ (by decide +kernel)
  split
  · exact abs_nonneg b
  · exact abs_nonneg a

instance : Signed ℚ where
  zero_nonneg := le_refl 0
  add_nonneg := add_nonneg
  share_nonneg m n _ := by positivity
  not_lessThan {a} ha := by
    have htol := tolerance_nonneg a 0
    refine decide_eq_false (not_lt.mpr ?_)
    linarith
  equalThan := by decide +kernel

variable {D : Type} [Double D]

namespace Accesses

open Prog

/-! ## The invariant

What the indices are computed from is kept in range at all times, also in the middle of a routine:
owners are working cores, new owners too or the mark for none, and without offloading cores every
ratio is 0.
-/

/-- The shares of a flow are not negative. -/
structure NonNeg (st : DyssectState D) : Prop where
  /-- `cdf` -/
  cdf : 0 ≤ st.cdf
  /-- `prob` -/
  prob : 0 ≤ st.prob
  /-- `prob2` -/
  prob2 : 0 ≤ st.prob2

/-- The shares in a table are not negative. -/
def Shares (table : FlowKey → Option (DyssectState D)) : Prop :=
  ∀ k, ∀ st ∈ table k, NonNeg st

/-- What holds of every shard. -/
structure ShardBounded (cfg : Cfg) (sh : ShardInfo D) : Prop where
  /-- a working core owns it -/
  owner : sh.owner < cfg.W
  /-- it moves to a working core, or to none -/
  ownerNew : sh.ownerNew < cfg.W ∨ sh.ownerNew = uint32Max
  /-- the shares of its flows are not negative -/
  shares : Shares sh.table
  /-- without offloading cores nothing of it is offloaded -/
  ratio : cfg.E = 0 → sh.r = 0 ∧ sh.rNew = 0

/-- What holds of working core `w`. -/
structure WorkerBounded (cfg : Cfg) (w : ℕ) (me : Worker) : Prop where
  /-- it has an offloading core, if there is one -/
  offloadingIdx : me.offloadingIdx < cfg.E ∨ cfg.E = 0 ∧ me.offloadingIdx = uint32Max
  /-- without offloading cores its rings never change roles -/
  home : cfg.E = 0 → me.q = .queue w ∧ me.myring = .ring w

/-- The entries of a relation are where working and offloading cores are. -/
def Related (cfg : Cfg) (O : ℕ → ℕ → ℕ) : Prop :=
  ∀ e < cfg.totalCores, ∀ w < cfg.totalCores, O e w = 1 → e < cfg.E ∧ w < cfg.W

/-- What holds of the router at all times. -/
structure Bounded (cfg : Cfg) (σ : Sys D) : Prop where
  /-- the shards -/
  shards : ∀ s, ShardBounded cfg (σ.shards s)
  /-- the working cores -/
  worker : ∀ w < cfg.W, WorkerBounded cfg w (σ.worker w)
  /-- shards are assigned to working cores -/
  newA : ∀ s < cfg.totalShards, ∀ w < cfg.totalCores, σ.newA s w = 1 → w < cfg.W
  /-- the relation in force -/
  O : Related cfg σ.O
  /-- the relation that is asked for -/
  newO : Related cfg σ.newO
  /-- a working core is asked to change to an offloading core, or to none -/
  newOffloading : ∀ w < cfg.W, σ.newOffloadingFromWorking w < cfg.E ∨
    σ.newOffloadingFromWorking w = uint32Max
  /-- without offloading cores the rings towards them stay empty -/
  quiet : cfg.E = 0 → ∀ w, (σ.ring (.queue w)).items = []

/-- What the threads of the router agree on; a note `s` says that shard `s` is on its way. -/
def rules (D : Type) [Double D] (cfg : Cfg) : Rules (Sys D) ℕ Arr where
  inv := Bounded cfg
  knows s σ := (σ.shards s).ownerNew ≠ uint32Max
  size := cfg.size

variable {cfg : Cfg} {σ : Sys D} {sh : ShardInfo D} {w : ℕ}

/-! ## Writes

What the program writes, it writes to one shard, to one core or to a flag at a time; these lemmas
say that such a write keeps the bounds if it keeps those of what is written.
-/

/-- What a packet leaves of a shard. -/
theorem ShardBounded.of_settings {sh' : ShardInfo D} (h : ShardBounded cfg sh)
    (hsettings : sh'.settings = sh.settings) (hshares : Shares sh'.table) :
    ShardBounded cfg sh' := by
  obtain ⟨hr, hrNew, -, howner, hownerNew, -⟩ := Settings.mk.inj hsettings
  refine ⟨?_, ?_, hshares, ?_⟩
  · rw [howner]
    exact h.owner
  · rw [hownerNew]
    exact h.ownerNew
  · rw [hr, hrNew]
    exact h.ratio

/-- A write to a shard that keeps its bounds keeps those of all. -/
theorem ShardBounded.update {shards : ℕ → ShardInfo D} (h : ∀ s, ShardBounded cfg (shards s))
    {s : ℕ} {sh : ShardInfo D} (hsh : ShardBounded cfg sh) (s' : ℕ) :
    ShardBounded cfg (Function.update shards s sh s') := by
  rcases eq_or_ne s' s with rfl | hs
  · rw [Function.update_self]
    exact hsh
  · rw [Function.update_of_ne hs]
    exact h s'

/-- A loop over the shards. -/
theorem ShardBounded.loop {h : ℕ → ShardInfo D → ShardInfo D}
    {n : ℕ} (hh : ∀ i < n, ∀ sh, ShardBounded cfg sh → ShardBounded cfg (h i sh))
    {shards : ℕ → ShardInfo D} (hshards : ∀ s, ShardBounded cfg (shards s)) (s : ℕ) :
    ShardBounded cfg (forRange n (fun i t => Function.update t i (h i (t i))) shards s) :=
  forRange_inv (P := fun t : ℕ → ShardInfo D => ∀ s, ShardBounded cfg (t s)) hshards
    (fun i hi _ ht => ShardBounded.update ht (hh i hi _ (ht i))) s

namespace Bounded

/-- The bounds of the shards are apart from the others. -/
theorem withShards (h : Bounded cfg σ) {shards : ℕ → ShardInfo D}
    (hshards : ∀ s, ShardBounded cfg (shards s)) : Bounded cfg { σ with shards := shards } :=
  { h with shards := hshards }

/-- A write to a core that keeps its bounds. -/
theorem setWorker (h : Bounded cfg σ) {f : Worker → Worker}
    (hf : WorkerBounded cfg w (σ.worker w) → WorkerBounded cfg w (f (σ.worker w))) :
    Bounded cfg (σ.setWorker w f) := by
  refine { h with worker := fun w' hw' => ?_ }
  rcases eq_or_ne w' w with rfl | hw
  · simp only [Sys.setWorker, Function.update_self]
    exact hf (h.worker _ hw')
  · simp only [Sys.setWorker, Function.update_of_ne hw]
    exact h.worker w' hw'

/-- Something is written to the ring that the core keeps for itself. -/
theorem setMyring (h : Bounded cfg σ) (hw : w < cfg.W) (Q : Fifo Packet) :
    Bounded cfg { σ with ring := Function.update σ.ring (σ.worker w).myring Q } := by
  refine { h with quiet := fun hE v => ?_ }
  have hne : RingId.queue v ≠ (σ.worker w).myring := by
    rw [((h.worker w hw).home hE).2]
    exact RingId.noConfusion
  simp only [Function.update_of_ne hne]
  exact h.quiet hE v

/-- A working core is asked to change to offloading core `e`, or to none. -/
theorem setNewOffloading (h : Bounded cfg σ) (w : ℕ) {e : ℕ} (he : e < cfg.E ∨ e = uint32Max) :
    Bounded cfg { σ with
      newOffloadingFromWorking := Function.update σ.newOffloadingFromWorking w e } := by
  refine { h with newOffloading := fun w' hw' => ?_ }
  rcases eq_or_ne w' w with rfl | hne
  · simp only [Function.update_self]
    exact he
  · simp only [Function.update_of_ne hne]
    exact h.newOffloading w' hw'

/-- Without offloading cores `q` is empty. -/
theorem q_empty (h : Bounded cfg σ) (hw : w < cfg.W) (hE : cfg.E = 0) :
    (σ.ring (σ.worker w).q).count = 0 := by
  rw [((h.worker w hw).home hE).1, Fifo.count_eq_zero]
  exact h.quiet hE w

end Bounded

/-! ## Shares -/

/-- A record that is written keeps the shares not negative. -/
theorem Shares.update {table : FlowKey → Option (DyssectState D)} (h : Shares table) {k : FlowKey}
    {o : Option (DyssectState D)} (ho : ∀ st ∈ o, NonNeg st) :
    Shares (Function.update table k o) := by
  intro k' st hst
  rcases eq_or_ne k' k with rfl | hk
  · rw [Function.update_self] at hst
    exact ho st hst
  · rw [Function.update_of_ne hk] at hst
    exact h k' st hst

section

variable [Signed D]

theorem touchFlow_shares (h : Shares sh.table) {st : DyssectState D} (hst : NonNeg st)
    (solver : Bool) (epoch : UInt32) (p : Packet) :
    Shares (sh.touchFlow solver epoch p st).table := by
  simp only [ShardInfo.touchFlow]
  split
  · refine h.update fun st' hst' => ?_
    obtain rfl := Option.some.inj hst'
    split
    · refine ⟨hst.cdf, ?_, hst.prob2⟩
      dsimp only
      split
      · next hold =>
        exact Signed.share_nonneg _ fun h0 => hold.1 (UInt32.toNat_inj.mp h0)
      · exact Signed.zero_nonneg
    · exact hst
  · exact h

/-- A lookup keeps the shares not negative. -/
theorem extractState_shares (h : Shares sh.table) (solver : Bool) (epoch : UInt32) (s : ℕ)
    (p : Packet) : Shares (sh.extractState solver epoch s p).table := by
  have hcount : ∀ sh : ShardInfo D, Shares sh.table → Shares (sh.countPacket solver p).table := by
    intro sh h
    refine h.update fun st hst => ?_
    obtain ⟨st', hst', rfl⟩ := Option.mem_map.mp hst
    have := h _ st' hst'
    exact ⟨this.cdf, this.prob, this.prob2⟩
  simp only [ShardInfo.extractState]
  split
  · next st hst => exact hcount _ (touchFlow_shares h (h _ st hst) solver epoch p)
  · refine hcount _ (h.update fun st hst => ?_)
    obtain rfl := Option.some.inj hst
    exact ⟨Signed.zero_nonneg, Signed.zero_nonneg, Signed.zero_nonneg⟩

/-- The sums of the shares are not negative. -/
theorem assignCdf_shares (ks : List FlowKey) :
    ∀ {accum : D} {table : FlowKey → Option (DyssectState D)}, 0 ≤ accum → Shares table →
      Shares (Controller.assignCdf accum ks table) := by
  induction ks with
  | nil => exact fun _ h => h
  | cons k ks ih =>
    intro accum table haccum h
    rw [Controller.assignCdf]
    split
    · exact ih haccum h
    · next st hst =>
      have hst := h k st hst
      have hsum := Signed.add_nonneg haccum hst.prob2
      refine ih hsum (h.update fun st' hst' => ?_)
      obtain rfl := Option.some.inj hst'
      exact ⟨hsum, hst.prob, hst.prob2⟩

theorem orderShard_shares (h : Shares sh.table) (vec : List FlowKey) :
    Shares (Controller.orderShard vec sh).table := by
  rw [Controller.orderShard_eq]
  refine assignCdf_shares vec Signed.zero_nonneg fun k st hst => ?_
  rw [Controller.copyProb] at hst
  split at hst
  · obtain ⟨st', hst', rfl⟩ := Option.mem_map.mp hst
    have := h k st' hst'
    exact ⟨this.cdf, this.prob, this.prob⟩
  · exact h k st hst

/-! ## Shards -/

/-- A lookup keeps the bounds of all shards. -/
theorem extractState_bounded {shards : ℕ → ShardInfo D} (h : ∀ s, ShardBounded cfg (shards s))
    (w : ℕ) (epoch : UInt32) (p : Packet) (s : ℕ) :
    ShardBounded cfg (extractState cfg w epoch p shards s) :=
  ShardBounded.update h ((h _).of_settings (ShardInfo.extractState_settings ..)
    (extractState_shares (h _).shares (cfg.workerSolver w) epoch (cfg.shardOf p) p)) s

/-- The lookups of a batch keep the bounds of all shards. -/
theorem extractAll_bounded (w : ℕ) (epoch : UInt32) (ps : List Packet) :
    ∀ {shards : ℕ → ShardInfo D}, (∀ s, ShardBounded cfg (shards s)) →
      ∀ s, ShardBounded cfg (extractAll cfg w epoch ps shards s) := by
  induction ps with
  | nil => exact fun h => h
  | cons p ps ih => exact fun h => ih (extractState_bounded h w epoch p)

/-- A flow whose share is not negative is not below a ratio of 0. -/
theorem isOffloaded_eq_false (h : ShardBounded cfg sh) (hE : cfg.E = 0) (k : FlowKey) :
    sh.isOffloaded k = false := by
  simp only [ShardInfo.isOffloaded]
  split
  · next st hst =>
    rw [(h.ratio hE).1, Signed.not_lessThan (h.shares k st hst).cdf, Bool.and_false]
  · rfl

/-- Classifying a batch keeps the bounds, and without offloading cores it offloads nothing. -/
theorem classify_bounded (w : ℕ) (epoch : UInt32) (ps : List Packet) :
    ∀ {shards : ℕ → ShardInfo D}, (∀ s, ShardBounded cfg (shards s)) →
      (∀ s, ShardBounded cfg ((classify cfg w epoch ps shards).1 s)) ∧
        (cfg.E = 0 → (classify cfg w epoch ps shards).2.2 = []) := by
  induction ps with
  | nil => exact fun h => ⟨h, fun _ => rfl⟩
  | cons p ps ih =>
    intro shards h
    have hp := extractState_bounded h w epoch p
    obtain ⟨hrest, hoff⟩ := ih hp
    simp only [classify]
    split
    · next hside =>
      refine ⟨hrest, fun hE => ?_⟩
      rw [isOffloaded_eq_false (hp _) hE] at hside
      cases hside
    · exact ⟨hrest, hoff⟩

end

/-! ## The routines that run at a time

The routines that touch nothing another thread depends on are taken in one go, so it is enough that
they keep the bounds.
-/

namespace Bounded

theorem myown (h : Bounded cfg σ) (b : Bool) :
    Bounded cfg (σ.setWorker w fun me => { me with myown := b }) :=
  h.setWorker fun hme => ⟨hme.offloadingIdx, hme.home⟩

theorem receiveAll (h : Bounded cfg σ) (hw : w < cfg.W) (drains : List ℕ) :
    Bounded cfg (WorkingCore.receiveAll cfg w drains σ) := by
  simp only [WorkingCore.receiveAll]
  generalize WorkingCore.rxDrain _ _ _ _ = l
  have hring := (h.setMyring hw l.mine).myown (w := w) l.myown
  exact { hring with }

theorem takeBack (h : Bounded cfg σ) (hw : w < cfg.W) :
    Bounded cfg (WorkingCore.takeBack cfg w σ) := by
  simp only [WorkingCore.takeBack]
  split
  · next hcount =>
    -- without offloading cores there is nothing to take back
    have hE : cfg.E ≠ 0 := fun hE => hcount (h.q_empty hw hE)
    have hmoved : Bounded cfg (σ.moveRing (cfg.burst w) (σ.worker w).q (σ.worker w).myring) :=
      { h with quiet := fun hE' => absurd hE' hE }
    exact hmoved.myown true
  · exact h

theorem serveChanges (h : Bounded cfg σ) (hw : w < cfg.W) :
    Bounded cfg (WorkingCore.serveChanges cfg w σ) := by
  let l := forRange cfg.totalShards (WorkingCore.takeLocal cfg w)
    ⟨σ.shards, σ.ring (σ.worker w).myring, (σ.worker w).myown, σ.lost⟩
  have hloop : ∀ s, ShardBounded cfg (l.shards s) := by
    refine forRange_inv (P := fun l : WorkingCore.ChangesLoop D =>
      ∀ s, ShardBounded cfg (l.shards s)) h.shards fun i _ l hl => ?_
    simp only [WorkingCore.takeLocal]
    split
    · exact ShardBounded.update hl ⟨(hl i).owner, (hl i).ownerNew, (hl i).shares, (hl i).ratio⟩
    · exact hl
  have hring := ((h.setMyring hw l.mine).withShards hloop).myown (w := w) l.myown
  exact { hring with }

theorem swapShards (h : Bounded cfg σ) : Bounded cfg (Controller.swapShards cfg σ) :=
  { h with
    shards := ShardBounded.loop (h := fun _ sh =>
        { sh with
          use2 := !sh.use2
          oldBytes := sh.bytes
          oldPackets := sh.packets
          bytes := 0
          packets := 0 })
      (fun _ _ _ hsh => ⟨hsh.owner, hsh.ownerNew, hsh.shares, hsh.ratio⟩) h.shards }

theorem volumeShards (h : Bounded cfg σ) : Bounded cfg (Controller.volumeShards cfg σ) := by
  have hloop : ∀ V : ShardInfo D → D, ∀ s, ShardBounded cfg (forRange cfg.totalShards
      (fun s shards => Function.update shards s { shards s with V := V (shards s) })
      σ.shards s) := fun V =>
    ShardBounded.loop (h := fun _ sh => { sh with V := V sh })
      (fun _ _ _ hsh => ⟨hsh.owner, hsh.ownerNew, hsh.shares, hsh.ratio⟩) h.shards
  simp only [Controller.volumeShards]
  split
  · exact h
  · split
    · exact { h with
        shards := hloop fun sh => (sh.oldPackets.toNat : D) * 1e-6 * 1e6 / (100000 : ℕ) }
    · exact { h with shards := hloop fun _ => 0 }

theorem clearFlows (h : Bounded cfg σ) : Bounded cfg (Controller.clearFlows cfg σ) := by
  refine { h with shards := ShardBounded.loop (h := fun _ sh => if sh.use2 then
    { sh with flows3 := [] } else { sh with flows3₂ := [] }) (fun _ _ sh hsh => ?_) h.shards }
  split <;> exact ⟨hsh.owner, hsh.ownerNew, hsh.shares, hsh.ratio⟩

/-- The answer of the solver. -/
theorem runShortSolver (h : Bounded cfg σ) {ans : Answer D} (hans : Placement cfg ans.A ans.O)
    (hr : cfg.E = 0 → ∀ s < cfg.totalShards, ans.r s = 0) :
    Bounded cfg (Controller.runShortSolver cfg ans σ) := by
  refine { h with shards := ?_, newA := ?_, newO := ?_ }
  · exact ShardBounded.loop (h := fun s sh => { sh with rNew := ans.r s }) (fun i hi _ hsh =>
      ⟨hsh.owner, hsh.ownerNew, hsh.shares, fun hE => ⟨(hsh.ratio hE).1, hr hE i hi⟩⟩) h.shards
  · intro s hs w hw hone
    obtain ⟨v, hv, hrow⟩ := hans.oneHot s hs
    by_contra hW
    have hzero := hrow w hw
    rw [if_neg (by omega)] at hzero
    exact absurd (hone.symm.trans hzero) one_ne_zero
  · intro e he w hw hone
    have hE : cfg.E ≠ 0 := fun hE => absurd (hone.symm.trans (hans.none hE e he w hw)) one_ne_zero
    have hwW : w < cfg.W := by
      by_contra hW
      exact absurd (hone.symm.trans (hans.rest hE w (by omega) hw e he)) one_ne_zero
    obtain ⟨e', he', hcol⟩ := hans.single hE w hwW
    by_contra hno
    have hzero := hcol e he
    rw [if_neg fun heq => hno ⟨lt_of_eq_of_lt heq he', hwW⟩] at hzero
    exact absurd (hone.symm.trans hzero) one_ne_zero

variable [Signed D]

theorem workOff (h : Bounded cfg σ) (hw : w < cfg.W) (accept : ℕ) :
    Bounded cfg (WorkingCore.workOff cfg w accept σ).1 := by
  let d := (σ.ring (σ.worker w).myring).dequeueBurst
    (min (σ.ring (σ.worker w).myring).count (cfg.burst w))
  have hring := (h.setMyring hw d.2).withShards (extractAll_bounded w σ.epoch d.1 h.shards)
  exact { hring with }

theorem forward (h : Bounded cfg σ) (w accept : ℕ) (batch : List Packet) :
    Bounded cfg (WorkingCore.forward cfg w accept batch σ).1 := by
  obtain ⟨hshards, hoff⟩ := classify_bounded w σ.epoch batch h.shards
  refine { h with shards := hshards, quiet := fun hE v => ?_ }
  have hq : ((WorkingCore.forward cfg w accept batch σ).1.ring (.queue v)).items =
      (Function.update σ.ring (σ.worker w).q ((σ.ring (σ.worker w).q).enqueueBurst
        (classify cfg w σ.epoch batch σ.shards).2.2) (.queue v)).items := rfl
  rw [hq, hoff hE, Fifo.enqueueBurst_nil, Function.update_eq_self]
  exact h.quiet hE v

theorem orderShards (h : Bounded cfg σ) (vec : ℕ → List FlowKey) :
    Bounded cfg (Controller.orderShards cfg vec σ) :=
  { h with
    shards := ShardBounded.loop (h := fun s => Controller.orderShard (vec s)) (fun i _ _ hsh =>
      ⟨hsh.owner, hsh.ownerNew, orderShard_shares hsh.shares (vec i), hsh.ratio⟩) h.shards }

end Bounded

/-! ## The working core

A part is *good* if it keeps the bounds and stays within the arrays whatever the other threads do in
between. The rules of `Rules.Good` put the parts together; what is left for each part is which index
it uses, and why there is such an element.
-/

section

variable {s : ℕ} {p : Part D Unit}

/-- A write to a shard that keeps its bounds is good at any time. -/
theorem good_setShard (s : ℕ) {f : ShardInfo D → ShardInfo D}
    (hf : ∀ sh, ShardBounded cfg sh → ShardBounded cfg (f sh)) :
    (rules D cfg).Good (setShard s f) :=
  Rules.Good.put fun _ h => h.withShards (ShardBounded.update h.shards (hf _ (h.shards s)))

theorem good_postRemove {e : ℕ} (he : e < cfg.E) (r : RingId) :
    (rules D cfg).Good (postRemove e r) :=
  Rules.Good.write he fun _ h => { h with }

theorem good_postAdd {e : ℕ} (he : e < cfg.E) (r : RingId) : (rules D cfg).Good (postAdd e r) :=
  Rules.Good.write he fun _ h => { h with }

/-- An offloading core that is not "none". -/
theorem WorkerBounded.lt {me : Worker} (h : WorkerBounded cfg w me)
    (hne : me.offloadingIdx ≠ uint32Max) : me.offloadingIdx < cfg.E :=
  h.offloadingIdx.resolve_right fun hnone => hne hnone.2

/-- `q` is withdrawn from an offloading core that there is. -/
theorem good_withdraw (hw : w < cfg.W) : (rules D cfg).Good (withdraw w) :=
  Rules.Safe.get fun _ h => Rules.Good.only fun hne => good_postRemove ((h.worker w hw).lt hne) _

theorem good_announce (hw : w < cfg.W) : (rules D cfg).Good (announce w) :=
  Rules.Safe.get fun _ h => Rules.Good.only fun hne => good_postAdd ((h.worker w hw).lt hne) _

/-- The rings change roles only where there are offloading cores. -/
theorem good_swapRings (hw : w < cfg.W) (hE : cfg.E ≠ 0) : (rules D cfg).Good (swapRings w) := by
  refine Rules.Safe.get fun σ h => ?_
  have hidx : (σ.worker w).offloadingIdx < cfg.E :=
    (h.worker w hw).offloadingIdx.resolve_right fun hnone => hE hnone.1
  have hrings : ∀ f : Worker → Worker, (∀ me, (f me).offloadingIdx = me.offloadingIdx) →
      (rules D cfg).Good (put fun σ => σ.setWorker w f) := by
    refine fun f hf => Rules.Good.put fun σ h => h.setWorker fun hme => ⟨?_, fun h0 => absurd h0 hE⟩
    rw [hf]
    exact hme.offloadingIdx
  refine (good_postRemove hidx _).andThen (Rules.Good.andThen (hrings _ fun _ => rfl) ?_)
  refine (Rules.Good.touch hw).andThen ?_
  refine Rules.Good.andThen (Rules.Good.put fun _ h => { h with }) ?_
  refine Rules.Good.andThen (hrings _ fun _ => rfl) ((Rules.Good.touch hw).andThen ?_)
  exact Rules.Good.andThen (Rules.Good.put fun _ h => { h with }) (good_postAdd hidx _)

/-- The loop of `transfer_r` stays within the shards. -/
theorem good_takeRatios (w : ℕ) : (rules D cfg).Good (takeRatios cfg w) := by
  refine Rules.Good.loop fun s _ => Rules.Safe.get fun _ _ => Rules.Good.only fun _ => ?_
  refine Rules.Safe.get fun σ h => good_setShard s fun sh hsh => ?_
  exact ⟨hsh.owner, hsh.ownerNew, hsh.shares,
    fun hE => ⟨((h.shards s).ratio hE).2, (hsh.ratio hE).2⟩⟩

theorem lt_totalCores (hw : w < cfg.W) : w < cfg.totalCores := Nat.lt_add_right _ hw

/-- `transfer_r` stays within its arrays. -/
theorem good_transferR (hw : w < cfg.W) : (rules D cfg).Good (transferR cfg w) := by
  refine Rules.Safe.get fun σ h => ?_
  refine (Rules.Good.only fun hcount => good_swapRings hw fun hE => ?_).andThen ?_
  · exact hcount (h.q_empty hw hE)
  · exact (good_takeRatios w).andThen (Rules.Good.write (lt_totalCores hw) fun _ h => { h with })

/-- **The second read**: what the test has found out is noted, so the value that is read is
one of a working core. -/
theorem good_tell (s : ℕ) : (rules D cfg).Good (tell s) := by
  intro σ h _
  by_cases hnew : (σ.shards s).ownerNew ≠ uint32Max
  · simp only [if_pos hnew, only]
    refine ⟨h, hnew, fun σ h hknown => ⟨?_, ?_, fun σ h hknown => ⟨h, trivial, ?_⟩⟩⟩
    · exact h.withShards (ShardBounded.update h.shards ⟨(h.shards s).owner, (h.shards s).ownerNew,
        (h.shards s).shares, (h.shards s).ratio⟩)
    · change ((clearPause s σ).shards s).ownerNew ≠ uint32Max
      simp only [clearPause, updateShard, Function.update_self]
      exact hknown
    · have hlt : (σ.shards s).ownerNew < cfg.W := (h.shards s).ownerNew.resolve_right hknown
      refine ⟨lt_totalCores hlt, fun _ h _ => ⟨{ h with }, trivial, rfl, trivial⟩⟩
  · simp only [if_neg hnew, only]
    exact ⟨h, trivial, rfl, trivial⟩

theorem good_releaseAll (w : ℕ) : (rules D cfg).Good (releaseAll cfg w) :=
  Rules.Good.loop fun s _ => Rules.Safe.get fun _ _ => Rules.Good.only fun _ => good_tell s

/-- `transfer_shard` stays within its arrays, if no new owner is taken away between its two reads.
-/
theorem good_transferShard (hw : w < cfg.W) (drains : List ℕ) :
    (rules D cfg).Good (transferShard cfg w drains) := by
  refine (good_withdraw hw).andThen ?_
  refine Rules.Good.andThen (Rules.Good.put fun _ h => h.receiveAll hw drains) ?_
  refine Rules.Good.andThen (Rules.Good.put fun _ h => h.takeBack hw) ?_
  refine (good_announce hw).andThen (Rules.Safe.get fun _ _ => ?_)
  refine Rules.Good.andThen (Rules.Good.only fun _ => good_releaseAll w) ?_
  exact Rules.Good.write (lt_totalCores hw) fun _ h => { h with }

theorem good_adopt (hw : w < cfg.W) : (rules D cfg).Good (adopt w) := by
  refine (Rules.Good.touch (lt_totalCores hw)).andThen (Rules.Safe.get fun σ h => ?_)
  refine Rules.Good.only fun hne => Rules.Safe.get fun _ _ => ?_
  have hidx : σ.newOffloadingFromWorking w < cfg.E := (h.newOffloading w hw).resolve_right hne
  refine (good_postAdd hidx _).andThen (Rules.Good.andThen (Rules.Good.put fun _ h => ?_) ?_)
  · exact h.setWorker fun hme => ⟨Or.inl hidx, hme.home⟩
  · exact Rules.Good.write (lt_totalCores hw) fun _ h => h.setNewOffloading w (Or.inr rfl)

/-- `transfer_offloading` stays within its arrays. -/
theorem good_transferOffloading (hw : w < cfg.W) :
    (rules D cfg).Good (transferOffloading cfg w) := by
  refine (good_withdraw hw).andThen ?_
  refine Rules.Good.andThen (Rules.Good.put fun _ h => h.takeBack hw) ((good_adopt hw).andThen ?_)
  exact Rules.Good.write (lt_totalCores hw) fun _ h => { h with }

/-- Serving a flag of a core that there is. -/
theorem good_serve {arr : Arr} (hw : w < cfg.size arr) (flag : Sys D → ℕ → Bool)
    (hp : (rules D cfg).Good p) : (rules D cfg).Good (serve arr flag w p) :=
  (Rules.Good.touch hw).andThen (Rules.Safe.get fun _ _ => Rules.Good.only fun _ => hp)

theorem good_signalBlock (hw : w < cfg.W) (drains : List ℕ) :
    (rules D cfg).Good (signalBlock cfg w drains) := by
  have hw' := lt_totalCores hw
  refine (good_serve hw' _ (good_transferR hw)).andThen ?_
  refine (good_serve hw' _ (good_transferOffloading hw)).andThen ?_
  refine (good_serve hw' _ (good_transferShard hw drains)).andThen ?_
  exact Rules.Good.write hw' fun _ h => { h with }

/-- The drained branch stays within its arrays, on the same condition as `transfer_shard`. -/
theorem good_drained (hw : w < cfg.W) : (rules D cfg).Good (drained cfg w) := by
  refine Rules.Good.andThen (Rules.Good.put fun _ h => h.myown false) ?_
  refine Rules.Good.loop fun s _ => ?_
  have hrelease : (rules D cfg).Good (drainedRelease w s) :=
    Rules.Safe.get fun _ _ => Rules.Good.only fun _ =>
      Rules.Safe.get fun _ _ => Rules.Good.only fun _ => good_tell s
  refine hrelease.andThen (Rules.Safe.get fun _ _ => Rules.Good.only fun _ => ?_)
  refine Rules.Safe.get fun _ _ => Rules.Good.only fun _ => ?_
  exact Rules.Good.andThen
    (good_setShard s fun _ hsh => ⟨hsh.owner, Or.inr rfl, hsh.shares, hsh.ratio⟩)
    (good_setShard s fun _ hsh => ⟨hw, hsh.ownerNew, hsh.shares, hsh.ratio⟩)

/-- **A task** keeps the bounds and stays within the arrays. -/
theorem good_work [Signed D] (hw : w < cfg.W) (inp : TaskInput) :
    (rules D cfg).Good (work cfg w inp) := by
  have hw' := lt_totalCores hw
  refine Rules.Safe.get fun σ _ => ?_
  split
  · refine Rules.Safe.get fun _ _ => ?_
    split
    · exact good_drained hw
    · exact Rules.Good.put fun _ h => h.workOff hw inp.accept
  · refine (good_serve hw' _ (good_signalBlock hw inp.drains)).andThen ?_
    have hchanges : (rules D cfg).Good (serveChanges cfg w) :=
      Rules.Good.write hw' fun _ h => h.serveChanges hw
    refine (good_serve hw' _ hchanges).andThen ?_
    exact Rules.Good.put fun _ h => h.forward w inp.accept _

/-! ## The controller -/

theorem good_ratioStep [Signed D] (s : ℕ) (changed : Bool) :
    (rules D cfg).Safe (fun _ => True) (ratioStep s changed) none := by
  refine Rules.Good.andThen (good_setShard s fun sh hsh => ?_) (Rules.Safe.get fun σ _ => ?_)
  · refine ⟨hsh.owner, hsh.ownerNew, hsh.shares, fun hE => ⟨(hsh.ratio hE).1, ?_⟩⟩
    -- nothing is snapped when nothing is asked for
    simp only [Controller.ratioNew]
    rw [(hsh.ratio hE).2, Signed.equalThan]
    rfl
  · split
    · refine Rules.Safe.get fun σ h => ?_
      refine (Rules.Good.touch (lt_totalCores (h.shards s).owner)).andThen ?_
      exact Rules.Good.andThen (Rules.Good.put fun _ h => { h with }) (Rules.safe_pure trivial)
    · exact Rules.safe_pure trivial

/-- The first test of an iteration of `update_relationship` stays within `O` and the arrays. -/
theorem good_relationGain (he : s < cfg.totalCores) (hw : w < cfg.totalCores) :
    (rules D cfg).Good (relationGain w s) := by
  refine Rules.Safe.get fun σ h => Rules.Good.only fun hasked => ?_
  obtain ⟨hs, -⟩ := h.newO s he w hw (of_decide_eq_true hasked).2
  refine (Rules.Good.touch hw).andThen (Rules.Safe.get fun _ _ => Rules.Good.only fun _ => ?_)
  refine (Rules.Good.touch hw).andThen (Rules.Good.andThen (Rules.Good.put fun _ h => ?_) ?_)
  · exact h.setNewOffloading w (Or.inl hs)
  · exact Rules.Good.write hw fun _ h => { h with }

theorem good_relationLose (he : s < cfg.totalCores) (hw : w < cfg.totalCores) :
    (rules D cfg).Good (relationLose w s) := by
  refine Rules.Safe.get fun σ h => Rules.Good.only fun hasked => ?_
  obtain ⟨hs, hwW⟩ := h.O s he w hw (of_decide_eq_true hasked).1
  exact (Rules.Good.touch hwW).andThen (Rules.Safe.get fun _ _ => good_postRemove hs _)

theorem good_updateRelationship :
    (rules D cfg).Safe (fun _ => True) (updateRelationship cfg) none := by
  refine Rules.Safe.get fun σ _ => ?_
  split
  · exact Rules.safe_pure trivial
  · refine Rules.Good.andThen (Rules.Good.loop fun w hw => Rules.Good.loop fun e he => ?_) ?_
    · exact (good_relationGain he hw).andThen (good_relationLose he hw)
    · refine Rules.Good.andThen (Rules.Good.put fun _ h => ?_) (Rules.safe_pure trivial)
      exact { h with O := h.newO }

/-- `migration_shard` stays within the flags of the cores. -/
theorem good_migrationShard (hw : w < cfg.W) (send : Bool) :
    (rules D cfg).Good (migrationShard s w send) := by
  refine Rules.Safe.get fun _ _ => Rules.Good.only fun _ => ?_
  split
  · exact Rules.Good.andThen
      (good_setShard s fun _ hsh => ⟨hsh.owner, Or.inl hw, hsh.shares, hsh.ratio⟩)
      (good_setShard s fun _ hsh => ⟨hsh.owner, hsh.ownerNew, hsh.shares, hsh.ratio⟩)
  · refine Rules.Safe.get fun σ h => ?_
    exact Rules.Good.write (lt_totalCores (h.shards s).owner) fun _ h => { h with }

theorem good_migrationPass (send : Bool) : (rules D cfg).Good (migrationPass cfg send) :=
  Rules.Good.loop fun s hs => Rules.Good.loop fun w hw => Rules.Safe.get fun _ h =>
    Rules.Good.only fun hnew =>
      good_migrationShard (h.newA s hs w hw (of_decide_eq_true hnew).1) send

theorem good_updateShards : (rules D cfg).Safe (fun _ => True) (updateShards cfg) none := by
  refine Rules.Safe.get fun σ _ => ?_
  split
  · exact Rules.safe_pure trivial
  · refine (good_migrationPass false).andThen ?_
    refine Rules.Good.andThen (Rules.Good.put fun _ h => { h with }) ?_
    refine (good_migrationPass true).andThen ?_
    exact Rules.Good.andThen (Rules.Good.put fun _ h => { h with }) (Rules.safe_pure trivial)

theorem good_sendSignals : (rules D cfg).Good (sendSignals cfg) :=
  Rules.Good.loop fun _ hi => Rules.Good.write (lt_totalCores hi) fun _ h => { h with }

/-- An answer that is a placement can be applied. -/
theorem good_applyAnswer [Signed D] {ans : Answer D} (hans : Placement cfg ans.A ans.O)
    (hr : cfg.E = 0 → ∀ s < cfg.totalShards, ans.r s = 0) :
    (rules D cfg).Good (applyAnswer cfg ans) := by
  have hratio : (rules D cfg).Safe (fun _ => True) (updateRatio cfg) none :=
    Rules.Safe.loopWith (fun s _ changed => good_ratioStep s changed) false
  refine Rules.Good.andThen (Rules.Good.put fun _ h => h.runShortSolver hans hr) ?_
  refine hratio.bind fun r _ => good_updateRelationship.bind fun o _ => ?_
  exact good_updateShards.bind fun a _ => Rules.Good.only fun _ => good_sendSignals

/-- **An epoch** keeps the bounds and stays within the arrays. -/
theorem good_epoch [Signed D] {ans : Option (Answer D)}
    (hans : ∀ a ∈ ans, Placement cfg a.A a.O ∧ (cfg.E = 0 → ∀ s < cfg.totalShards, a.r s = 0))
    (vec : ℕ → List FlowKey) : (rules D cfg).Good (epoch cfg ans vec) := by
  refine Rules.Good.andThen (Rules.Good.put fun _ h => h.swapShards.volumeShards) ?_
  have hend : (rules D cfg).Good (put fun σ => Controller.clearFlows cfg
      (Controller.orderShards cfg vec { σ with epoch := σ.epoch + 1 })) :=
    Rules.Good.put fun σ h =>
      (Bounded.orderShards (σ := { σ with epoch := σ.epoch + 1 }) { h with } vec).clearFlows
  cases ans with
  | none => exact hend
  | some a =>
    obtain ⟨hplaced, hr⟩ := hans a rfl
    exact Rules.Good.andThen (Rules.Good.only fun _ => good_applyAnswer hplaced hr) hend

/-! ## The threads

Every program keeps to these rules, and any interleaving of programs that do is within the arrays.
-/

/-- A task of an offloading core keeps the bounds and stays within the arrays. -/
theorem good_offload {e : ℕ} (he : e < cfg.E) (accept : ℕ) :
    (rules D cfg).Good (offload cfg e accept) := by
  refine (Rules.Good.touch he).andThen (Rules.Good.write he fun σ h => ?_)
  have hE : cfg.E ≠ 0 := Nat.ne_zero_of_lt he
  simp only [OffloadingCore.runTask, OffloadingCore.poll]
  split
  · exact { h with }
  · exact { h with quiet := fun h0 => absurd h0 hE }

end

/-- What the runs are about: the cores exist, and an answer of the solver satisfies the
constraints of `short_solver` on the assignment, the relation and the shares. -/
def Allowed (cfg : Cfg) : Act D → Prop
  | .epoch (some ans) _ =>
    Solver.LinearA cfg.W cfg.totalCores cfg.totalShards ans.A ∧
      Solver.LinearO cfg.W cfg.E cfg.totalCores ans.O ∧
      (cfg.E = 0 → ∀ s < cfg.totalShards, ans.r s = 0)
  | .work w _ => w < cfg.W
  | .offload e _ => e < cfg.E
  | .arrive _ | .epoch none _ => True

/-- The constraints on the answer are some of those of `short_solver`. -/
theorem allowed_of_feasible {scale : UInt32} {q : Solver.Problem} {x : Solver.Point}
    (h : Solver.Feasible scale q x) (hW : q.W = cfg.W) (hE : q.E = cfg.E)
    (hshards : q.shards = cfg.totalShards) (vec : ℕ → List FlowKey) :
    Allowed cfg (.epoch (some ⟨x.r, x.A, x.O⟩) vec : Act ℚ) := by
  have hcores : q.cores = cfg.totalCores := congrArg₂ (· + ·) hW hE
  refine ⟨?_, ?_, ?_⟩
  · rw [← hW, ← hcores, ← hshards]
    exact h.linearA
  · rw [← hW, ← hE, ← hcores]
    exact h.linearO
  · rw [← hE, ← hshards]
    exact h.noRatio

/-- **Every thread** keeps the bounds and stays within the arrays. -/
theorem good_program [Signed D] {a : Act D} (ha : Allowed cfg a) :
    (rules D cfg).Good (program cfg a) := by
  cases a with
  | arrive p => exact Rules.Good.put fun _ h => { h with }
  | epoch ans vec =>
    refine good_epoch (fun a hmem => ?_) vec
    obtain rfl := Option.mem_def.mp hmem
    exact ⟨Placement.of_linear ha.1 ha.2.1, ha.2.2⟩
  | work w inp => exact good_work ha inp
  | offload e accept => exact good_offload ha accept

theorem offloading_init (hw : w < cfg.W) : Init.offloadingFromWorking cfg w < cfg.E ∨
    cfg.E = 0 ∧ Init.offloadingFromWorking cfg w = uint32Max := by
  rw [Init.offloadingFromWorking, if_pos hw]
  by_cases hE : cfg.E = 0
  · exact Or.inr ⟨hE, if_neg (not_not.mpr hE)⟩
  · rw [if_pos hE]
    exact Or.inl (Nat.mod_lt _ (Nat.pos_of_ne_zero hE))

theorem related_init (cfg : Cfg) : Related cfg (Init.O cfg) := by
  intro e _ w _ hone
  unfold Init.O at hone
  split at hone
  · next h =>
    obtain ⟨hE, hw, rfl⟩ := h
    exact ⟨Nat.mod_lt _ (Nat.pos_of_ne_zero hE), hw⟩
  · cases hone

/-- The bounds hold at first. -/
theorem bounded_init (cfg : Cfg) : Bounded cfg (init D cfg) where
  shards s := ⟨Nat.mod_lt _ cfg.W_pos, Or.inl cfg.W_pos, nofun, fun _ => ⟨rfl, rfl⟩⟩
  worker w hw := ⟨offloading_init hw, fun _ => ⟨rfl, rfl⟩⟩
  newA s _ w _ hone := by
    change Init.A cfg s w = 1 at hone
    unfold Init.A at hone
    split at hone
    · next h =>
      rw [h.2]
      exact Nat.mod_lt _ cfg.W_pos
    · cases hone
  O := related_init cfg
  newO := related_init cfg
  newOffloading w hw := Or.inr (if_pos hw)
  quiet _ _ := rfl

/-- Between the test of `owner_new` of a shard and the second read of it, no other core
acquires the shard: whatever the step does, it does not set the `owner_new` that a thread has
found to be a working core to "none". -/
def NotTaken (cfg : Cfg) (x : World Party (Sys D) ℕ Arr) (a : Act D) : Prop :=
  ∀ t ≠ a.party, ∀ s ∈ (x.thread t).note,
    ((World.step Act.party (program cfg) x a).mem.shards s).ownerNew ≠ uint32Max

/-- If no owner is taken away between two reads, then no thread is disturbed. -/
theorem undisturbed_of_notTaken {x : World Party (Sys D) ℕ Arr} {a : Act D}
    (h : NotTaken cfg x a) : World.Undisturbed Act.party (program cfg) (rules D cfg) x a := by
  intro t ht
  cases hnote : (x.thread t).note with
  | none => trivial
  | some s => exact h t ht s hnote

/-- At first no thread has anything to be relied on. -/
theorem sound_init (cfg : Cfg) :
    World.Sound (rules D cfg) (World.idle (init D cfg) : World Party (Sys D) ℕ Arr) :=
  World.sound_idle (bounded_init cfg)

/-- Only the threads that take part have notes. -/
theorem along_notTaken (ts : List Party) {m : Sys D} {as : List (Act D)}
    (hts : ∀ a ∈ as, a.party ∈ ts)
    (h : Along (World.step Act.party (program cfg))
      (fun x a => ∀ t ∈ ts, t ≠ a.party → ∀ s ∈ (x.thread t).note,
        ((World.step Act.party (program cfg) x a).mem.shards s).ownerNew ≠ uint32Max)
      (World.idle m) as) :
    Along (World.step Act.party (program cfg)) (NotTaken cfg) (World.idle m) as := by
  rw [along_iff_split] at h ⊢
  intro pre a post has t ht s hs
  by_cases hmem : t ∈ ts
  · exact h pre a post has t hmem ht s hs
  · have hidle : (runFrom (World.step Act.party (program cfg)) (World.idle m) pre).thread t =
        (World.idle m : World Party (Sys D) ℕ Arr).thread t := by
      refine World.runFrom_thread fun b hb hbt => hmem ?_
      rw [← hbt]
      exact hts b (by rw [has]; exact List.mem_append_left _ hb)
    rw [hidle] at hs
    cases hs

variable [Signed D] {as : List (Act D)}

/-- **Every index is within its array**, in every state of a run in which no core acquires a
shard between the two reads of another; and without offloading cores no packet waits for one. -/
theorem inBounds_of_notTaken
    (h : Along (World.step Act.party (program cfg)) (fun x a => Allowed cfg a ∧ NotTaken cfg x a)
      (World.idle (init D cfg)) as) :
    let x := runFrom (World.step Act.party (program cfg)) (World.idle (init D cfg)) as
    x.InBounds cfg.size ∧
      (cfg.E = 0 → ∀ w < cfg.W, (x.mem.ring (x.mem.worker w).q).count = 0) := by
  have hsound := (sound_init cfg).run (fun _ => good_program)
    (h.imp fun _ _ ha => ⟨ha.1, undisturbed_of_notTaken ha.2⟩)
  exact ⟨hsound.inBounds, fun hE w hw => hsound.inv.q_empty hw hE⟩

/-- All other threads are at the end of a task. -/
def Undivided (x : World Party (Sys D) ℕ Arr) (a : Act D) : Prop :=
  ∀ t ≠ a.party, ∃ u, (x.thread t).prog = .done u

/-- A task that is not interrupted takes nothing from anybody. -/
theorem notTaken_of_undivided
    (h : Along (World.step Act.party (program cfg)) (fun x a => Allowed cfg a ∧ Undivided x a)
      (World.idle (init D cfg)) as) :
    Along (World.step Act.party (program cfg)) (fun x a => Allowed cfg a ∧ NotTaken cfg x a)
      (World.idle (init D cfg)) as := by
  have hkept : ∀ x a, World.Sound (rules D cfg) x → Allowed cfg a ∧ Undivided x a →
      Allowed cfg a ∧ NotTaken cfg x a := by
    intro x a hx ha
    refine ⟨ha.1, fun t ht s hs => ?_⟩
    obtain ⟨u, hu⟩ := ha.2 t ht
    rw [hx.note_eq_none hu] at hs
    cases hs
  refine Along.imp_inv (fun x a hx ha => ?_) hkept (sound_init cfg) h
  exact hx.step (good_program ha.1) (undisturbed_of_notTaken (hkept x a hx ha).2)

end Accesses

namespace Small

open Accesses

theorem diagonal_le_one : ∀ s i : ℕ, (if i = s then 1 else 0) ≤ 1 := by
  intro s i
  split <;> omega

/-- A router of two working cores that has nothing to do. -/
def unoccupied : Solver.Problem where
  W := 2
  E := 0
  shards := 2
  Cap := 914 / 10000
  Csp := 1166 / 10000
  SLOp := 100000
  Car := 966 / 10000
  Csr := 1202 / 10000
  SLOr := 100000
  T := 1
  Te := 1
  V := fun _ => 0
  Aold := fun s i => if i = s then 1 else 0
  Oold := fun _ _ => 0
  V_nonneg := fun _ => le_refl 0
  Aold_le := diagonal_le_one
  Oold_le := fun _ _ => zero_le_one

/-- The two shards change places. -/
def trade : Act ℚ := .epoch (some (answer (fun s => 1 - s) (fun _ => 2) fun _ => 0)) fun _ => []

/-- The answer that lets the shards change places is a placement. -/
theorem trade_allowed : Allowed (router 0) trade :=
  allowed_of_feasible (q := unoccupied)
    (Solver.unloaded_feasible (A := fun s w => if w = 1 - s then 1 else 0)
      (O := fun e w => if w < 2 ∧ e = 2 then 1 else 0) (fun _ => rfl) (by decide +kernel)
      (by decide +kernel) ⟨by decide, by decide, by decide, by decide, by decide⟩
      ⟨by decide, by decide, by decide, by decide, by decide, by decide⟩)
    rfl rfl rfl _

/-- A packet waits for core 1 when the shards change places. Core 1 takes it back, works it off
and finds its own ring empty. Then core 0, which has nothing to take back, makes `i` steps of its
task, core 1 makes `j` and core 0 makes `k`. -/
def race (i j k : ℕ) : List (Act ℚ) :=
  List.replicate 2 (.arrive (packet 1 1)) ++ List.replicate 38 trade ++
    List.replicate 26 (.work 1 (task 1)) ++ List.replicate i (.work 0 (task 1)) ++
    List.replicate j (.work 1 (task 1)) ++ List.replicate k (.work 0 (task 1))

theorem mem_race {i j k : ℕ} {a : Act ℚ} (ha : a ∈ race i j k) :
    a = .arrive (packet 1 1) ∨ a = trade ∨ a = .work 0 (task 1) ∨ a = .work 1 (task 1) := by
  simp only [race, List.mem_append, List.mem_replicate] at ha
  tauto

/-- All steps of the race are allowed. -/
theorem race_allowed (i j k : ℕ) : ∀ a ∈ race i j k, Allowed (router 0) a := by
  intro a ha
  rcases mem_race ha with rfl | rfl | rfl | rfl
  · trivial
  · exact trade_allowed
  · exact Nat.zero_lt_two
  · exact Nat.one_lt_two

/-- Core 0 has ended the pause of shard 0 and reads `owner_new` again after core 1 has acquired
the shard: it is about to write to `had_changes[UINT32_MAX]`. -/
theorem race_outside : (∀ a ∈ race 18 8 1, Allowed (router 0) a) ∧
    ¬ (runFrom (World.step Act.party (program (router 0))) (World.idle (init ℚ (router 0)))
      (race 18 8 1)).InBounds (router 0).size := by
  refine ⟨race_allowed 18 8 1, fun hbounds => ?_⟩
  have hacc : (runFrom (World.step Act.party (program (router 0)))
      (World.idle (init ℚ (router 0))) (race 18 8 1)).accessing (.working 0) =
        some (.hadChanges, uint32Max) := by decide +kernel
  exact absurd (hbounds _ _ _ hacc) (by decide)

/-- Core 0 reads `owner_new` again before core 1 acquires the shard. -/
theorem race_notTaken : Along (World.step Act.party (program (router 0))) (NotTaken (router 0))
    (World.idle (init ℚ (router 0))) (race 19 9 9) := by
  refine along_notTaken [.nic, .controller, .working 0, .working 1] (fun a ha => ?_)
    (by decide +kernel)
  rcases mem_race ha with rfl | rfl | rfl | rfl <;> decide

/-- With the acquisition after the second read, the race stays within the arrays. -/
theorem race_inBounds :
    let x := runFrom (World.step Act.party (program (router 0)))
      (World.idle (init ℚ (router 0))) (race 19 9 9)
    x.InBounds (router 0).size ∧
      ((router 0).E = 0 → ∀ w < (router 0).W, (x.mem.ring (x.mem.worker w).q).count = 0) :=
  inBounds_of_notTaken (Along.and (along_iff_split.mpr fun pre a post has =>
    race_allowed 19 9 9 a (by rw [has]; exact List.mem_append_right pre List.mem_cons_self))
    race_notTaken)

end Small

end Fajita
