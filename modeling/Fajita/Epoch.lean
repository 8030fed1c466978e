import Fajita.Stages

/-!
# What an epoch of the controller can do

* `EpochFrame` — everything of the cores, their rings and the NIC queues is left
  alone, and so are the owners of the shards;
* `Moved` — what `update_shards` does to the hand-over state, for any answer of
  the solver.
-/

namespace Fajita

variable {D : Type} {cfg : Cfg} {σ : Sys D}

/-- What an epoch leaves alone. -/
structure EpochFrame (σ σ' : Sys D) : Prop where
  /-- the working cores -/
  worker : σ'.worker = σ.worker
  /-- static copies of the rings -/
  queues : σ'.queues = σ.queues
  /-- `had_changes` -/
  hadChanges : σ'.hadChanges = σ.hadChanges
  /-- the offloading cores -/
  core : σ'.core = σ.core
  /-- additions are posted by the working cores only -/
  toAddQueue : σ'.toAddQueue = σ.toAddQueue
  /-- the controller's view of the relation is never refreshed -/
  offloadingFromWorking : σ'.offloadingFromWorking = σ.offloadingFromWorking
  /-- packets -/
  traffic : SameTraffic σ σ'
  /-- owners -/
  owner : ∀ s, (σ'.shards s).owner = (σ.shards s).owner
  /-- local queues -/
  localQueue : ∀ s, (σ'.shards s).localQueue = (σ.shards s).localQueue
  /-- shares are taken over by the working cores only -/
  r : ∀ s, (σ'.shards s).r = (σ.shards s).r

namespace EpochFrame

variable {σ₁ σ₂ σ₃ : Sys D}

theorem refl (σ : Sys D) : EpochFrame σ σ :=
  ⟨rfl, rfl, rfl, rfl, rfl, rfl, .refl σ, fun _ => rfl, fun _ => rfl, fun _ => rfl⟩

theorem trans (h : EpochFrame σ₁ σ₂) (h' : EpochFrame σ₂ σ₃) : EpochFrame σ₁ σ₃ where
  worker := h'.worker.trans h.worker
  queues := h'.queues.trans h.queues
  hadChanges := h'.hadChanges.trans h.hadChanges
  core := h'.core.trans h.core
  toAddQueue := h'.toAddQueue.trans h.toAddQueue
  offloadingFromWorking := h'.offloadingFromWorking.trans h.offloadingFromWorking
  traffic := h.traffic.trans h'.traffic
  owner s := (h'.owner s).trans (h.owner s)
  localQueue s := (h'.localQueue s).trans (h.localQueue s)
  r s := (h'.r s).trans (h.r s)

/-- A change of the shards that keeps owners, local queues and shares. -/
theorem of_shards {shards : ℕ → ShardInfo D}
    (h : ∀ s, (shards s).owner = (σ.shards s).owner ∧
      (shards s).localQueue = (σ.shards s).localQueue ∧ (shards s).r = (σ.shards s).r) :
    EpochFrame σ { σ with shards := shards } :=
  ⟨rfl, rfl, rfl, rfl, rfl, rfl, ⟨rfl, rfl, rfl, rfl, rfl⟩, fun s => (h s).1,
    fun s => (h s).2.1, fun s => (h s).2.2⟩

end EpochFrame

namespace Controller

/-- A loop over the shards keeps what its body keeps. -/
theorem loop_frame (cfg : Cfg) {h : ℕ → ShardInfo D → ShardInfo D}
    (hh : ∀ s sh, (h s sh).owner = sh.owner ∧ (h s sh).localQueue = sh.localQueue ∧
      (h s sh).r = sh.r) :
    EpochFrame σ { σ with
      shards := forRange cfg.totalShards (fun s shards => Function.update shards s (h s (shards s)))
        σ.shards } :=
  .of_shards fun s =>
    ⟨forRange_update_field (φ := ShardInfo.owner) (fun i b => (hh i b).1) _ _ s,
      forRange_update_field (φ := ShardInfo.localQueue) (fun i b => (hh i b).2.1) _ _ s,
      forRange_update_field (φ := ShardInfo.r) (fun i b => (hh i b).2.2) _ _ s⟩

/-! ## The hand-over requests

`update_shards` goes over shards and cores twice. What it does to a shard in the pass that marks is
`marked`, by the number of cores it has been over: since `newA` has at most one core for each shard,
the last write is the only one.
-/

/-- An entry of the assignment for which `migration_shard` acts. -/
def Moves (A newA : ℕ → ℕ → ℕ) (owner s w : ℕ) : Prop := newA s w = 1 ∧ A s w = 0 ∧ owner ≠ w

instance (A newA : ℕ → ℕ → ℕ) (owner s w : ℕ) : Decidable (Moves A newA owner s w) :=
  inferInstanceAs (Decidable (_ ∧ _ ∧ _))

/-- A shard after the first pass over its row. -/
def marked (A newA : ℕ → ℕ → ℕ) (s n : ℕ) (sh : ShardInfo D) : ShardInfo D :=
  forRange n (fun w sh' =>
    if Moves A newA sh.owner s w then { sh' with ownerNew := w, pause := true } else sh') sh

variable {A newA : ℕ → ℕ → ℕ} {sh : ShardInfo D} {s n : ℕ}

/-- The pass over one core more marks the shard if it moves there. -/
theorem marked_succ : marked A newA s (n + 1) sh =
    if Moves A newA sh.owner s n then { marked A newA s n sh with ownerNew := n, pause := true }
    else marked A newA s n sh := rfl

/-- Marking a shard changes `pause` and `owner_new` only. -/
theorem marked_fields : (marked A newA s n sh).owner = sh.owner ∧
    (marked A newA s n sh).localQueue = sh.localQueue ∧ (marked A newA s n sh).r = sh.r := by
  refine forRange_inv (P := fun t : ShardInfo D =>
    t.owner = sh.owner ∧ t.localQueue = sh.localQueue ∧ t.r = sh.r) ⟨rfl, rfl, rfl⟩ ?_
  intro w _ t ht
  split
  · exact ht
  · exact ht

/-- A shard is paused after the pass if it was before, or moves. -/
theorem marked_pause : (marked A newA s n sh).pause = true ↔
    sh.pause = true ∨ ∃ w < n, Moves A newA sh.owner s w := by
  refine forRange_rule (fun k (t : ShardInfo D) => t.pause = true ↔
    sh.pause = true ∨ ∃ w < k, Moves A newA sh.owner s w) (by simp) ?_
  intro k _ t ht
  by_cases hk : Moves A newA sh.owner s k
  · rw [if_pos hk]
    exact ⟨fun _ => Or.inr ⟨k, k.lt_succ_self, hk⟩, fun _ => rfl⟩
  · rw [if_neg hk, ht, Nat.exists_lt_succ_right, or_iff_left hk]

/-- A row without a new entry leaves the shard alone. -/
theorem marked_of_none (h : ∀ w < n, ¬ Moves A newA sh.owner s w) : marked A newA s n sh = sh :=
  forRange_eq_self fun w hw => if_neg (h w hw)

/-- A row with a single new entry. -/
theorem marked_of_unique {b : ℕ} (hb : b < n) (hmoves : Moves A newA sh.owner s b)
    (huniq : ∀ w < n, Moves A newA sh.owner s w → w = b) :
    marked A newA s n sh = { sh with ownerNew := b, pause := true } := by
  have hrule := forRange_rule (n := n) (s := sh)
    (f := fun w sh' =>
      if Moves A newA sh.owner s w then { sh' with ownerNew := w, pause := true } else sh')
    (fun k t => t = if b < k then { sh with ownerNew := b, pause := true } else sh) (by simp) ?_
  · rw [if_pos hb] at hrule
    exact hrule
  · rintro k hk - rfl
    by_cases hkb : k = b
    · subst hkb
      simp [hmoves]
    · rw [if_neg fun h => hkb (huniq k hk h)]
      exact if_congr (by omega) rfl rfl

/-- The first pass marks the shards row by row. -/
theorem migrationPass_mark (cfg : Cfg) (A newA : ℕ → ℕ → ℕ) (m : Migration D) :
    (migrationPass cfg A newA false m).transferShard = m.transferShard ∧
      ∀ s, (migrationPass cfg A newA false m).shards s =
        if s < cfg.totalShards then marked A newA s cfg.totalCores (m.shards s)
        else m.shards s := by
  -- the inner loop works on one shard and keeps its owner
  have hinner : ∀ s n (m : Migration D), forRange n
      (fun w m => if newA s w = 1 ∧ A s w = 0 then migrationShard s w false m else m) m =
        ⟨Function.update m.shards s (marked A newA s n (m.shards s)), m.transferShard⟩ := by
    intro s n m
    induction n with
    | zero => simp [marked]
    | succ n ih =>
      have howner : (marked A newA s n (m.shards s)).owner = (m.shards s).owner := marked_fields.1
      rw [forRange_succ, ih, marked_succ]
      by_cases hnew : newA s n = 1 ∧ A s n = 0
      · by_cases ho : (m.shards s).owner = n
        · simp [hnew, migrationShard, Moves, ho, howner]
        · simp [hnew, migrationShard, Moves, ho, howner, updateShard]
      · have hno : ¬ Moves A newA (m.shards s).owner s n := fun h => hnew ⟨h.1, h.2.1⟩
        rw [if_neg hnew, if_neg hno]
  refine forRange_rule (fun k (t : Migration D) => t.transferShard = m.transferShard ∧
    ∀ s, t.shards s = if s < k then marked A newA s cfg.totalCores (m.shards s) else m.shards s)
    (by simp) ?_
  rintro k - t ⟨hflag, hshards⟩
  rw [hinner]
  refine ⟨hflag, fun s => ?_⟩
  by_cases hs : s = k
  · subst hs
    simp [hshards]
  · dsimp only
    rw [Function.update_of_ne hs, hshards]
    exact if_congr (by omega) rfl rfl

/-- An entry of the second pass signals the owner of a shard that is to move. -/
theorem migrationShard_signal (A newA : ℕ → ℕ → ℕ) (s w : ℕ) (m : Migration D) :
    let m' := if newA s w = 1 ∧ A s w = 0 then migrationShard s w true m else m
    m'.shards = m.shards ∧ ∀ o, m'.transferShard o = true ↔
      m.transferShard o = true ∨ (m.shards s).owner = o ∧ Moves A newA o s w := by
  intro m'
  by_cases hmoves : Moves A newA (m.shards s).owner s w
  · have hact : m' =
        { m with transferShard := Function.update m.transferShard (m.shards s).owner true } := by
      simp only [m', if_pos (And.intro hmoves.1 hmoves.2.1), migrationShard, if_neg hmoves.2.2]
      rfl
    rw [hact]
    refine ⟨rfl, fun o => ?_⟩
    by_cases ho : (m.shards s).owner = o
    · subst ho
      simp [hmoves]
    · simp [Function.update_of_ne (Ne.symm ho), ho]
  · have hskip : m' = m := by
      simp only [m', migrationShard]
      split
      · next hnew => exact if_pos (by_contra fun ho => hmoves ⟨hnew.1, hnew.2, ho⟩)
      · rfl
    rw [hskip]
    refine ⟨rfl, fun o => ⟨Or.inl, fun h => h.resolve_right ?_⟩⟩
    rintro ⟨rfl, h⟩
    exact hmoves h

/-- The second pass signals the owners of the marked shards. -/
theorem migrationPass_signal (cfg : Cfg) (A newA : ℕ → ℕ → ℕ) (m : Migration D) :
    (migrationPass cfg A newA true m).shards = m.shards ∧
      ∀ o, (migrationPass cfg A newA true m).transferShard o = true ↔
        m.transferShard o = true ∨ ∃ s < cfg.totalShards, (m.shards s).owner = o ∧
          ∃ w < cfg.totalCores, Moves A newA o s w := by
  -- row by row, and within a row entry by entry
  refine forRange_rule (fun k (t : Migration D) => t.shards = m.shards ∧ ∀ o,
    t.transferShard o = true ↔ m.transferShard o = true ∨ ∃ s < k, (m.shards s).owner = o ∧
      ∃ w < cfg.totalCores, Moves A newA o s w) (by simp) ?_
  rintro s - t ⟨hshards, hflag⟩
  have hrow := forRange_rule (n := cfg.totalCores) (s := t)
    (f := fun w m => if newA s w = 1 ∧ A s w = 0 then migrationShard s w true m else m)
    (fun k (t' : Migration D) => t'.shards = t.shards ∧ ∀ o, t'.transferShard o = true ↔
      t.transferShard o = true ∨ (t.shards s).owner = o ∧ ∃ w < k, Moves A newA o s w)
    (by simp) ?_
  · obtain ⟨hshards', hflag'⟩ := hrow
    refine ⟨hshards'.trans hshards, fun o => ?_⟩
    rw [hflag', hflag, hshards, Nat.exists_lt_succ_right, or_assoc]
  · rintro w - t' ⟨hshards', hflag'⟩
    obtain ⟨hkept, hset⟩ := migrationShard_signal A newA s w t'
    refine ⟨hkept.trans hshards', fun o => ?_⟩
    rw [hset, hflag', hshards', Nat.exists_lt_succ_right, and_or_left, or_assoc]

/-! ## The whole epoch -/

/-- The hand-over state when a shard is moved to every `w` that `newA` adds to
its row. -/
structure Moved (cfg : Cfg) (newA : ℕ → ℕ → ℕ) (σ σ' : Sys D) : Prop where
  /-- the new assignment is in force -/
  A : ∀ s < cfg.totalShards, ∀ w < cfg.totalCores, σ'.A s w = newA s w
  /-- the shards with a new entry are paused -/
  pause : ∀ s, (σ'.shards s).pause = true ↔ (σ.shards s).pause = true ∨
    s < cfg.totalShards ∧ ∃ w < cfg.totalCores, Moves σ.A newA (σ.shards s).owner s w
  /-- a shard without a new entry keeps its new owner -/
  ownerNew_same : ∀ s,
    (s < cfg.totalShards → ∀ w < cfg.totalCores, ¬ Moves σ.A newA (σ.shards s).owner s w) →
      (σ'.shards s).ownerNew = (σ.shards s).ownerNew
  /-- a shard with a single new entry is on its way there -/
  ownerNew_of : ∀ s < cfg.totalShards, ∀ b < cfg.totalCores,
    Moves σ.A newA (σ.shards s).owner s b →
    (∀ w < cfg.totalCores, Moves σ.A newA (σ.shards s).owner s w → w = b) →
      (σ'.shards s).ownerNew = b
  /-- the owners of the moved shards are told -/
  transferShard : ∀ o, σ'.transferShard o = true ↔ σ.transferShard o = true ∨
    ∃ s < cfg.totalShards, (σ.shards s).owner = o ∧
      ∃ w < cfg.totalCores, Moves σ.A newA o s w

/-- A step that leaves the assignment, the tables that follow it, the hand-over
state and `transfer_shard` alone. -/
structure Unmoved (σ σ' : Sys D) : Prop where
  /-- the assignment -/
  A : σ'.A = σ.A
  /-- the hand-over state -/
  handover : SameHandover σ σ'
  /-- `transfer_shard` -/
  transferShard : σ'.transferShard = σ.transferShard
  /-- the table the controller builds -/
  retaConf : σ'.retaConf = σ.retaConf
  /-- the NIC's table -/
  nicReta : σ'.nicReta = σ.nicReta

namespace Unmoved

variable {σ₁ σ₂ σ₃ : Sys D}

theorem refl (σ : Sys D) : Unmoved σ σ := ⟨rfl, .refl σ, rfl, rfl, rfl⟩

theorem trans (h : Unmoved σ₁ σ₂) (h' : Unmoved σ₂ σ₃) : Unmoved σ₁ σ₃ :=
  ⟨h'.A.trans h.A, h.handover.trans h'.handover, h'.transferShard.trans h.transferShard,
    h'.retaConf.trans h.retaConf, h'.nicReta.trans h.nicReta⟩

/-- A loop over the shards that keeps the hand-over state. -/
theorem loop (cfg : Cfg) {h : ℕ → ShardInfo D → ShardInfo D}
    (hh : ∀ s sh, (h s sh).owner = sh.owner ∧ (h s sh).ownerNew = sh.ownerNew ∧
      (h s sh).pause = sh.pause ∧ (h s sh).localQueue = sh.localQueue) :
    SameHandover σ { σ with
      shards := forRange cfg.totalShards (fun s shards => Function.update shards s (h s (shards s)))
        σ.shards } where
  owner := forRange_update_field (φ := ShardInfo.owner) (fun i b => (hh i b).1) _ _
  ownerNew := forRange_update_field (φ := ShardInfo.ownerNew) (fun i b => (hh i b).2.1) _ _
  pause := forRange_update_field (φ := ShardInfo.pause) (fun i b => (hh i b).2.2.1) _ _
  localQueue := forRange_update_field (φ := ShardInfo.localQueue) (fun i b => (hh i b).2.2.2) _ _

end Unmoved

/-- What happens before and after does not matter to a move. -/
theorem Moved.congr {σ₁ σ₂ σ₃ : Sys D} (h₁ : Unmoved σ σ₁) (h : Moved cfg newA σ₁ σ₂)
    (h₃ : Unmoved σ₂ σ₃) : Moved cfg newA σ σ₃ where
  A s hs w hw := by rw [h₃.A, h.A s hs w hw]
  pause s := by
    rw [h₃.handover.pause, h.pause, h₁.handover.pause, h₁.handover.owner, h₁.A]
  ownerNew_same s hno := by
    rw [h₃.handover.ownerNew, h.ownerNew_same s (by rwa [h₁.A, h₁.handover.owner]),
      h₁.handover.ownerNew]
  ownerNew_of s hs b hb hmoves huniq := by
    rw [← h₁.handover.owner, ← h₁.A] at hmoves huniq
    rw [h₃.handover.ownerNew, h.ownerNew_of s hs b hb hmoves huniq]
  transferShard o := by
    rw [h₃.transferShard, h.transferShard, h₁.transferShard, h₁.A]
    simp only [h₁.handover.owner]

/-- With the assignment that is in force nothing moves. -/
theorem Moved.of_unmoved {σ' : Sys D} (h : Unmoved σ σ')
    (hA : ∀ s < cfg.totalShards, ∀ w < cfg.totalCores, σ.A s w = newA s w) :
    Moved cfg newA σ σ' := by
  have hno : ∀ s < cfg.totalShards, ∀ w < cfg.totalCores, ∀ o, ¬ Moves σ.A newA o s w := by
    rintro s hs w hw o ⟨h1, h0, -⟩
    rw [hA s hs w hw, h1] at h0
    cases h0
  refine ⟨?_, ?_, ?_, ?_, ?_⟩
  · intro s hs w hw
    rw [h.A, hA s hs w hw]
  · intro s
    rw [h.handover.pause]
    exact ⟨Or.inl, fun h => h.resolve_right fun ⟨hs, w, hw, hm⟩ => hno s hs w hw _ hm⟩
  · intro s _
    exact h.handover.ownerNew s
  · intro s hs b hb hm
    exact absurd hm (hno s hs b hb _)
  · intro o
    rw [h.transferShard]
    exact ⟨Or.inl, fun h => h.resolve_right fun ⟨s, hs, _, w, hw, hm⟩ => hno s hs w hw _ hm⟩

section

variable {σ' : Sys D} {a b : ℕ}

/-- Only the single entry of a row can be new. -/
theorem Moves.eq_of_row {o v : ℕ} (hm : Moves A newA o s v)
    (hrow : ∀ v < cfg.totalCores, newA s v = if v = b then 1 else 0) (hv : v < cfg.totalCores) :
    v = b := by
  have h1 := hm.1
  rw [hrow v hv] at h1
  split_ifs at h1 with hvb
  exact hvb

/-- A shard whose core stays the same is left alone. -/
theorem Moved.kept (h : Moved cfg newA σ σ')
    (hrow : ∀ v < cfg.totalCores, σ.A s v = if v = a then 1 else 0)
    (hrow' : ∀ v < cfg.totalCores, newA s v = if v = a then 1 else 0) :
    (σ'.shards s).pause = (σ.shards s).pause ∧
      (σ'.shards s).ownerNew = (σ.shards s).ownerNew := by
  have hno : ∀ v < cfg.totalCores, ¬ Moves σ.A newA (σ.shards s).owner s v := by
    intro v hv hm
    have h0 := hm.2.1
    rw [hrow v hv, if_pos (hm.eq_of_row hrow' hv)] at h0
    cases h0
  refine ⟨?_, h.ownerNew_same s fun _ => hno⟩
  rw [Bool.eq_iff_iff, h.pause]
  exact or_iff_left fun ⟨_, v, hv, hm⟩ => hno v hv hm

/-- A shard that gets another core is on its way there, unless that core owns it. -/
theorem Moved.sent (h : Moved cfg newA σ σ') (hs : s < cfg.totalShards) (hb : b < cfg.totalCores)
    (hrow : ∀ v < cfg.totalCores, σ.A s v = if v = a then 1 else 0)
    (hrow' : ∀ v < cfg.totalCores, newA s v = if v = b then 1 else 0) (hba : b ≠ a)
    (how : (σ.shards s).owner ≠ b) :
    (σ'.shards s).pause = true ∧ (σ'.shards s).ownerNew = b := by
  have hm : Moves σ.A newA (σ.shards s).owner s b :=
    ⟨by rw [hrow' b hb, if_pos rfl], by rw [hrow b hb, if_neg hba], how⟩
  exact ⟨(h.pause s).mpr (Or.inr ⟨hs, b, hb, hm⟩),
    h.ownerNew_of s hs b hb hm fun v hv hm' => hm'.eq_of_row hrow' hv⟩

end

/-- **`update_shards`** moves the shards to the workers the solver asks for. -/
theorem updateShards_moved (cfg : Cfg) (σ : Sys D) : Moved cfg σ.newA σ (updateShards cfg σ).1 := by
  simp only [updateShards]
  split
  · next hsame =>
    refine .of_unmoved (.refl σ) ?_
    simpa [sameAssignment] using hsame
  · obtain ⟨-, hmark⟩ := migrationPass_mark cfg σ.A σ.newA
      ⟨σ.shards, σ.transferShard⟩
    obtain ⟨-, hsignal⟩ := migrationPass_signal cfg σ.A σ.newA
      ⟨(migrationPass cfg σ.A σ.newA false ⟨σ.shards, σ.transferShard⟩).shards, σ.transferShard⟩
    -- the second pass reads the owners after the first, which has changed none of them
    have howner : ∀ s, ((migrationPass cfg σ.A σ.newA false
        ⟨σ.shards, σ.transferShard⟩).shards s).owner = (σ.shards s).owner := by
      intro s
      rw [hmark]
      split
      · exact marked_fields.1
      · rfl
    refine ⟨?_, ?_, ?_, ?_, ?_⟩
    · exact fun s _ w _ => rfl
    · intro s
      refine (Iff.of_eq (congrArg (fun sh : ShardInfo D => sh.pause = true) (hmark s))).trans ?_
      by_cases hs : s < cfg.totalShards
      · rw [if_pos hs, marked_pause]
        simp [hs]
      · rw [if_neg hs]
        simp [hs]
    · intro s hno
      refine (congrArg ShardInfo.ownerNew (hmark s)).trans ?_
      by_cases hs : s < cfg.totalShards
      · rw [if_pos hs, marked_of_none (hno hs)]
      · rw [if_neg hs]
    · intro s hs b hb hmoves huniq
      refine (congrArg ShardInfo.ownerNew (hmark s)).trans ?_
      rw [if_pos hs, marked_of_unique hb hmoves huniq]
    · intro o
      refine (hsignal o).trans ?_
      simp only [howner]

/-- `update_shards` leaves all alone that is not part of the hand-over. -/
theorem updateShards_frame (cfg : Cfg) (σ : Sys D) : EpochFrame σ (updateShards cfg σ).1 := by
  simp only [updateShards]
  split
  · exact .refl σ
  · obtain ⟨-, hmark⟩ := migrationPass_mark cfg σ.A σ.newA
      ⟨σ.shards, σ.transferShard⟩
    have h : EpochFrame σ { σ with
        shards := (migrationPass cfg σ.A σ.newA false ⟨σ.shards, σ.transferShard⟩).shards } := by
      refine .of_shards fun s => ?_
      rw [hmark]
      split
      · exact marked_fields
      · exact ⟨rfl, rfl, rfl⟩
    exact ⟨rfl, rfl, rfl, rfl, rfl, rfl, ⟨rfl, rfl, rfl, rfl, rfl⟩, h.owner, h.localQueue, h.r⟩

/-! ## The other parts of an epoch

Most of an epoch is beside the hand-over (`Aside`): it may change shares, counters and the relation
between the cores, but no owner, no pause and no assignment.
-/

/-- A part of an epoch outside `update_shards`: a frame that moves no shard. -/
structure Aside (σ σ' : Sys D) : Prop where
  /-- the cores are left alone -/
  frame : EpochFrame σ σ'
  /-- the hand-over state is left alone -/
  unmoved : Unmoved σ σ'

namespace Aside

variable {σ₁ σ₂ σ₃ : Sys D}

theorem refl (σ : Sys D) : Aside σ σ := ⟨.refl σ, .refl σ⟩

theorem trans (h : Aside σ₁ σ₂) (h' : Aside σ₂ σ₃) : Aside σ₁ σ₃ :=
  ⟨h.frame.trans h'.frame, h.unmoved.trans h'.unmoved⟩

/-- A loop over the shards that rewrites none of the fields the cores act on. -/
theorem loop (cfg : Cfg) {h : ℕ → ShardInfo D → ShardInfo D}
    (hh : ∀ s sh, (h s sh).settings = { sh.settings with rNew := (h s sh).rNew }) :
    Aside σ { σ with
      shards := forRange cfg.totalShards (fun s shards => Function.update shards s (h s (shards s)))
        σ.shards } := by
  have howner : ∀ s sh, (h s sh).owner = sh.owner := fun s sh => congrArg Settings.owner (hh s sh)
  have hlocal : ∀ s sh, (h s sh).localQueue = sh.localQueue := fun s sh =>
    congrArg Settings.localQueue (hh s sh)
  have hr : ∀ s sh, (h s sh).r = sh.r := fun s sh => congrArg Settings.r (hh s sh)
  have hnew : ∀ s sh, (h s sh).ownerNew = sh.ownerNew := fun s sh =>
    congrArg Settings.ownerNew (hh s sh)
  have hpause : ∀ s sh, (h s sh).pause = sh.pause := fun s sh => congrArg Settings.pause (hh s sh)
  exact ⟨loop_frame cfg fun s sh => ⟨howner s sh, hlocal s sh, hr s sh⟩,
    ⟨rfl, Unmoved.loop cfg fun s sh => ⟨howner s sh, hnew s sh, hpause s sh, hlocal s sh⟩, rfl, rfl,
      rfl⟩⟩

/-- Going on with changes of the controller's own numbers. -/
theorem then_numbers (h : Aside σ₁ σ₂) (hf : EpochFrame σ₂ σ₃) (hA : σ₃.A = σ₂.A)
    (hs : σ₃.shards = σ₂.shards) (ht : σ₃.transferShard = σ₂.transferShard)
    (hc : σ₃.retaConf = σ₂.retaConf) (hn : σ₃.nicReta = σ₂.nicReta) : Aside σ₁ σ₃ :=
  h.trans ⟨hf, ⟨hA, .of_shards hs, ht, hc, hn⟩⟩

end Aside

/-- The swap of the counters leaves the hand-over aside. -/
theorem swapShards_aside : Aside σ (swapShards cfg σ) :=
  (Aside.loop cfg (σ := σ)
    (h := fun _ sh => { sh with
      use2 := !sh.use2, oldBytes := sh.bytes, oldPackets := sh.packets, bytes := 0, packets := 0 })
    fun _ _ => rfl).then_numbers
    ⟨rfl, rfl, rfl, rfl, rfl, rfl, ⟨rfl, rfl, rfl, rfl, rfl⟩, fun _ => rfl, fun _ => rfl,
      fun _ => rfl⟩ rfl rfl rfl rfl rfl

/-- Clearing the tables leaves the hand-over aside. -/
theorem clearFlows_aside : Aside σ (clearFlows cfg σ) :=
  Aside.loop cfg (σ := σ) (h := fun _ sh =>
    if sh.use2 then { sh with flows3 := [] } else { sh with flows3₂ := [] })
    fun _ _ => by split <;> rfl

/-- `run_short_solver` leaves the hand-over aside. -/
theorem runShortSolver_aside (ans : Answer D) : Aside σ (runShortSolver cfg ans σ) :=
  (Aside.loop cfg (σ := σ) (h := fun s sh => { sh with rNew := ans.r s })
    fun _ _ => rfl).then_numbers
    ⟨rfl, rfl, rfl, rfl, rfl, rfl, ⟨rfl, rfl, rfl, rfl, rfl⟩, fun _ => rfl, fun _ => rfl,
      fun _ => rfl⟩ rfl rfl rfl rfl rfl

theorem sendSignals_aside : Aside σ (sendSignals cfg σ) :=
  (Aside.refl σ).then_numbers
    ⟨rfl, rfl, rfl, rfl, rfl, rfl, ⟨rfl, rfl, rfl, rfl, rfl⟩, fun _ => rfl, fun _ => rfl,
      fun _ => rfl⟩ rfl rfl rfl rfl rfl

/-- `update_relationship` leaves the hand-over aside. -/
theorem updateRelationship_aside : Aside σ (updateRelationship cfg σ).1 := by
  simp only [updateRelationship]
  split
  · exact .refl σ
  · exact (Aside.refl σ).then_numbers
      ⟨rfl, rfl, rfl, rfl, rfl, rfl, ⟨rfl, rfl, rfl, rfl, rfl⟩, fun _ => rfl, fun _ => rfl,
        fun _ => rfl⟩ rfl rfl rfl rfl rfl

/-- `update_relationship` leaves the new assignment alone. -/
theorem updateRelationship_newA : (updateRelationship cfg σ).1.newA = σ.newA := by
  simp only [updateRelationship]
  split <;> rfl

variable [Double D]

theorem volumeShards_aside : Aside σ (volumeShards cfg σ) := by
  simp only [volumeShards]
  split
  · exact .refl σ
  · split
    · exact (Aside.loop cfg (σ := σ)
        (h := fun _ sh => { sh with V := (sh.oldPackets.toNat : D) * 1e-6 * 1e6 / (100000 : ℕ) })
        fun _ _ => rfl).then_numbers
        ⟨rfl, rfl, rfl, rfl, rfl, rfl, ⟨rfl, rfl, rfl, rfl, rfl⟩, fun _ => rfl, fun _ => rfl,
          fun _ => rfl⟩ rfl rfl rfl rfl rfl
    · exact Aside.loop cfg (σ := σ) (h := fun _ sh => { sh with V := 0 }) fun _ _ => rfl

/-- `update_ratio` rewrites `r_new` only. -/
theorem ratioLoop_shards (cfg : Cfg) (σ : Sys D) (s : ℕ) :
    (forRange cfg.totalShards ratioStep ⟨σ.shards, σ.transferR, false⟩).shards s =
      if s < cfg.totalShards then { σ.shards s with rNew := ratioNew (σ.shards s) }
      else σ.shards s := by
  have hloop : (forRange cfg.totalShards ratioStep ⟨σ.shards, σ.transferR, false⟩).shards =
      forRange cfg.totalShards
        (fun s shards => Function.update shards s { shards s with rNew := ratioNew (shards s) })
        σ.shards := by
    generalize cfg.totalShards = n
    induction n with
    | zero => rfl
    | succ n ih =>
      rw [forRange_succ, forRange_succ, ← ih, ratioStep]
      dsimp only
      split <;> rfl
  rw [hloop]
  exact congrFun (forRange_update cfg.totalShards
    (fun _ sh => { sh with rNew := ratioNew sh }) σ.shards) s

/-- The new ratios leave the hand-over aside. -/
theorem updateRatio_aside : Aside σ (updateRatio cfg σ).1 := by
  have hs : ∀ s, ((updateRatio cfg σ).1.shards s).settings =
      { (σ.shards s).settings with rNew := ((updateRatio cfg σ).1.shards s).rNew } := by
    intro s
    have h := ratioLoop_shards cfg σ s
    change (updateRatio cfg σ).1.shards s = _ at h
    rw [h]
    split <;> rfl
  have howner := fun s => congrArg Settings.owner (hs s)
  have hlocal := fun s => congrArg Settings.localQueue (hs s)
  exact ⟨⟨rfl, rfl, rfl, rfl, rfl, rfl, ⟨rfl, rfl, rfl, rfl, rfl⟩, howner, hlocal,
      fun s => congrArg Settings.r (hs s)⟩,
    ⟨rfl, ⟨howner, fun s => congrArg Settings.ownerNew (hs s),
      fun s => congrArg Settings.pause (hs s), hlocal⟩, rfl, rfl, rfl⟩⟩

/-- The sums of the shares leave the hand-over aside. -/
theorem orderShards_aside (vec : ℕ → List FlowKey) : Aside σ (orderShards cfg vec σ) :=
  (Aside.loop cfg (σ := σ) (h := fun s sh => orderShard (vec s) sh)
    fun _ _ => rfl).then_numbers
    ⟨rfl, rfl, rfl, rfl, rfl, rfl, ⟨rfl, rfl, rfl, rfl, rfl⟩, fun _ => rfl, fun _ => rfl,
      fun _ => rfl⟩ rfl rfl rfl rfl rfl

/-- The assignment an epoch puts in force. -/
def asked (cfg : Cfg) (ans : Option (Answer D)) (σ : Sys D) : ℕ → ℕ → ℕ :=
  match ans with
  | some ans => if cfg.solver then ans.A else σ.A
  | none => σ.A

/-- The part of an epoch before `update_shards`. -/
theorem beforeShards_aside (cfg : Cfg) (σ : Sys D) (ans : Answer D) : Aside σ
    (updateRelationship cfg (updateRatio cfg (runShortSolver cfg ans σ)).1).1 :=
  ((runShortSolver_aside ans).trans updateRatio_aside).trans updateRelationship_aside

/-- Applying an answer moves no packets and touches no ring. -/
theorem applyAnswer_frame (ans : Answer D) : EpochFrame σ (applyAnswer cfg ans σ) := by
  have h := (beforeShards_aside cfg σ ans).frame.trans (updateShards_frame cfg _)
  simp only [applyAnswer]
  split
  · exact h.trans sendSignals_aside.frame
  · exact h

/-- **Applying an answer** marks the shards that it moves, and nothing else of the hand-over. -/
theorem applyAnswer_moved (ans : Answer D) : Moved cfg ans.A σ (applyAnswer cfg ans σ) := by
  have h₁ := beforeShards_aside cfg σ ans
  have h₂ := updateShards_moved cfg
    (updateRelationship cfg (updateRatio cfg (runShortSolver cfg ans σ)).1).1
  rw [updateRelationship_newA] at h₂
  simp only [applyAnswer]
  split
  · exact .congr h₁.unmoved h₂ sendSignals_aside.unmoved
  · exact .congr h₁.unmoved h₂ (.refl _)

section

variable (cfg) (σ) (ans : Option (Answer D)) (vec : ℕ → List FlowKey)

/-- The part of an epoch before the solver is asked. -/
theorem beforeSolver_aside : Aside σ (volumeShards cfg (swapShards cfg σ)) :=
  swapShards_aside.trans volumeShards_aside

/-- The part of an epoch after the solver branch. -/
theorem afterSolver_aside (n : UInt32) :
    Aside σ (clearFlows cfg (orderShards cfg vec { σ with epoch := n })) := by
  have h : Aside σ { σ with epoch := n } := (Aside.refl σ).then_numbers
    ⟨rfl, rfl, rfl, rfl, rfl, rfl, ⟨rfl, rfl, rfl, rfl, rfl⟩, fun _ => rfl, fun _ => rfl,
      fun _ => rfl⟩ rfl rfl rfl rfl rfl
  exact (h.trans (orderShards_aside vec)).trans clearFlows_aside

/-- **An epoch leaves the cores, their rings and the packets alone.** -/
theorem updateShortEpoch_frame : EpochFrame σ (updateShortEpoch cfg ans vec σ) := by
  simp only [updateShortEpoch]
  refine (beforeSolver_aside cfg σ).frame.trans
    (EpochFrame.trans ?_ (afterSolver_aside cfg _ vec _).frame)
  cases ans with
  | none => exact .refl _
  | some ans =>
    dsimp only
    split
    · exact applyAnswer_frame ans
    · exact .refl _

/-- **An epoch moves the shards to the workers the solver asks for.** -/
theorem updateShortEpoch_moved :
    Moved cfg (asked cfg ans σ) σ (updateShortEpoch cfg ans vec σ) := by
  have h₁ := beforeSolver_aside cfg σ
  have hsame : ∀ s < cfg.totalShards, ∀ w < cfg.totalCores,
      (volumeShards cfg (swapShards cfg σ)).A s w = σ.A s w := by
    intro s _ w _
    rw [h₁.unmoved.A]
  simp only [updateShortEpoch, asked]
  cases ans with
  | none =>
    exact .congr h₁.unmoved (.of_unmoved (.refl _) hsame) (afterSolver_aside cfg _ vec _).unmoved
  | some ans =>
    dsimp only
    split
    · exact .congr h₁.unmoved (applyAnswer_moved ans) (afterSolver_aside cfg _ vec _).unmoved
    · exact .congr h₁.unmoved (.of_unmoved (.refl _) hsame) (afterSolver_aside cfg _ vec _).unmoved

end

end Controller
end Fajita
