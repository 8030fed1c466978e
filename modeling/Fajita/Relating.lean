import Fajita.Mail
import Fajita.Epoch

/-!
# What an epoch does to the relation

`update_relationship` compares the relation asked for with the one in force, entry
by entry. `Related` says what it does with the differences, for any answer of the
solver: a working core that gains an offloading core is told — unless
`offloading_from_working` already names that core — and every offloading core that
loses a working core is asked to remove its ring.
-/

namespace Fajita

variable {D : Type} {cfg : Cfg} {σ σ' : Sys D} {newO : ℕ → ℕ → ℕ}

namespace Controller

/-- Core `w` is told of its new offloading core `e`. -/
def Gains (σ : Sys D) (newO : ℕ → ℕ → ℕ) (w e : ℕ) : Prop :=
  σ.O e w = 0 ∧ newO e w = 1 ∧ σ.offloadingFromWorking w ≠ uint32Max ∧
    σ.offloadingFromWorking w ≠ e

/-- The offloading core `e` is to remove the ring of core `w`. -/
def Loses (σ : Sys D) (newO : ℕ → ℕ → ℕ) (w e : ℕ) : Prop := σ.O e w = 1 ∧ newO e w = 0

/-- What the loops of `update_relationship` have done after the entries in `P`. -/
structure Visited (σ : Sys D) (P : ℕ → ℕ → Prop) (l : RelationLoop) : Prop where
  /-- rings are removed from the offloading cores that lose them -/
  posted : ∀ e, ∃ rs : List RingId, l.posted e = σ.posted e ++ rs.map .remove ∧
    ∀ r ∈ rs, ∃ w, P w e ∧ Loses σ σ.newO w e ∧ r = σ.queues w
  /-- the control rings follow -/
  mailed : Mailed σ → Mailed { σ with toRemoveQueue := l.toRemoveQueue, posted := l.posted }
  /-- the cores that gain an offloading core are told -/
  transferOffloading : ∀ w, l.transferOffloading w = true ↔
    σ.transferOffloading w = true ∨ ∃ e, P w e ∧ Gains σ σ.newO w e
  /-- the others are not -/
  newOffloading_same : ∀ w, (∀ e, P w e → ¬ Gains σ σ.newO w e) →
    l.newOffloadingFromWorking w = σ.newOffloadingFromWorking w
  /-- a core that gains a single offloading core is told which -/
  newOffloading_of : ∀ w e, P w e → Gains σ σ.newO w e →
    (∀ e', P w e' → Gains σ σ.newO w e' → e' = e) → l.newOffloadingFromWorking w = e

namespace Visited

variable {P Q : ℕ → ℕ → Prop} {l : RelationLoop}

/-- Which pairs have been visited is a matter of membership. -/
theorem congr (h : Visited σ P l) (hPQ : ∀ w e, P w e ↔ Q w e) : Visited σ Q l := by
  obtain rfl : P = Q := funext fun w => funext fun e => propext (hPQ w e)
  exact h

/-- Before the loops no pair has been visited. -/
theorem start : Visited σ (fun _ _ => False)
    ⟨σ.newOffloadingFromWorking, σ.transferOffloading, σ.toRemoveQueue, σ.posted⟩ where
  posted e := ⟨[], by simp, by simp⟩
  mailed hm := hm
  transferOffloading w := by simp
  newOffloading_same _ _ := rfl
  newOffloading_of _ _ h := h.elim

/-- The first test posts nothing. -/
theorem relationGain_mail (w e : ℕ) : (relationGain σ w e l).posted = l.posted ∧
    (relationGain σ w e l).toRemoveQueue = l.toRemoveQueue := by
  unfold relationGain
  split <;> exact ⟨rfl, rfl⟩

/-- The second test tells nobody. -/
theorem relationLose_told (w e : ℕ) :
    (relationLose σ w e l).transferOffloading = l.transferOffloading ∧
      (relationLose σ w e l).newOffloadingFromWorking = l.newOffloadingFromWorking := by
  unfold relationLose
  split <;> exact ⟨rfl, rfl⟩

/-- A pair adds to the record removals of rings that change hands, at its own offloading core. -/
theorem posted_step (h : Visited σ P l) (w e e' : ℕ) : ∃ rs : List RingId,
    (relationLose σ w e (relationGain σ w e l)).posted e' = σ.posted e' ++ rs.map .remove ∧
      ∀ r ∈ rs, ∃ w', (P w' e' ∨ w' = w ∧ e' = e) ∧ Loses σ σ.newO w' e' ∧ r = σ.queues w' := by
  obtain ⟨rs, hrs, hmem⟩ := h.posted e'
  have hmem' : ∀ r ∈ rs, ∃ w', (P w' e' ∨ w' = w ∧ e' = e) ∧ Loses σ σ.newO w' e' ∧
      r = σ.queues w' := fun r hr => by
    obtain ⟨v, hv, hloses, hq⟩ := hmem r hr
    exact ⟨v, Or.inl hv, hloses, hq⟩
  unfold relationLose
  split
  · next hl =>
    by_cases he : e' = e
    · subst he
      refine ⟨rs ++ [σ.queues w], ?_, fun r hr => ?_⟩
      · dsimp only
        rw [(relationGain_mail w e').1, Function.update_self, hrs, List.map_append,
          List.append_assoc]
        rfl
      · rcases List.mem_append.mp hr with hr | hr
        · exact hmem' r hr
        · exact ⟨w, Or.inr ⟨rfl, rfl⟩, hl, List.mem_singleton.mp hr⟩
    · refine ⟨rs, ?_, hmem'⟩
      dsimp only
      rw [(relationGain_mail w e).1, Function.update_of_ne he, hrs]
  · exact ⟨rs, by rw [(relationGain_mail w e).1, hrs], hmem'⟩

/-- What a pair enqueues is recorded. -/
theorem mailed_step (h : Visited σ P l) (w e : ℕ) (hm : Mailed σ) : Mailed { σ with
    toRemoveQueue := (relationLose σ w e (relationGain σ w e l)).toRemoveQueue
    posted := (relationLose σ w e (relationGain σ w e l)).posted } := by
  obtain ⟨hposted, hqueue⟩ := @relationGain_mail _ σ l w e
  have hm' := h.mailed hm
  unfold relationLose
  split
  · rw [hposted, hqueue]
    exact hm'.postRemove e (σ.queues w)
  · rw [hposted, hqueue]
    exact hm'

/-- A flag is up if it was or a visited pair gained. -/
theorem transferOffloading_step (h : Visited σ P l) (w e w' : ℕ) :
    (relationLose σ w e (relationGain σ w e l)).transferOffloading w' = true ↔
      σ.transferOffloading w' = true ∨
        ∃ e', (P w' e' ∨ w' = w ∧ e' = e) ∧ Gains σ σ.newO w' e' := by
  rw [(relationLose_told w e).1]
  unfold relationGain
  split
  · next hg =>
    by_cases hw : w' = w
    · subst hw
      exact ⟨fun _ => Or.inr ⟨e, Or.inr ⟨rfl, rfl⟩, hg⟩, fun _ => Function.update_self ..⟩
    · simp [h.transferOffloading, hw]
  · next hg =>
    rw [h.transferOffloading]
    refine or_congr_right ⟨fun ⟨e', hP, hg'⟩ => ⟨e', Or.inl hP, hg'⟩, fun ⟨e', hP, hg'⟩ => ?_⟩
    rcases hP with hP | ⟨rfl, rfl⟩
    · exact ⟨e', hP, hg'⟩
    · exact absurd hg' hg

/-- Where no visited pair gains, the new offloading core stays as it was. -/
theorem newOffloading_same_step (h : Visited σ P l) (w e w' : ℕ)
    (hno : ∀ e', P w' e' ∨ w' = w ∧ e' = e → ¬ Gains σ σ.newO w' e') :
    (relationLose σ w e (relationGain σ w e l)).newOffloadingFromWorking w' =
      σ.newOffloadingFromWorking w' := by
  have hnot : ¬ (w' = w ∧ Gains σ σ.newO w e) := by
    rintro ⟨rfl, hg⟩
    exact hno e (Or.inr ⟨rfl, rfl⟩) hg
  rw [(relationLose_told w e).2, ← h.newOffloading_same w' fun e' hP => hno e' (Or.inl hP)]
  unfold relationGain
  split
  · next hg => exact Function.update_of_ne (fun hw => hnot ⟨hw, hg⟩) ..
  · rfl

/-- Where one visited pair gains, and no other, the new offloading core is that of the pair. -/
theorem newOffloading_of_step (h : Visited σ P l) (w e w' e' : ℕ)
    (hP : P w' e' ∨ w' = w ∧ e' = e) (hg : Gains σ σ.newO w' e')
    (huniq : ∀ e'', P w' e'' ∨ w' = w ∧ e'' = e → Gains σ σ.newO w' e'' → e'' = e') :
    (relationLose σ w e (relationGain σ w e l)).newOffloadingFromWorking w' = e' := by
  rw [(relationLose_told w e).2]
  unfold relationGain
  split
  · next hg' =>
    dsimp only
    by_cases hw : w' = w
    · -- the entry of this iteration is the single gain
      subst hw
      rw [Function.update_self]
      exact huniq e (Or.inr ⟨rfl, rfl⟩) hg'
    · rw [Function.update_of_ne hw]
      exact h.newOffloading_of w' e' (hP.resolve_right fun h => hw h.1) hg fun e'' hP'' =>
        huniq e'' (Or.inl hP'')
  · next hg' =>
    have hP' : P w' e' := hP.resolve_right (by rintro ⟨rfl, rfl⟩; exact hg' hg)
    exact h.newOffloading_of w' e' hP' hg fun e'' hP'' => huniq e'' (Or.inl hP'')

/-- **An iteration visits its entry.** -/
theorem step (h : Visited σ P l) (w e : ℕ) : Visited σ (fun w' e' => P w' e' ∨ w' = w ∧ e' = e)
    (relationLose σ w e (relationGain σ w e l)) where
  posted := h.posted_step w e
  mailed := h.mailed_step w e
  transferOffloading := h.transferOffloading_step w e
  newOffloading_same := h.newOffloading_same_step w e
  newOffloading_of := h.newOffloading_of_step w e

/-- The loops of `update_relationship` visit every entry. -/
theorem loops (cfg : Cfg) (σ : Sys D) :
    Visited σ (fun w e => w < cfg.totalCores ∧ e < cfg.totalCores)
      (forRange cfg.totalCores
        (fun w => forRange cfg.totalCores fun e l => relationLose σ w e (relationGain σ w e l))
        ⟨σ.newOffloadingFromWorking, σ.transferOffloading, σ.toRemoveQueue, σ.posted⟩) := by
  refine forRange_rule (fun k l => Visited σ (fun w e => w < k ∧ e < cfg.totalCores) l)
    (start.congr (by simp)) ?_
  rintro w - l hl
  -- the entries of the row before `e` join those of the rows before `w`
  have hrow := forRange_rule (n := cfg.totalCores) (s := l)
    (f := fun e l => relationLose σ w e (relationGain σ w e l))
    (fun k l => Visited σ (fun w' e => w' < w ∧ e < cfg.totalCores ∨ w' = w ∧ e < k) l)
    (hl.congr (by simp)) ?_
  · refine hrow.congr fun w' e => ?_
    rw [Nat.lt_succ_iff_lt_or_eq, or_and_right]
  · rintro e - l' hl'
    refine (hl'.step w e).congr fun w' e' => ?_
    rw [Nat.lt_succ_iff_lt_or_eq, and_or_left, or_assoc]

end Visited

/-! ## The epoch

The rest of an epoch has nothing to do with the relationship.
-/

/-- A part of an epoch outside `update_relationship`. -/
structure Unrelated (σ σ' : Sys D) : Prop where
  /-- no request is posted -/
  mail : SameMail σ σ'
  /-- the relation -/
  O : σ'.O = σ.O
  /-- `transfer_offloading` -/
  transferOffloading : σ'.transferOffloading = σ.transferOffloading
  /-- the controller's view of the relation -/
  offloadingFromWorking : σ'.offloadingFromWorking = σ.offloadingFromWorking
  /-- static copies of the rings -/
  queues : σ'.queues = σ.queues

namespace Unrelated

variable {σ₁ σ₂ σ₃ : Sys D}

theorem refl (σ : Sys D) : Unrelated σ σ := ⟨.refl σ, rfl, rfl, rfl, rfl⟩

theorem trans (h : Unrelated σ₁ σ₂) (h' : Unrelated σ₂ σ₃) : Unrelated σ₁ σ₃ :=
  ⟨h.mail.trans h'.mail, h'.O.trans h.O, h'.transferOffloading.trans h.transferOffloading,
    h'.offloadingFromWorking.trans h.offloadingFromWorking, h'.queues.trans h.queues⟩

/-- A change of shards, tables and numbers. -/
theorem of_rfl {shards : ℕ → ShardInfo D} {transferR transferShard signals : ℕ → Bool}
    {A newA newO' : ℕ → ℕ → ℕ} {conf : ℕ → RetaGroup} {nic : ℕ → ℕ} {Tr Tp : D}
    {epoch flows bytes packets last : UInt32} :
    Unrelated σ { σ with
      shards := shards, transferR := transferR, transferShard := transferShard
      controllerSignal := signals, newA := newA, newO := newO', A := A, retaConf := conf
      nicReta := nic, Tr := Tr, Tp := Tp, epoch := epoch, totalFlows := flows
      totalBytes := bytes, totalPackets := packets, lastTotalpackets := last } :=
  ⟨.of_worker rfl rfl rfl rfl rfl rfl, rfl, rfl, rfl, rfl⟩

end Unrelated

/-- What an epoch does to the relation when `newO` is asked for. -/
structure Related (cfg : Cfg) (newO : ℕ → ℕ → ℕ) (σ σ' : Sys D) : Prop where
  /-- the relation asked for is in force -/
  O : ∀ e < cfg.totalCores, ∀ w < cfg.totalCores, σ'.O e w = newO e w
  /-- rings are removed from the offloading cores that lose them -/
  posted : ∀ e, ∃ rs : List RingId, σ'.posted e = σ.posted e ++ rs.map .remove ∧
    ∀ r ∈ rs, ∃ w, Loses σ newO w e ∧ r = σ.queues w
  /-- the control rings follow -/
  mailed : Mailed σ → Mailed σ'
  /-- the cores that gain an offloading core are told -/
  transferOffloading : ∀ w, σ'.transferOffloading w = true ↔ σ.transferOffloading w = true ∨
    w < cfg.totalCores ∧ ∃ e < cfg.totalCores, Gains σ newO w e
  /-- the others are not -/
  newOffloading_same : ∀ w, (∀ e < cfg.totalCores, ¬ Gains σ newO w e) →
    σ'.newOffloadingFromWorking w = σ.newOffloadingFromWorking w
  /-- a core that gains a single offloading core is told which -/
  newOffloading_of : ∀ w < cfg.totalCores, ∀ e < cfg.totalCores, Gains σ newO w e →
    (∀ e' < cfg.totalCores, Gains σ newO w e' → e' = e) → σ'.newOffloadingFromWorking w = e

/-- What happens before and after does not matter to the relation. -/
theorem Related.congr {σ₁ σ₂ σ₃ : Sys D} (h₁ : Unrelated σ σ₁) (h : Related cfg newO σ₁ σ₂)
    (h₃ : Unrelated σ₂ σ₃) : Related cfg newO σ σ₃ := by
  have hgains : ∀ w e, Gains σ₁ newO w e ↔ Gains σ newO w e := by
    intro w e
    rw [Gains, Gains, h₁.O, h₁.offloadingFromWorking]
  refine ⟨fun e he w hw => ?_, fun e => ?_, fun hm => ?_, fun w => ?_, fun w hno => ?_,
    fun w hw e he hg huniq => ?_⟩
  · rw [h₃.O, h.O e he w hw]
  · obtain ⟨rs, hrs, hmem⟩ := h.posted e
    refine ⟨rs, by rw [h₃.mail.posted, hrs, h₁.mail.posted], fun r hr => ?_⟩
    obtain ⟨w, hl, hq⟩ := hmem r hr
    rw [Loses, h₁.O] at hl
    exact ⟨w, hl, by rw [hq, h₁.queues]⟩
  · exact h₃.mail.mailed (h.mailed (h₁.mail.mailed hm))
  · rw [h₃.transferOffloading, h.transferOffloading, h₁.transferOffloading]
    simp only [hgains]
  · rw [h₃.mail.newOffloading, h.newOffloading_same w fun e he => by rw [hgains]; exact hno e he,
      h₁.mail.newOffloading]
  · rw [h₃.mail.newOffloading]
    refine h.newOffloading_of w hw e he ((hgains w e).mpr hg) fun e' he' hg' => ?_
    exact huniq e' he' ((hgains w e').mp hg')

/-- With the relation that is in force nothing is told. -/
theorem Related.of_unrelated (h : Unrelated σ σ')
    (hO : ∀ e < cfg.totalCores, ∀ w < cfg.totalCores, σ.O e w = newO e w) :
    Related cfg newO σ σ' := by
  have hno : ∀ w < cfg.totalCores, ∀ e < cfg.totalCores, ¬ Gains σ newO w e := by
    rintro w hw e he ⟨h0, h1, -⟩
    rw [hO e he w hw, h1] at h0
    cases h0
  refine ⟨fun e he w hw => by rw [h.O, hO e he w hw],
    fun e => ⟨[], by rw [h.mail.posted]; simp, by simp⟩, h.mail.mailed, fun w => ?_,
    fun w _ => by rw [h.mail.newOffloading], fun w hw e he hg => absurd hg (hno w hw e he)⟩
  rw [h.transferOffloading]
  exact ⟨Or.inl, fun h => h.resolve_right fun ⟨hw, e, he, hg⟩ => hno w hw e he hg⟩

/-- **`update_relationship`** posts and tells what the relation asked for demands. -/
theorem updateRelationship_related : Related cfg σ.newO σ (updateRelationship cfg σ).1 := by
  unfold updateRelationship
  split
  · next hsame =>
    refine .of_unrelated (.refl σ) fun e he w hw => ?_
    have hsame' : ∀ e < cfg.totalCores, ∀ w < cfg.totalCores, σ.newO e w = σ.O e w := by
      simpa [sameRelation] using hsame
    exact (hsame' e he w hw).symm
  · have hv := Visited.loops cfg σ
    refine ⟨fun e _ w _ => rfl, fun e => ?_, fun hm => (hv.mailed hm).congr rfl rfl rfl,
      fun w => ?_, fun w hno => ?_, fun w hw e he hg huniq => ?_⟩
    · obtain ⟨rs, hrs, hmem⟩ := hv.posted e
      refine ⟨rs, hrs, fun r hr => ?_⟩
      obtain ⟨w, -, hl, hq⟩ := hmem r hr
      exact ⟨w, hl, hq⟩
    · refine (hv.transferOffloading w).trans (or_congr_right ?_)
      exact ⟨fun ⟨e, ⟨hw, he⟩, hg⟩ => ⟨hw, e, he, hg⟩, fun ⟨hw, e, he, hg⟩ => ⟨e, ⟨hw, he⟩, hg⟩⟩
    · exact hv.newOffloading_same w fun e he hg => hno e he.2 hg
    · exact hv.newOffloading_of w e ⟨hw, he⟩ hg fun e' he' hg' => huniq e' he'.2 hg'

/-- Marking shards changes nothing about the offloading cores. -/
theorem updateShards_unrelated : Unrelated σ (updateShards cfg σ).1 := by
  unfold updateShards
  split
  · exact .refl σ
  · exact .of_rfl

variable [Double D]

/-- Adding up volumes changes nothing about the offloading cores. -/
theorem volumeShards_unrelated : Unrelated σ (volumeShards cfg σ) := by
  unfold volumeShards
  split
  · exact .refl σ
  · split <;> exact .of_rfl

/-- The relation an epoch puts in force. -/
def askedO (cfg : Cfg) (ans : Option (Answer D)) (σ : Sys D) : ℕ → ℕ → ℕ :=
  match ans with
  | some ans => if cfg.solver then ans.O else σ.O
  | none => σ.O

/-- **An answer relates** the cores as its matrix says. -/
theorem applyAnswer_related (ans : Answer D) : Related cfg ans.O σ (applyAnswer cfg ans σ) := by
  have h₁ : Unrelated σ (updateRatio cfg (runShortSolver cfg ans σ)).1 := .of_rfl
  have h₂ : Related cfg ans.O σ
      (updateRelationship cfg (updateRatio cfg (runShortSolver cfg ans σ)).1).1 :=
    .congr h₁ (updateRelationship_related (σ := (updateRatio cfg (runShortSolver cfg ans σ)).1))
      (.refl _)
  unfold applyAnswer
  dsimp only
  split
  · exact .congr (.refl σ) h₂ (updateShards_unrelated.trans .of_rfl)
  · exact .congr (.refl σ) h₂ updateShards_unrelated

/-- **An epoch** does to the relation what the solver asks for. -/
theorem updateShortEpoch_related (cfg : Cfg) (σ : Sys D) (ans : Option (Answer D))
    (vec : ℕ → List FlowKey) :
    Related cfg (askedO cfg ans σ) σ (updateShortEpoch cfg ans vec σ) := by
  have h₁ : Unrelated σ (volumeShards cfg (swapShards cfg σ)) :=
    (show Unrelated σ (swapShards cfg σ) from .of_rfl).trans volumeShards_unrelated
  have h₃ : ∀ (σ : Sys D) (n : UInt32),
      Unrelated σ (clearFlows cfg (orderShards cfg vec { σ with epoch := n })) := fun _ _ => .of_rfl
  have hsame : ∀ e < cfg.totalCores, ∀ w < cfg.totalCores,
      (volumeShards cfg (swapShards cfg σ)).O e w = σ.O e w := by
    intro e _ w _
    rw [h₁.O]
  unfold updateShortEpoch askedO
  cases ans with
  | none => exact .congr h₁ (.of_unrelated (.refl _) hsame) (h₃ _ _)
  | some ans =>
    dsimp only
    split
    · exact .congr h₁ (applyAnswer_related ans) (h₃ _ _)
    · exact .congr h₁ (.of_unrelated (.refl _) hsame) (h₃ _ _)

end Controller

end Fajita
