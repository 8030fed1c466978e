import Fajita.Cow
import Mathlib.Logic.Function.Basic

/-!
# Handles and their owners

Clients that hold one handle each, of which no two hold the same: `Owned` says so, and that the
contents of each owner's handle are as `Q` has it. What a client does with its own handle leaves
the others as they were, so a step is accounted for by what it does to one owner; there is one
rule for each operation.

A client that writes without `uniqueify` writes for all who share with it. `Overwrites` is what
can be said then: a handle sees the new contents or what it saw before. So `Owned.overwrite` asks
that the writing keep `Q` for all owners.
-/

namespace Fajita

namespace Cow

universe u v w

variable {M : Type u} {Ref : Type v} {α : Type w} {ι κ : Type*}

/-- Each owner has a handle of its own, with contents that are right for this owner. -/
structure Owned (P : Cow M Ref α) (live : M → Ref → Prop) (own : ι → Option Ref)
    (Q : ι → α → Prop) (m : M) : Prop where
  /-- the handles are in use -/
  inUse : ∀ {i r}, own i = some r → live m r
  /-- and refer to the right contents -/
  contents : ∀ {i r}, own i = some r → Q i (P.data m r)
  /-- two owners have two handles -/
  apart : ∀ {i j r}, own i = some r → own j = some r → i = j

/-- Writing through a handle that others may share with: they see all of it or nothing. -/
def Overwrites (P : Cow M Ref α) (live : M → Ref → Prop) : Prop :=
  ∀ {m p} (x : α), live m p → ∀ r, live m r → live (P.write m p x) r ∧
    (P.data (P.write m p x) r = P.data m r ∨
      P.data m r = P.data m p ∧ P.data (P.write m p x) r = x)

namespace Owned

variable {P : Cow M Ref α} {live alone : M → Ref → Prop} {own : ι → Option Ref}
  {Q Q' : ι → α → Prop} {m m' : M} {i : ι} {p q : Ref}

/-- No owners. -/
theorem none : P.Owned live (fun _ : ι => Option.none) Q m where
  inUse h := nomatch h
  contents h := nomatch h
  apart h := nomatch h

theorem mono (h : P.Owned live own Q m)
    (hQ : ∀ {i r}, own i = some r → Q i (P.data m r) → Q' i (P.data m r)) :
    P.Owned live own Q' m where
  inUse := h.inUse
  contents hr := hQ hr (h.contents hr)
  apart := h.apart

/-- What `make` does is of no concern to the handles that there are. -/
theorem congr (h : P.Owned live own Q m) {P' : Cow M Ref α} (hdata : P'.data = P.data) :
    P'.Owned live own Q m where
  inUse := h.inUse
  contents hr := by
    rw [hdata]
    exact h.contents hr
  apart := h.apart

/-- Fewer owners, or under other names. -/
theorem comap (h : P.Owned live own Q m) (own' : κ → Option Ref) (f : κ → ι)
    (hf : ∀ k k', f k = f k' → k = k') (hown : ∀ k r, own' k = some r → own (f k) = some r) :
    P.Owned live own' (fun k => Q (f k)) m where
  inUse hr := h.inUse (hown _ _ hr)
  contents hr := h.contents (hown _ _ hr)
  apart hr hr' := hf _ _ (h.apart (hown _ _ hr) (hown _ _ hr'))

variable [DecidableEq ι]

/-- An owner gets another handle, in a memory in which the other owners find what they had. -/
theorem put (h : P.Owned live own Q m) (hlive : live m' q) (hq : Q' i (P.data m' q))
    (hQ : ∀ j ≠ i, ∀ x, Q j x → Q' j x)
    (hothers : ∀ j ≠ i, ∀ r, own j = some r → r ≠ q ∧ live m' r ∧ P.data m' r = P.data m r) :
    P.Owned live (Function.update own i (some q)) Q' m' := by
  have hcases : ∀ {j r}, Function.update own i (some q) j = some r →
      (j = i ∧ r = q) ∨ (j ≠ i ∧ own j = some r) := by
    intro j r hr
    rcases eq_or_ne j i with rfl | hji
    · rw [Function.update_self] at hr
      exact .inl ⟨rfl, (Option.some.inj hr).symm⟩
    · rw [Function.update_of_ne hji] at hr
      exact .inr ⟨hji, hr⟩
  refine ⟨fun hr => ?_, fun hr => ?_, fun hr hr' => ?_⟩
  · obtain ⟨rfl, rfl⟩ | ⟨hji, hold⟩ := hcases hr
    · exact hlive
    · exact (hothers _ hji _ hold).2.1
  · obtain ⟨rfl, rfl⟩ | ⟨hji, hold⟩ := hcases hr
    · exact hq
    · rw [(hothers _ hji _ hold).2.2]
      exact hQ _ hji _ (h.contents hold)
  · obtain ⟨rfl, rfl⟩ | ⟨hji, hold⟩ := hcases hr
    · obtain ⟨rfl, -⟩ | ⟨hji', hold'⟩ := hcases hr'
      · rfl
      · exact absurd rfl (hothers _ hji' _ hold').1
    · obtain ⟨rfl, rfl⟩ | ⟨-, hold'⟩ := hcases hr'
      · exact absurd rfl (hothers _ hji _ hold).1
      · exact h.apart hold hold'

/-- An owner's handle is replaced; handles that are not this one are not concerned. -/
theorem replace (h : P.Owned live own Q m) (hi : own i = some p) (hlive : live m' q)
    (hq : Q' i (P.data m' q)) (hQ : ∀ j ≠ i, ∀ x, Q j x → Q' j x)
    (hothers : ∀ r, live m r → r ≠ p → r ≠ q ∧ live m' r ∧ P.data m' r = P.data m r) :
    P.Owned live (Function.update own i (some q)) Q' m' :=
  h.put hlive hq hQ fun _ hji _ hr =>
    hothers _ (h.inUse hr) fun heq => hji (h.apart hr (heq ▸ hi))

/-- A new handle. -/
theorem add (h : P.Owned live own Q m) (hfresh : ¬ live m q) (hlive : live m' q)
    (hq : Q i (P.data m' q))
    (hothers : ∀ r, live m r → live m' r ∧ P.data m' r = P.data m r) :
    P.Owned live (Function.update own i (some q)) Q m' :=
  h.put hlive hq (fun _ _ _ hx => hx) fun _ _ _ hr =>
    ⟨fun heq => hfresh (heq ▸ h.inUse hr), hothers _ (h.inUse hr)⟩

/-- `make`, and the new handle's first contents. -/
theorem make (h : P.Owned live own Q m) (hlaw : P.Lawful live alone)
    (hmake : P.make m = some (q, m')) (x : α) (hx : Q i x) :
    P.Owned live (Function.update own i (some q)) Q (P.write m' q x) := by
  obtain ⟨hfresh, hlive, halone, hothers⟩ := hlaw.make hmake
  obtain ⟨hlive', hdata, hothers'⟩ := hlaw.write x hlive halone
  refine h.add hfresh hlive' (by rwa [hdata]) fun r hr => ?_
  obtain ⟨hr', hsame⟩ := hothers r hr
  obtain ⟨hr'', hsame'⟩ := hothers' r hr' fun heq => hfresh (heq ▸ hr)
  exact ⟨hr'', hsame'.trans hsame⟩

/-- `uniqueify`, and the contents rewritten. -/
theorem modify (h : P.Owned live own Q m) (hlaw : P.Lawful live alone) (hi : own i = some p)
    (f : α → α) (hf : Q i (P.data m p) → Q i (f (P.data m p))) :
    P.Owned live (Function.update own i (some (P.modify f m p).1)) Q (P.modify f m p).2 := by
  obtain ⟨hlive, hdata, hothers⟩ := modify_spec hlaw f (h.inUse hi)
  refine h.replace hi hlive ?_ (fun _ _ _ hx => hx) hothers
  rw [hdata]
  exact hf (h.contents hi)

/-- A second handle, for another owner. -/
theorem clone (h : P.Owned live own Q m) (hlaw : P.Lawful live alone) {j : ι}
    (hj : own j = some p) (hi : Q i (P.data m p)) :
    P.Owned live (Function.update own i (some (P.clone m p).1)) Q (P.clone m p).2 := by
  obtain ⟨hfresh, hlive, hdata, hothers⟩ := hlaw.clone (h.inUse hj)
  refine h.add hfresh hlive ?_ hothers
  rwa [hdata]

omit [DecidableEq ι] in
/-- An owner gives up its handle. -/
theorem kill (h : P.Owned live own Q m) (hlaw : P.Lawful live alone) (hi : own i = some p)
    {own' : ι → Option Ref} (hown : ∀ j r, own' j = some r → j ≠ i ∧ own j = some r) :
    P.Owned live own' Q (P.kill m p) := by
  have hkept : ∀ {j r}, own' j = some r → live (P.kill m p) r ∧
      P.data (P.kill m p) r = P.data m r := fun hr => by
    obtain ⟨hji, hr⟩ := hown _ _ hr
    exact hlaw.kill _ (h.inUse hr) fun heq => hji (h.apart hr (heq ▸ hi))
  refine ⟨fun hr => (hkept hr).1, fun hr => ?_, fun hr hr' => ?_⟩
  · rw [(hkept hr).2]
    exact h.contents (hown _ _ hr).2
  · exact h.apart (hown _ _ hr).2 (hown _ _ hr').2

omit [DecidableEq ι] in
/-- **Writing for all who share**, where all owners may see the new contents. -/
theorem overwrite (h : P.Owned live own Q m) (hover : P.Overwrites live) (hi : own i = some p)
    {f : α → α} (hf : ∀ j x, Q j x → Q j (f x)) :
    P.Owned live own Q (P.write m p (f (P.data m p))) := by
  refine ⟨fun hr => (hover _ (h.inUse hi) _ (h.inUse hr)).1, fun hr => ?_, h.apart⟩
  obtain ⟨-, hsame | ⟨hshared, hnew⟩⟩ := hover (f (P.data m p)) (h.inUse hi) _ (h.inUse hr)
  · rw [hsame]
    exact h.contents hr
  · rw [hnew, ← hshared]
    exact hf _ _ (h.contents hr)

end Owned

end Cow

/-! ## Buffers -/

namespace Buffers

/-- A buffer is overwritten for all handles that point to it. -/
theorem cow_overwrites {α : Type*} (x : α) : (cow x).Overwrites Live := by
  intro m p y hp r hr
  obtain ⟨b, hb⟩ := Option.isSome_iff_exists.mp hp
  obtain ⟨c, hc⟩ := Option.isSome_iff_exists.mp hr
  refine ⟨hr, ?_⟩
  change data (m.write p y) r = data m r ∨ data m r = data m p ∧ data (m.write p y) r = y
  rcases eq_or_ne c b with rfl | hcb
  · refine .inr ⟨by rw [data, data, hb, hc], ?_⟩
    simp [data, write, hb, hc]
  · refine .inl ?_
    simp [data, write, hb, hc, hcb]

end Buffers

end Fajita
