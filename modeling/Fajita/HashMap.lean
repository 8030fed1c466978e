import Mathlib.Data.List.Basic
import Mathlib.Logic.Basic

/-!
# Hash maps whose hash need not fit the equality

A hash map goes where the hash of a key leads, and takes the first key on its way that is *equal* to
the one it looks for. If equal keys have equal hashes, then it finds a key exactly if an equal one
has been inserted. A map that is given a hash and an equality that do not fit promises nothing of
the kind: whether it finds an equal key with another hash, and which one, depends on its size and on
what else has been inserted.

* `Finds` is what can be said of a lookup in any case, as a relation between the keys that have been
  inserted, the key that is looked up and the one that is found.
* `Finds.eq` is what follows where no other key is equal (`Alone`): the map is a map.
* `setEntry` is `map[f] = v`, for a lookup that has come to `slot`.
-/

namespace Fajita

variable {K V : Type*} {same : K → K → Prop} {has : K → Prop} {f : K} {hit : Option K}

/-- What a lookup of `f` may come to. -/
structure Finds (same : K → K → Prop) (has : K → Prop) (f : K) (hit : Option K) : Prop where
  /-- a key that has been inserted, and is equal -/
  sound : ∀ g ∈ hit, has g ∧ same g f
  /-- something, if `f` has been inserted with the hash it is looked up with -/
  complete : has f → hit.isSome = true

instance [DecidableRel same] [DecidablePred has] : Decidable (Finds same has f hit) :=
  decidable_of_iff ((∀ g ∈ hit, has g ∧ same g f) ∧ (has f → hit.isSome = true))
    ⟨fun ⟨h₁, h₂⟩ => ⟨h₁, h₂⟩, fun ⟨h₁, h₂⟩ => ⟨h₁, h₂⟩⟩

/-- No other key in the map is equal to `f`. -/
def Alone (same : K → K → Prop) (has : K → Prop) (f : K) : Prop := ∀ g, has g → same g f → g = f

/-- **Where no other key is equal, a lookup finds the key** exactly if it has been inserted. -/
theorem Finds.eq [Decidable (has f)] (h : Finds same has f hit) (halone : Alone same has f) :
    hit = if has f then some f else none := by
  cases hit with
  | none =>
    rw [if_neg]
    intro hf
    cases h.complete hf
  | some g =>
    obtain ⟨hg, hsame⟩ := h.sound g rfl
    obtain rfl := halone g hg hsame
    rw [if_pos hg]

/-- Where a key has no equal but itself, the entry that is found, or made, has the key itself. -/
theorem Finds.getD_eq (h : Finds same has f hit) (halone : Alone same has f) : hit.getD f = f := by
  classical
  rw [h.eq halone]
  split <;> rfl

/-- The key itself may be found in any case. -/
theorem Finds.of_self [Decidable (has f)] (hrefl : same f f) :
    Finds same has f (if has f then some f else none) where
  sound g hg := by
    by_cases hf : has f
    · rw [if_pos hf] at hg
      obtain rfl := Option.some.inj hg
      exact ⟨hf, hrefl⟩
    · rw [if_neg hf] at hg
      cases hg
  complete hf := by
    rw [if_pos hf]
    rfl

variable [DecidableEq K]

/-- `map[f] = v`, where the lookup of `f` has come to `slot`: the entry keeps its key and gets the
value, or there is a new entry. -/
def setEntry (slot : Option K) (f : K) (v : V) (entries : List (K × V)) : List (K × V) :=
  match slot with
  | some g => entries.map fun x => if x.1 = g then (g, v) else x
  | none => entries ++ [(f, v)]

/-- Where each key is its own value, and no other is equal to `f`, that is an insertion
into a set. -/
theorem setEntry_self {entries : List (K × K)} {slot : Option K} (hself : ∀ x ∈ entries, x.1 = x.2)
    (h : Finds same (· ∈ entries.map Prod.fst) f slot)
    (halone : Alone same (· ∈ entries.map Prod.fst) f) :
    setEntry slot f f entries =
      if f ∈ entries.map Prod.fst then entries else entries ++ [(f, f)] := by
  rw [h.eq halone]
  by_cases hf : f ∈ entries.map Prod.fst
  · rw [if_pos hf, if_pos hf, setEntry]
    conv_rhs => rw [← List.map_id entries]
    refine List.map_congr_left fun x hx => ?_
    split
    · next hxf => exact Prod.ext hxf.symm (hxf.symm.trans (hself x hx))
    · rfl
  · rw [if_neg hf, if_neg hf, setEntry]

end Fajita
