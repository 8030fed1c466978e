import Mathlib.Data.List.Basic
import Mathlib.Order.Nat

/-!
# Handles to shared contents

Handles that may share what they refer to: `clone` makes another handle to the same contents,
`uniqueify` turns a handle into one that shares with nobody, and only such a handle may be
written through. `Lawful` is what a client relies on, with the handles that are `live` and those
that are `alone`; it says nothing about how sharing is kept track of.

`modify_spec` is the rule for "uniqueify, then write": the one handle sees the new contents and
no other handle sees a difference. `Buffers` is an implementation with contents that handles
point to, and `cow_lawful` says that it obeys the laws.
-/

namespace Fajita

universe u v w

/-- The operations on handles in `Ref` to contents in `α`, in a memory `M`. -/
structure Cow (M : Type u) (Ref : Type v) (α : Type w) where
  /-- a new handle, if there is room -/
  make : M → Option (Ref × M)
  /-- a second handle to the same contents -/
  clone : M → Ref → Ref × M
  /-- a handle to the same contents that shares with nobody, in place of the given one -/
  uniqueify : M → Ref → Ref × M
  /-- the contents -/
  data : M → Ref → α
  /-- new contents, through a handle that shares with nobody -/
  write : M → Ref → α → M
  /-- the handle is given up -/
  kill : M → Ref → M

namespace Cow

variable {M : Type u} {Ref : Type v} {α : Type w} (P : Cow M Ref α)

/-- What clients rely on, for the handles that are in use and those that share with nobody. -/
structure Lawful (live alone : M → Ref → Prop) : Prop where
  /-- a new buffer is a new handle, in use and alone, and no other buffer changes -/
  make : ∀ {m q m'}, P.make m = some (q, m') → ¬ live m q ∧ live m' q ∧ alone m' q ∧
    ∀ r, live m r → live m' r ∧ P.data m' r = P.data m r
  /-- a clone is a new handle with the same contents -/
  clone : ∀ {m p}, live m p → ¬ live m (P.clone m p).1 ∧ live (P.clone m p).2 (P.clone m p).1 ∧
    P.data (P.clone m p).2 (P.clone m p).1 = P.data m p ∧
    ∀ r, live m r → live (P.clone m p).2 r ∧ P.data (P.clone m p).2 r = P.data m r
  /-- `uniqueify` leads to a handle that is alone, with the same contents -/
  uniqueify : ∀ {m p}, live m p → live (P.uniqueify m p).2 (P.uniqueify m p).1 ∧
    alone (P.uniqueify m p).2 (P.uniqueify m p).1 ∧
    P.data (P.uniqueify m p).2 (P.uniqueify m p).1 = P.data m p ∧
    ∀ r, live m r → r ≠ p → r ≠ (P.uniqueify m p).1 ∧ live (P.uniqueify m p).2 r ∧
      P.data (P.uniqueify m p).2 r = P.data m r
  /-- a write through a handle that is alone changes nothing else -/
  write : ∀ {m p} (x : α), live m p → alone m p → live (P.write m p x) p ∧
    P.data (P.write m p x) p = x ∧
    ∀ r, live m r → r ≠ p → live (P.write m p x) r ∧ P.data (P.write m p x) r = P.data m r
  /-- giving up a handle changes no other -/
  kill : ∀ {m p} r, live m r → r ≠ p → live (P.kill m p) r ∧ P.data (P.kill m p) r = P.data m r

/-- `q = p->uniqueify()`, and the contents rewritten through `q`. -/
def modify (f : α → α) (m : M) (p : Ref) : Ref × M :=
  let u := P.uniqueify m p
  (u.1, P.write u.2 u.1 (f (P.data u.2 u.1)))

variable {P} {live alone : M → Ref → Prop} {m : M} {p : Ref}

/-- **Writing is private**: the handle has the new contents, and all others what they had. -/
theorem modify_spec (h : P.Lawful live alone) (f : α → α) (hp : live m p) :
    live (P.modify f m p).2 (P.modify f m p).1 ∧
      P.data (P.modify f m p).2 (P.modify f m p).1 = f (P.data m p) ∧
      ∀ r, live m r → r ≠ p → r ≠ (P.modify f m p).1 ∧ live (P.modify f m p).2 r ∧
        P.data (P.modify f m p).2 r = P.data m r := by
  obtain ⟨hlive, halone, hdata, hothers⟩ := h.uniqueify hp
  obtain ⟨hlive', hdata', hothers'⟩ := h.write (f (P.data m p)) hlive halone
  rw [modify]
  simp only [hdata]
  refine ⟨hlive', hdata', fun r hr hne => ?_⟩
  obtain ⟨hq, hr', hsame⟩ := hothers r hr hne
  obtain ⟨hr'', hsame'⟩ := hothers' r hr' hq
  exact ⟨hq, hr'', hsame'.trans hsame⟩

end Cow

/-! ## Handles that point to buffers -/

/-- A memory of buffers, and the handles that point to them. -/
structure Buffers (α : Type w) where
  /-- the buffer of a handle in use -/
  handle : ℕ → Option ℕ
  /-- the contents -/
  buffer : ℕ → α
  /-- handles made so far -/
  handles : ℕ
  /-- buffers made so far -/
  buffers : ℕ
  /-- a handle in use has been made, and so has its buffer -/
  made : ∀ {r b}, handle r = some b → r < handles ∧ b < buffers

namespace Buffers

variable {α : Type w} (m : Buffers α)

/-- No handles. -/
def empty (x : α) : Buffers α where
  handle _ := none
  buffer _ := x
  handles := 0
  buffers := 0
  made h := nomatch h

/-- A handle in use. -/
def Live (r : ℕ) : Prop := (m.handle r).isSome

/-- A handle whose buffer no other has. -/
def Alone (p : ℕ) : Prop := ∀ r, m.Live r → m.handle r = m.handle p → r = p

/-- The contents of a handle's buffer. -/
def data (r : ℕ) : α := m.buffer ((m.handle r).getD 0)

/-- A new handle with a buffer of its own. -/
def make (x : α) : Buffers α where
  handle := Function.update m.handle m.handles (some m.buffers)
  buffer := Function.update m.buffer m.buffers x
  handles := m.handles + 1
  buffers := m.buffers + 1
  made {r b} h := by
    rcases eq_or_ne r m.handles with rfl | hr
    · rw [Function.update_self] at h
      obtain rfl := Option.some.inj h
      omega
    · rw [Function.update_of_ne hr] at h
      have := m.made h
      omega

/-- A new handle with the buffer of `p`. -/
def clone (p : ℕ) : Buffers α where
  handle := Function.update m.handle m.handles (m.handle p)
  buffer := m.buffer
  handles := m.handles + 1
  buffers := m.buffers
  made {r b} h := by
    rcases eq_or_ne r m.handles with rfl | hr
    · rw [Function.update_self] at h
      have := m.made h
      omega
    · rw [Function.update_of_ne hr] at h
      have := m.made h
      omega

/-- The handle is no longer in use. -/
def kill (p : ℕ) : Buffers α where
  handle := Function.update m.handle p none
  buffer := m.buffer
  handles := m.handles
  buffers := m.buffers
  made {r b} h := by
    rcases eq_or_ne r p with rfl | hr
    · rw [Function.update_self] at h
      cases h
    · rw [Function.update_of_ne hr] at h
      exact m.made h

/-- New contents for the buffer of `p`. -/
def write (p : ℕ) (x : α) : Buffers α :=
  { m with buffer := Function.update m.buffer ((m.handle p).getD 0) x }

/-- Whether another handle has the buffer of `p`. -/
def shared (p : ℕ) : Bool :=
  (List.range m.handles).any fun r => r != p && (m.handle r == m.handle p)

/-- A handle to a copy in place of `p`, if the buffer is shared. -/
def uniqueify (p : ℕ) : ℕ × Buffers α :=
  if m.shared p then (m.handles, (m.make (m.data p)).kill p) else (p, m)

/-- The operations, where a new buffer holds `x`. -/
def cow (x : α) : Cow (Buffers α) ℕ α where
  make m := some (m.handles, m.make x)
  clone m p := (m.handles, m.clone p)
  uniqueify := uniqueify
  data := data
  write := write
  kill := kill

variable {m} {p r : ℕ} {x : α}

theorem Live.lt (h : m.Live r) : r < m.handles := by
  obtain ⟨b, hb⟩ := Option.isSome_iff_exists.mp h
  exact (m.made hb).1

theorem not_live_handles : ¬ m.Live m.handles := fun h => absurd h.lt (Nat.lt_irrefl _)

/-- What a handle is depends on its buffer. -/
theorem same_of_handle {m' : Buffers α} (h : m'.handle r = m.handle r)
    (hbuffer : ∀ b, m.handle r = some b → m'.buffer b = m.buffer b) (hr : m.Live r) :
    m'.Live r ∧ m'.data r = m.data r := by
  obtain ⟨b, hb⟩ := Option.isSome_iff_exists.mp hr
  refine ⟨by rw [Live, h]; exact hr, ?_⟩
  rw [data, data, h, hb, Option.getD_some, hbuffer b hb]

/-- A new handle leads to a new buffer. -/
theorem make_spec : (m.make x).Live m.handles ∧ (m.make x).Alone m.handles ∧
    (m.make x).data m.handles = x ∧
    ∀ r, m.Live r → (m.make x).handle r = m.handle r ∧ (m.make x).Live r ∧
      (m.make x).data r = m.data r := by
  have hnew : (m.make x).handle m.handles = some m.buffers := Function.update_self ..
  have hold : ∀ r, r ≠ m.handles → (m.make x).handle r = m.handle r := fun r hr =>
    Function.update_of_ne hr ..
  refine ⟨by rw [Live, hnew]; rfl, fun r hr heq => ?_, ?_, fun r hr => ?_⟩
  · by_contra hne
    rw [hnew, hold r hne] at heq
    exact absurd (m.made heq).2 (Nat.lt_irrefl _)
  · rw [data, hnew, Option.getD_some]
    exact Function.update_self ..
  · have hhandle := hold r hr.lt.ne
    exact ⟨hhandle, same_of_handle hhandle
      (fun b hb => Function.update_of_ne (m.made hb).2.ne ..) hr⟩

/-- A handle that has been given up is in use no more. -/
theorem not_live_kill : ¬ (m.kill p).Live p := by
  intro h
  rw [Live, show (m.kill p).handle p = none from Function.update_self ..] at h
  cases h

/-- Giving up a handle leaves the others as they are. -/
theorem kill_spec (hr : m.Live r) (hne : r ≠ p) :
    (m.kill p).handle r = m.handle r ∧ (m.kill p).Live r ∧ (m.kill p).data r = m.data r := by
  have hhandle : (m.kill p).handle r = m.handle r := Function.update_of_ne hne ..
  exact ⟨hhandle, same_of_handle hhandle (fun _ _ => rfl) hr⟩

/-- A clone leads to the same buffer. -/
theorem clone_spec (hp : m.Live p) : (m.clone p).Live m.handles ∧
    (m.clone p).data m.handles = m.data p ∧
    ∀ r, m.Live r → (m.clone p).Live r ∧ (m.clone p).data r = m.data r := by
  have hnew : (m.clone p).handle m.handles = m.handle p := Function.update_self ..
  refine ⟨by rw [Live, hnew]; exact hp, by rw [data, hnew]; rfl, fun r hr => ?_⟩
  exact same_of_handle (Function.update_of_ne hr.lt.ne ..) (fun _ _ => rfl) hr

/-- A write through a handle that is alone changes no contents but its own. -/
theorem write_spec (hp : m.Live p) (halone : m.Alone p) :
    (m.write p x).Live p ∧ (m.write p x).data p = x ∧
    ∀ r, m.Live r → r ≠ p → (m.write p x).Live r ∧ (m.write p x).data r = m.data r := by
  obtain ⟨b, hb⟩ := Option.isSome_iff_exists.mp hp
  refine ⟨hp, Function.update_self .., fun r hr hne => ?_⟩
  refine same_of_handle rfl (fun c hc => ?_) hr
  rw [write, hb, Option.getD_some]
  refine Function.update_of_ne (fun hcb => hne (halone r hr ?_)) ..
  rw [hc, hb, hcb]

/-- The reference count tells whether a handle is alone. -/
theorem alone_of_not_shared (h : m.shared p = false) : m.Alone p := by
  intro r hr heq
  by_contra hne
  rw [shared, List.any_eq_false] at h
  refine h r (List.mem_range.mpr hr.lt) ?_
  rw [heq, beq_self_eq_true, Bool.and_true, bne_iff_ne]
  exact hne

/-- A handle that shares its buffer gets a copy. -/
theorem uniqueify_spec (hp : m.Live p) : (m.uniqueify p).2.Live (m.uniqueify p).1 ∧
    (m.uniqueify p).2.Alone (m.uniqueify p).1 ∧
    (m.uniqueify p).2.data (m.uniqueify p).1 = m.data p ∧
    ∀ r, m.Live r → r ≠ p → r ≠ (m.uniqueify p).1 ∧ (m.uniqueify p).2.Live r ∧
      (m.uniqueify p).2.data r = m.data r := by
  rw [uniqueify]
  split
  · -- the buffer is shared: a copy takes the place of the handle
    obtain ⟨hlive, halone, hdata, hothers⟩ := @make_spec α m (m.data p)
    have hne : m.handles ≠ p := hp.lt.ne'
    obtain ⟨hhandle, hlive', hdata'⟩ := kill_spec hlive hne
    refine ⟨hlive', fun r hr heq => ?_, hdata'.trans hdata, fun r hr hrp => ?_⟩
    · have hrp : r ≠ p := by
        rintro rfl
        exact not_live_kill hr
      have hsame : ((m.make (m.data p)).kill p).handle r = (m.make (m.data p)).handle r :=
        Function.update_of_ne hrp ..
      rw [Live, hsame] at hr
      exact halone r hr (by rw [← hsame, heq, hhandle])
    · obtain ⟨-, hr', hsame⟩ := hothers r hr
      obtain ⟨-, hr'', hsame'⟩ := kill_spec hr' hrp
      exact ⟨hr.lt.ne, hr'', hsame'.trans hsame⟩
  · next hshared =>
    exact ⟨hp, alone_of_not_shared (Bool.eq_false_iff.mpr hshared), rfl,
      fun r hr hrp => ⟨hrp, hr, rfl⟩⟩

/-- **Buffers obey the laws.** -/
theorem cow_lawful (x : α) : (cow x).Lawful Live Alone where
  make h := by
    obtain ⟨rfl, rfl⟩ := Prod.mk.inj (Option.some.inj h)
    obtain ⟨hlive, halone, -, hothers⟩ := make_spec
    exact ⟨not_live_handles, hlive, halone, fun r hr => (hothers r hr).2⟩
  clone hp := ⟨not_live_handles, clone_spec hp⟩
  uniqueify hp := uniqueify_spec hp
  write _ hp halone := write_spec hp halone
  kill _ hr hne := (kill_spec hr hne).2

end Buffers

end Fajita
