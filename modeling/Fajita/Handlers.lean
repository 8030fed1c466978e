import Fajita.Packets
import Fajita.Rotation

/-!
# Handlers of the generator

What the router and the write handlers do with the generator: `initialize`, `cleanup_flows`, and
the handlers `length`, `srceth` and `dsteth`. They change the configuration, so the element comes
with its own here.

`initialize` allocates `_flows` without writing to it, and returns as soon as there is no packet
to be had; `cleanup_flows` reads the `packet` of every entry. So after a failure it reads entries
that have never been written: what it gives up is what has been created, and whatever the entries
behind hold (`cleanupFlows_failed`). No failure is cleaned up after as it should be
(`not_cleansUp`).
-/

namespace Fajita

namespace FastUdp

variable {M Ref : Type}

/-- The element and its configuration. -/
structure Element (M Ref : Type) where
  /-- the configuration, with `_len` and `_ethh` as they are now -/
  cfg : Config
  /-- memory, `_flows` and the rotation -/
  gen : Gen M Ref
  /-- whether `_flows` is an array -/
  allocated : Bool

/-- After `configure`. -/
def Element.new (cfg : Config) (m : M) : Element M Ref := ⟨cfg, Gen.new m, false⟩

/-- Packets of the given length, where `make` is `Packet::make`. -/
def Click.sized (click : Click M Ref) (make : UInt32 → M → Option (Ref × M)) (len : UInt32) :
    Click M Ref :=
  { click with make := make len }

/-- What `cleanup_flows` has done. -/
structure Cleanup (M Ref : Type) where
  /-- memory -/
  mem : M
  /-- the packets that have been killed -/
  killed : List Ref
  /-- the entries that have been read and had not been written -/
  unwritten : List ℕ

namespace Element

variable (click : Click M Ref) (make : UInt32 → M → Option (Ref × M)) (stray : ℕ → Option Ref)

/-- `initialize`, and whether it returns 0. -/
def initializeElement (e : Element M Ref) : Bool × Element M Ref :=
  let r := initializeFlows e.cfg (click.sized make e.cfg.len) e.gen
  (r.1, { e with gen := r.2, allocated := true })

/-- What the pointer `_flows[i].packet` is, where entries that have not been written hold
`stray`. -/
def packetAt (e : Element M Ref) (i : ℕ) : Option Ref :=
  match e.gen.flows i with
  | some fl => some fl.packet
  | none => stray i

/-- An iteration of `cleanup_flows`. -/
def cleanupEntry (e : Element M Ref) (i : ℕ) (c : Cleanup M Ref) : Cleanup M Ref where
  mem := (e.packetAt stray i).elim c.mem (click.kill c.mem)
  killed := c.killed ++ (e.packetAt stray i).toList
  unwritten := c.unwritten ++ if (e.gen.flows i).isSome then [] else [i]

/-- `cleanup_flows` -/
def cleanupFlows (e : Element M Ref) : Cleanup M Ref × Element M Ref :=
  if e.allocated then
    let c := forRange e.cfg.nflows.toNat (e.cleanupEntry click stray) ⟨e.gen.mem, [], []⟩
    (c, { e with
      gen := { e.gen with mem := c.mem, flows := fun _ => none }
      allocated := false })
  else (⟨e.gen.mem, [], []⟩, e)

/-- `set_length` -/
def setLength (len : UInt32) (e : Element M Ref) : Element M Ref :=
  { e with cfg := { e.cfg with len := if len < 60 then 60 else len } }

/-- `length_write_handler` up to its call of `initialize`, if it comes to that. -/
def lengthWrite (len : UInt32) (e : Element M Ref) : Option (Element M Ref) :=
  if len ≠ e.cfg.len then some ((e.setLength len).cleanupFlows click stray).2 else none

/-- The copying in `eth_write_handler`: both addresses, into the packet of each flow. After a
successful `initialize` all entries have been written. -/
def copyEth (e : Element M Ref) : Element M Ref :=
  if e.allocated then
    { e with gen := { e.gen with
        mem := forRange e.cfg.nflows.toNat (fun i mem =>
          match e.gen.flows i with
          | some fl => click.write mem fl.packet { click.data mem fl.packet with
              etherShost := e.cfg.etherShost
              etherDhost := e.cfg.etherDhost }
          | none => mem) e.gen.mem } }
  else e

/-- `eth_write_handler` with the parameter 0, for `srceth`. -/
def srcethWrite (addr : ℕ) (e : Element M Ref) : Element M Ref :=
  copyEth click { e with cfg := { e.cfg with etherShost := addr } }

/-- `eth_write_handler` with the parameter 1, for `dsteth`. -/
def dstethWrite (addr : ℕ) (e : Element M Ref) : Element M Ref :=
  copyEth click { e with cfg := { e.cfg with etherDhost := addr } }

/-! ## Failures -/

/-- Who calls `initialize`. -/
inductive Caller
  /-- the router -/
  | router
  /-- `length_write_handler`, with a length -/
  | lengthWriteHandler (len : UInt32)

/-- The call of `initialize`, if there is one. The handler passes on a null `errh`, at which the
error is reported; what is said here is on the premise that it returns from that. -/
def initializeBy (e : Element M Ref) : Caller → Option (Bool × Element M Ref)
  | .router => some (e.initializeElement click make)
  | .lengthWriteHandler len => (e.lengthWrite click stray len).map (initializeElement click make)

/-- The packets that `initialize` has created. -/
def created (e : Element M Ref) : List Ref :=
  (List.range e.cfg.nflows.toNat).filterMap fun i => (e.gen.flows i).map Flow.packet

/-- `cleanup_flows` cleans up exactly. -/
structure CleansUp (e : Element M Ref) : Prop where
  /-- each packet that has been created is killed, once -/
  killed : (e.cleanupFlows click stray).1.killed.Perm e.created
  /-- no pointer is read that has not been written -/
  written : (e.cleanupFlows click stray).1.unwritten = []
  /-- `_flows` is null -/
  null : (e.cleanupFlows click stray).2.allocated = false

/-- `Packet::make` has failed at entry `k`. -/
structure FailedAt (k : ℕ) (e : Element M Ref) : Prop where
  /-- there are entries left -/
  lt : k < e.cfg.nflows.toNat
  /-- those before have been written, and no others -/
  filled : ∀ i, (e.gen.flows i).isSome = true ↔ i < k
  /-- no packet is to be had -/
  full : make e.cfg.len e.gen.mem = none
  /-- the array is there -/
  allocated : e.allocated = true

section

variable {click make stray} {e e' : Element M Ref}

/-- Where the loop of `initialize` fails. -/
theorem initFlows_failed {cfg : Config} {s s' : Gen M Ref} {n i : ℕ} {sport : UInt16}
    (hs : ∀ j, (s.flows j).isSome = true ↔ j < i)
    (hinit : initFlows cfg click n i sport s = (false, s')) :
    ∃ k < i + n, (∀ j, (s'.flows j).isSome = true ↔ j < k) ∧ click.make s'.mem = none := by
  induction n generalizing i sport s with
  | zero => cases (Prod.mk.inj hinit).1
  | succ n ih =>
    rw [initFlows] at hinit
    split at hinit
    · next hmake =>
      obtain rfl := (Prod.mk.inj hinit).2
      exact ⟨i, by omega, hs, hmake⟩
    · next q mem hmake =>
      have hs' : ∀ j, (Function.update s.flows i (some ⟨q, 0⟩) j).isSome = true ↔ j < i + 1 := by
        intro j
        rcases eq_or_ne j i with rfl | hji
        · simp
        · rw [Function.update_of_ne hji, hs j]
          omega
      obtain ⟨k, hk, hfilled, hfull⟩ := ih hs' hinit
      exact ⟨k, by omega, hfilled, hfull⟩

theorem initializeElement_failed (h : e.initializeElement click make = (false, e')) :
    ∃ k, FailedAt make k e' := by
  obtain ⟨hfail, rfl⟩ := Prod.mk.inj h
  have hrun : initializeFlows e.cfg (click.sized make e.cfg.len) e.gen =
      (false, (initializeFlows e.cfg (click.sized make e.cfg.len) e.gen).2) := Prod.ext hfail rfl
  obtain ⟨k, hk, hfilled, hfull⟩ := initFlows_failed (by simp) hrun
  exact ⟨k, by simpa using hk, hfilled, hfull, rfl⟩

/-- **Every failure** leaves an entry that has not been written. -/
theorem initializeBy_failed {caller : Caller}
    (h : e.initializeBy click make stray caller = some (false, e')) : ∃ k, FailedAt make k e' := by
  cases caller with
  | router => exact initializeElement_failed (Option.some.inj h)
  | lengthWriteHandler len =>
    obtain ⟨e₁, -, h₁⟩ := Option.map_eq_some_iff.mp h
    exact initializeElement_failed h₁

/-- What `cleanup_flows` does. -/
theorem cleanupFlows_log (h : e.allocated = true) :
    (e.cleanupFlows click stray).1.killed =
        (List.range e.cfg.nflows.toNat).filterMap (e.packetAt stray) ∧
      (e.cleanupFlows click stray).1.unwritten =
        (List.range e.cfg.nflows.toNat).filter (fun i => !(e.gen.flows i).isSome) ∧
      (e.cleanupFlows click stray).2.allocated = false := by
  rw [cleanupFlows, if_pos h]
  have hloop := forRange_rule (f := e.cleanupEntry click stray) (s := ⟨e.gen.mem, [], []⟩)
    (n := e.cfg.nflows.toNat) (fun i c => c.killed = (List.range i).filterMap (e.packetAt stray) ∧
      c.unwritten = (List.range i).filter fun i => !(e.gen.flows i).isSome) ⟨rfl, rfl⟩ ?_
  · exact ⟨hloop.1, hloop.2, rfl⟩
  · rintro i - c ⟨hkilled, hunwritten⟩
    rw [List.range_succ, List.filterMap_append, List.filter_append, ← hkilled, ← hunwritten]
    constructor
    · cases hp : e.packetAt stray i <;> simp [cleanupEntry, hp]
    · cases hfl : e.gen.flows i <;> simp [cleanupEntry, hfl]

/-- **Cleaning up after a failure** at entry `k`: the packets created are killed, and so is
whatever the entries from `k` on point to, which are read without having been written. -/
theorem cleanupFlows_failed {k : ℕ} (h : FailedAt make k e) :
    e.created.length = k ∧
      (e.cleanupFlows click stray).1.killed =
        e.created ++ (List.range' k (e.cfg.nflows.toNat - k)).filterMap stray ∧
      (e.cleanupFlows click stray).1.unwritten = List.range' k (e.cfg.nflows.toNat - k) ∧
      (e.cleanupFlows click stray).2.allocated = false := by
  obtain ⟨hkilled, hunwritten, hnull⟩ := @cleanupFlows_log M Ref click stray e h.allocated
  have hsplit : List.range e.cfg.nflows.toNat =
      List.range k ++ List.range' k (e.cfg.nflows.toNat - k) := by
    have hlt := h.lt
    conv_lhs => rw [← Nat.add_sub_of_le hlt.le]
    rw [List.range_eq_range', List.range_eq_range', ← List.range'_append_1, Nat.zero_add]
  have hbelow : ∀ i ∈ List.range k, ∃ fl, e.gen.flows i = some fl := fun i hi =>
    Option.isSome_iff_exists.mp ((h.filled i).mpr (List.mem_range.mp hi))
  have habove : ∀ i ∈ List.range' k (e.cfg.nflows.toNat - k), e.gen.flows i = none := by
    intro i hi
    have hle := (List.mem_range'_1.mp hi).1
    have hnot := mt (h.filled i).mp (Nat.not_lt.mpr hle)
    simpa using hnot
  have hcreated : e.created = (List.range k).filterMap (e.packetAt stray) := by
    have hnone : (List.range' k (e.cfg.nflows.toNat - k)).filterMap
        (fun i => (e.gen.flows i).map Flow.packet) = [] :=
      List.filterMap_eq_nil_iff.mpr fun i hi => by rw [habove i hi]; rfl
    rw [created, hsplit, List.filterMap_append, hnone, List.append_nil]
    refine List.filterMap_congr fun i hi => ?_
    obtain ⟨fl, hfl⟩ := hbelow i hi
    rw [packetAt, hfl]
    rfl
  refine ⟨?_, ?_, ?_, hnull⟩
  · rw [hcreated, List.length_filterMap_eq_countP, List.countP_eq_length.mpr fun i hi => ?_,
      List.length_range]
    obtain ⟨fl, hfl⟩ := hbelow i hi
    rw [packetAt, hfl]
    rfl
  · rw [hkilled, hsplit, List.filterMap_append, ← hcreated]
    refine congrArg _ (List.filterMap_congr fun i hi => ?_)
    rw [packetAt, habove i hi]
  · rw [hunwritten, hsplit, List.filter_append, List.filter_eq_nil_iff.mpr fun i hi => ?_,
      List.nil_append, List.filter_eq_self.mpr fun i hi => ?_]
    · rw [habove i hi]
      rfl
    · obtain ⟨fl, hfl⟩ := hbelow i hi
      rw [hfl]
      simp

/-- **No failure is cleaned up after** as it should be, whoever called `initialize`. -/
theorem not_cleansUp {caller : Caller}
    (h : e.initializeBy click make stray caller = some (false, e')) :
    ¬ CleansUp click stray e' := by
  intro hclean
  obtain ⟨k, hfailed⟩ := initializeBy_failed h
  obtain ⟨-, -, hunwritten, -⟩ := @cleanupFlows_failed M Ref click make stray e' k hfailed
  have hlt := hfailed.lt
  rw [hclean.written] at hunwritten
  have hlength := congrArg List.length hunwritten
  rw [List.length_nil, List.length_range'] at hlength
  omega

end

/-! ## Two flows, and too little room -/

namespace Small

open FastUdp.Small

/-- Room for `n` packets. -/
def makeUpTo (n : ℕ) (_ : UInt32) (m : Buffers Datagram) : Option (ℕ × Buffers Datagram) :=
  if m.handles < n then some (m.handles, m.make blank) else none

/-- Something that the memory held. -/
def leftOver (i : ℕ) : Option ℕ := some (i + 7)

/-- After `initialize`, where there was room for one packet. -/
def firstFailure : Element (Buffers Datagram) ℕ :=
  ((Element.new (config 2 1) (Buffers.empty blank)).initializeElement packets (makeUpTo 1)).2

theorem firstFailure_eq :
    (Element.new (config 2 1) (Buffers.empty blank)).initializeBy packets (makeUpTo 1) leftOver
      .router = some (false, firstFailure) :=
  congrArg some (Prod.ext (by decide +kernel) rfl)

theorem firstFailure_not_cleansUp : ¬ CleansUp packets leftOver firstFailure :=
  not_cleansUp firstFailure_eq

/-- An element with two flows. -/
def running : Element (Buffers Datagram) ℕ :=
  ((Element.new (config 2 1) (Buffers.empty blank)).initializeElement packets (makeUpTo 3)).2

/-- After a write of `length`, where there was room for one packet more. -/
def secondFailure : Element (Buffers Datagram) ℕ :=
  (((running.setLength 100).cleanupFlows packets leftOver).2.initializeElement packets
    (makeUpTo 3)).2

/-- The third packet is created and killed, and so is what entry 1 happens to hold. -/
theorem secondFailure_not_cleansUp :
    running.initializeBy packets (makeUpTo 3) leftOver (.lengthWriteHandler 100) =
        some (false, secondFailure) ∧
      secondFailure.created = [2] ∧
      (secondFailure.cleanupFlows packets leftOver).1.killed = [2, 8] ∧
      (secondFailure.cleanupFlows packets leftOver).1.unwritten = [1] ∧
      ¬ CleansUp packets leftOver secondFailure := by
  have hunwritten : (secondFailure.cleanupFlows packets leftOver).1.unwritten = [1] := by
    decide +kernel
  refine ⟨?_, by decide +kernel, by decide +kernel, hunwritten, fun hclean => ?_⟩
  · rw [initializeBy, lengthWrite, if_pos (by decide +kernel), Option.map_some]
    exact congrArg some (Prod.ext (by decide +kernel) rfl)
  · rw [hclean.written] at hunwritten
    cases hunwritten

end Small

end Element

end FastUdp

end Fajita
