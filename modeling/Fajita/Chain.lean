import Fajita.Lookups
import Fajita.RingLog
import Fajita.Scan

/-!
# The state that network functions keep for a flow

`extract_state` gives every flow a `DyssectState` with an array of `sfc_length` slots, and the
annotation of the packet leads the elements behind it to the array: `DyNAPT` and `DyIDS` keep
their state for the flow in the slot that their `HANDLE` names, and create it with the flow's
first packet. `isolated_iff` is the account of it: over any batches through any chain of such
elements with different handles, each element's state of a flow depends on the packets of that
flow only and is what they make of it, exactly if the handles are below `SFC_LENGTH`. Nothing
tests them; an element with another handle writes behind the array.

An access that is not allowed is `none`: a slot behind the array, a slot with another
element's state in it, and the reserved key in a flow table.
-/

namespace Fajita

namespace Chain

open Reads DyIDS

/-! ## Packets -/

/-- A packet on its way through the elements. -/
structure Segment where
  /-- which `rte_mbuf` it is -/
  mbuf : ℕ
  /-- `hash.rss` -/
  rss : ℕ
  /-- its bytes, and those behind it -/
  frame : Frame
  /-- wherever a scan of the payload begins, some zero byte ends it -/
  ends : ∀ offset : UInt32, ∃ j, frame.scanFrom frame.tcp offset ≤ j ∧ frame.byte j = 0

namespace Segment

variable (p : Segment) (offset : UInt32)

/-- `DyssectFlow`, as far as `EqualTo` compares it -/
def key : FlowKey := p.frame.key

/-- The packet as the flow tables know it. -/
def packet : Packet := p.frame.packet p.mbuf p.rss

/-- The text that a scan goes over. -/
theorem text : ∃ n, Text p.frame.byte (p.frame.scanFrom p.frame.tcp offset) n := by
  refine ⟨Nat.find (p.ends offset), (Nat.find_spec (p.ends offset)).1,
    (Nat.find_spec (p.ends offset)).2, fun i hi hin h0 => ?_⟩
  exact Nat.find_min (p.ends offset) hin ⟨hi, h0⟩

/-- The scan of a packet comes to an end, at the latest at the zero byte behind it. -/
theorem returns :
    ∃ rounds, ((updateState rounds p.frame.tcp offset).value p.frame.byte).isSome := by
  obtain ⟨n, ht⟩ := p.text offset
  obtain ⟨ret, ⟨rounds, h⟩, -⟩ := Frame.updateState_ends ht
  exact ⟨rounds, by rw [h]; rfl⟩

/-- What `lex` returns, and `th_seq`. -/
def scanned : ℕ × ℕ :=
  ((updateState (Nat.find (p.returns offset)) p.frame.tcp offset).value p.frame.byte).get
    (Nat.find_spec (p.returns offset))

/-- A packet is matched if its payload has the pattern of `lex`. -/
theorem scanned_ne_zero {n : ℕ}
    (ht : Text p.frame.byte (p.frame.scanFrom p.frame.tcp offset) n) :
    (p.scanned offset).1 ≠ 0 ↔ ∃ i j, p.frame.scanFrom p.frame.tcp offset ≤ i ∧ i + 2 ≤ j ∧
      j < n ∧ p.frame.byte i = 0x01 ∧ p.frame.byte (i + 1) = 0x03 ∧ p.frame.byte j = 0x0b := by
  obtain ⟨ret, -, hall, hiff⟩ := Frame.updateState_ends ht
  have hscan : p.scanned offset = (ret, leNat (p.frame.slice (p.frame.tcp + 4) 4)) :=
    hall _ _ (Option.some_get (Nat.find_spec (p.returns offset))).symm
  rw [hscan, hiff]

end Segment

/-! ## The elements

The two elements of the chain, with the state that each keeps for a flow. What `malloc` leaves in
memory is not known, and stays so until it is written.
-/

/-- `NAPTState`; no code writes its other fields. -/
structure NAPTState where
  /-- `count` -/
  count : UInt32

/-- `new_flow` -/
def NAPTState.newFlow : NAPTState := ⟨0⟩

/-- `update_state` -/
def NAPTState.updateState (st : NAPTState) : NAPTState := ⟨st.count + 1⟩

/-- `DYIDS_ENTRIES` -/
def entries : ℕ := 1024

/-- `IDSState`; what `malloc` leaves in the arrays is `none`. -/
structure IDSState where
  /-- `found` -/
  found : UInt32
  /-- `not_found` -/
  notFound : UInt32
  /-- `matched` -/
  matched : ℕ → Option ℕ
  /-- `unmatched` -/
  unmatched : ℕ → Option ℕ

/-- A new `IDSState`. -/
def IDSState.new : IDSState := ⟨0, 0, fun _ => none, fun _ => none⟩

/-- `UpdateState` -/
def IDSState.updateState (st : IDSState) (ret seq : ℕ) : IDSState :=
  if ret ≠ 0 then
    { st with
      found := st.found + 1
      matched := Function.update st.matched (st.found.toNat % entries) (some seq) }
  else
    { st with
      notFound := st.notFound + 1
      unmatched := Function.update st.unmatched (st.notFound.toNat % entries) (some seq) }

/-- What a slot of `global_state` points to. -/
inductive Slot
  /-- a `NAPTState` -/
  | napt (st : NAPTState)
  /-- an `IDSState` -/
  | ids (st : IDSState)

/-- An element of the chain, with its configuration. -/
inductive Element
  /-- `DyNAPT(HANDLE handle)` -/
  | dynapt (handle : UInt32)
  /-- `DyIDS(HANDLE handle, OFFSET offset)` -/
  | dyids (handle offset : UInt32)
  deriving DecidableEq

namespace Element

/-- `handle` -/
def handle : Element → ℕ
  | dynapt handle => handle.toNat
  | dyids handle _ => handle.toNat

/-- `simple_action` on its slot: what the slot points to afterwards. -/
def simpleAction : Element → Segment → Option Slot → Option Slot
  | dynapt _, _, none => some (.napt NAPTState.newFlow.updateState)
  | dynapt _, _, some (.napt st) => some (.napt st.updateState)
  | dyids _ offset, p, none =>
    some (.ids (IDSState.new.updateState (p.scanned offset).1 (p.scanned offset).2))
  | dyids _ offset, p, some (.ids st) =>
    some (.ids (st.updateState (p.scanned offset).1 (p.scanned offset).2))
  | _, _, _ => none

end Element

/-! ## The run of a core

A core looks up the packets of a burst before it pushes the first of them. The elements find the
state of the flow through the annotation, by number.
-/

/-- A `DyssectState`, as far as the elements behind it use it. -/
structure FlowState where
  /-- `flow` -/
  flow : FlowKey
  /-- `global_state` -/
  globalState : ℕ → Option Slot

/-- The flow tables, and the `DyssectState`s by number. -/
structure Store where
  /-- `shards[s].table` -/
  table : ℕ → FlowKey → Option ℕ
  /-- how many have been allocated -/
  allocated : ℕ
  /-- what they hold -/
  state : ℕ → FlowState

/-- Before the first packet. -/
def Store.init : Store := ⟨fun _ _ => none, 0, fun _ => ⟨flowEmpty, fun _ => none⟩⟩

/-- `global_state[h] = slot` in the `i`-th state. -/
def Store.write (m : Store) (i h : ℕ) (slot : Slot) : Store :=
  let st := m.state i
  { m with
    state := Function.update m.state i
      { st with globalState := Function.update st.globalState h (some slot) } }

/-- A new state for the flow `k`, with nothing in its slots, goes into the table of `s`. -/
def Store.create (m : Store) (s : ℕ) (k : FlowKey) : Store where
  table := Function.update m.table s (Function.update (m.table s) k (some m.allocated))
  allocated := m.allocated + 1
  state := Function.update m.state m.allocated ⟨k, fun _ => none⟩

/-- Memory, and packets with the states they got. -/
abbrev Progress : Type := Store × List (Segment × ℕ)

/-- `extract_state`; the packet goes to the end of the batch. -/
def extractState (cfg : Cfg) (p : Segment) (t : Progress) : Option Progress :=
  if p.key = flowEmpty then none
  else
    match t.1.table (cfg.shardOf p.packet) p.key with
    | some i => some (t.1, t.2 ++ [(p, i)])
    | none => some (t.1.create (cfg.shardOf p.packet) p.key, t.2 ++ [(p, t.1.allocated)])

/-- `simple_action` of an element, where the arrays have `sfcLength` slots. -/
def simpleAction (sfcLength : UInt32) (e : Element) (x : Segment × ℕ) (m : Store) :
    Option Store :=
  if e.handle < sfcLength.toNat then
    (e.simpleAction x.1 ((m.state x.2).globalState e.handle)).map (m.write x.2 e.handle)
  else none

/-- `push_batch` of an element. -/
def pushBatch (sfcLength : UInt32) (batch : List (Segment × ℕ)) (e : Element) (m : Store) :
    Option Store :=
  tryAll (simpleAction sfcLength e) batch m

/-- A batch through `extract_state` and the chain. The packets so far are history. -/
def runBatch (cfg : Cfg) (sfcLength : UInt32) (chain : List Element) (ps : List Segment)
    (t : Progress) : Option Progress :=
  (tryAll (extractState cfg) ps (t.1, [])).bind fun b =>
    (tryAll (pushBatch sfcLength b.2) chain b.1).map fun m => (m, t.2 ++ b.2)

/-- Batches, one after the other. -/
def run (cfg : Cfg) (sfcLength : UInt32) (chain : List Element) (batches : List (List Segment)) :
    Option Progress :=
  tryAll (runBatch cfg sfcLength chain) batches (Store.init, [])

/-! ## One element and one flow

The account of an element is defined from the packets of the flow alone. The proof is an induction
on the packets that it has seen.
-/

/-- The sequence numbers of the packets that `lex` takes the one way, or the other. -/
def seqs (offset : UInt32) (found : Bool) (ps : List Segment) : List ℕ :=
  (ps.filter fun p => ((p.scanned offset).1 != 0) == found).map fun p => (p.scanned offset).2

/-- The ring of matches. -/
def IDSState.foundLog (st : IDSState) : RingLog ℕ entries := ⟨st.found, st.matched⟩

/-- The ring of the others. -/
def IDSState.notFoundLog (st : IDSState) : RingLog ℕ entries := ⟨st.notFound, st.unmatched⟩

/-- What the slot of an element holds after the packets `ps` of the flow: nothing before the
first; then `DyNAPT` has counted them, and `DyIDS` has counted the matched and the unmatched
ones and keeps the last sequence numbers of each in its rings. -/
def Keeps (e : Element) (ps : List Segment) (slot : Option Slot) : Prop :=
  if ps = [] then slot = none
  else match e with
    | .dynapt _ => slot = some (.napt ⟨UInt32.ofNat ps.length⟩)
    | .dyids _ offset => ∃ st, slot = some (.ids st) ∧
        st.foundLog.Holds (seqs offset true ps) ∧ st.notFoundLog.Holds (seqs offset false ps)

/-- An element that has not seen a packet of the flow has no slot. -/
theorem keeps_nil {e : Element} {slot : Option Slot} : Keeps e [] slot ↔ slot = none := by
  unfold Keeps
  rw [if_pos rfl]

/-- `DyNAPT` keeps the number of packets. -/
theorem keeps_dynapt {h : UInt32} {ps : List Segment} {slot : Option Slot} (hps : ps ≠ []) :
    Keeps (.dynapt h) ps slot ↔ slot = some (.napt ⟨UInt32.ofNat ps.length⟩) := by
  simp only [Keeps]
  rw [if_neg hps]

/-- `DyIDS` keeps the two logs. -/
theorem keeps_dyids {h offset : UInt32} {ps : List Segment} {slot : Option Slot}
    (hps : ps ≠ []) :
    Keeps (.dyids h offset) ps slot ↔ ∃ st, slot = some (.ids st) ∧
      st.foundLog.Holds (seqs offset true ps) ∧
      st.notFoundLog.Holds (seqs offset false ps) := by
  simp only [Keeps]
  rw [if_neg hps]

/-- A packet adds its sequence number to one of the two logs. -/
theorem seqs_append (offset : UInt32) (found : Bool) (ps : List Segment) (p : Segment) :
    seqs offset found (ps ++ [p]) =
      seqs offset found ps ++
        if ((p.scanned offset).1 != 0) = found then [(p.scanned offset).2] else [] := by
  rw [seqs, seqs, List.filter_append, List.map_append, List.filter_singleton]
  cases found <;> cases (p.scanned offset).1 != 0 <;> rfl

/-- A packet goes into the ring it belongs to, and leaves the other alone. -/
theorem IDSState.updateState_holds {st : IDSState} {offset : UInt32} {ps : List Segment}
    (hfound : st.foundLog.Holds (seqs offset true ps))
    (hnot : st.notFoundLog.Holds (seqs offset false ps)) (p : Segment) :
    (st.updateState (p.scanned offset).1 (p.scanned offset).2).foundLog.Holds
        (seqs offset true (ps ++ [p])) ∧
      (st.updateState (p.scanned offset).1 (p.scanned offset).2).notFoundLog.Holds
        (seqs offset false (ps ++ [p])) := by
  have hsize : entries ∣ 2 ^ 32 := by decide
  rw [seqs_append, seqs_append, updateState]
  by_cases hret : (p.scanned offset).1 = 0
  · rw [if_neg (not_not_intro hret), if_neg (by simp [hret]), if_pos (by simp [hret]),
      List.append_nil]
    exact ⟨hfound, hnot.push hsize (p.scanned offset).2⟩
  · rw [if_pos hret, if_pos (by simp [hret]), if_neg (by simp [hret]), List.append_nil]
    exact ⟨hfound.push hsize (p.scanned offset).2, hnot⟩

/-- **A packet in its slot**: the element finds its own state there, and counts the packet. -/
theorem Keeps.step {e : Element} {ps : List Segment} {slot : Option Slot}
    (h : Keeps e ps slot) (p : Segment) :
    ∃ slot', e.simpleAction p slot = some slot' ∧ Keeps e (ps ++ [p]) (some slot') := by
  have hne : ps ++ [p] ≠ [] := List.append_ne_nil_of_right_ne_nil ps (List.cons_ne_nil p [])
  cases e with
  | dynapt handle =>
    rcases eq_or_ne ps [] with rfl | hps
    · -- the flow's first packet
      obtain rfl := keeps_nil.mp h
      exact ⟨_, rfl, (keeps_dynapt hne).mpr rfl⟩
    · obtain rfl := (keeps_dynapt hps).mp h
      refine ⟨_, rfl, (keeps_dynapt hne).mpr ?_⟩
      rw [NAPTState.updateState, List.length_append, List.length_singleton, UInt32.ofNat_add]
      rfl
  | dyids handle offset =>
    rcases eq_or_ne ps [] with rfl | hps
    · obtain rfl := keeps_nil.mp h
      have hnew : IDSState.new.foundLog.Holds (seqs offset true []) ∧
          IDSState.new.notFoundLog.Holds (seqs offset false []) := ⟨.nil rfl, .nil rfl⟩
      exact ⟨_, rfl, (keeps_dyids hne).mpr
        ⟨_, rfl, IDSState.updateState_holds hnew.1 hnew.2 p⟩⟩
    · obtain ⟨st, rfl, hfound, hnot⟩ := (keeps_dyids hps).mp h
      exact ⟨_, rfl, (keeps_dyids hne).mpr
        ⟨_, rfl, IDSState.updateState_holds hfound hnot p⟩⟩

/-! ## All elements and all flows

`Inv` is the invariant of a run: in the slot of each element, the state of each flow has what the
element keeps of the packets of this flow, and of no other. A lookup keeps it, since a new state has
no slots; and so does an element, which writes its own slot of the state of the packet.
-/

/-- The packets that got the state `i`. -/
def packetsOf (i : ℕ) (xs : List (Segment × ℕ)) : List Segment :=
  (xs.filter fun x => x.2 = i).map Prod.fst

/-- The packets of a state, in a batch after another. -/
@[simp] theorem packetsOf_append (i : ℕ) (xs ys : List (Segment × ℕ)) :
    packetsOf i (xs ++ ys) = packetsOf i xs ++ packetsOf i ys := by
  rw [packetsOf, List.filter_append, List.map_append, packetsOf, packetsOf]

theorem packetsOf_nil_of {i : ℕ} {xs : List (Segment × ℕ)} (h : ∀ x ∈ xs, x.2 ≠ i) :
    packetsOf i xs = [] := by
  rw [packetsOf, List.filter_eq_nil_iff.mpr, List.map_nil]
  intro x hx
  simpa using h x hx

theorem packetsOf_singleton_self (x : Segment × ℕ) : packetsOf x.2 [x] = [x.1] := by
  simp [packetsOf]

/-- The memory while the elements work: the packets `got` have states, and the element `e` has
been through with the packets `done e`. -/
structure Inv (cfg : Cfg) (chain : List Element) (got : List (Segment × ℕ))
    (done : Element → List (Segment × ℕ)) (m : Store) : Prop where
  /-- a table leads to states of the flow it is asked for -/
  known : ∀ s k i, m.table s k = some i → i < m.allocated ∧ (m.state i).flow = k
  /-- and still does for every packet so far -/
  got : ∀ x ∈ got, m.table (cfg.shardOf x.1.packet) x.1.key = some x.2
  /-- an element's packets have states -/
  old : ∀ e ∈ chain, ∀ x ∈ done e, x.2 < m.allocated
  /-- the slots of the elements -/
  own : ∀ e ∈ chain, ∀ i < m.allocated,
    Keeps e (packetsOf i (done e)) ((m.state i).globalState e.handle)
  /-- the other slots -/
  rest : ∀ i < m.allocated, ∀ h, (∀ e ∈ chain, e.handle ≠ h) → (m.state i).globalState h = none

section Steps

variable {cfg : Cfg} {sfcLength : UInt32} {chain : List Element} {got : List (Segment × ℕ)}
  {done : Element → List (Segment × ℕ)} {m : Store}

/-- Only what the elements of the chain have done matters. -/
theorem Inv.congr {done' : Element → List (Segment × ℕ)} (h : Inv cfg chain got done m)
    (hdone : ∀ e ∈ chain, done e = done' e) : Inv cfg chain got done' m where
  known := h.known
  got := h.got
  old e he := hdone e he ▸ h.old e he
  own e he := hdone e he ▸ h.own e he
  rest := h.rest

/-- At first no packet has been looked up, and no state has a slot. -/
theorem Inv.init : Inv cfg chain [] (fun _ => []) Store.init where
  known _ _ _ h := by cases h
  got _ h := by cases h
  old _ _ _ h := by cases h
  own _ _ _ h := absurd h (Nat.not_lt_zero _)
  rest _ h := absurd h (Nat.not_lt_zero _)

/-- A new state is found under its key, and the others under theirs. -/
theorem Store.create_table (m : Store) (s s' : ℕ) (k k' : FlowKey) :
    (m.create s k).table s' k' =
      if s' = s ∧ k' = k then some m.allocated else m.table s' k' := by
  change Function.update m.table s (Function.update (m.table s) k (some m.allocated)) s' k' = _
  rcases eq_or_ne s' s with rfl | hs
  · rw [Function.update_self]
    rcases eq_or_ne k' k with rfl | hk
    · rw [Function.update_self, if_pos ⟨rfl, rfl⟩]
    · rw [Function.update_of_ne hk, if_neg fun h => hk h.2]
  · rw [Function.update_of_ne hs, if_neg fun h => hs h.1]

/-- The states that there are stay as they are. -/
theorem Store.create_state_old (m : Store) (s : ℕ) (k : FlowKey) {i : ℕ} (hi : i < m.allocated) :
    (m.create s k).state i = m.state i := Function.update_of_ne hi.ne ..

theorem Store.create_state_new (m : Store) (s : ℕ) (k : FlowKey) :
    (m.create s k).state m.allocated = ⟨k, fun _ => none⟩ := Function.update_self ..

/-- Writing a slot changes no flow of a state. -/
theorem Store.write_flow (m : Store) (i h : ℕ) (slot : Slot) (i' : ℕ) :
    ((m.write i h slot).state i').flow = (m.state i').flow := by
  rw [Store.write]
  rcases eq_or_ne i' i with rfl | hi
  · simp only [Function.update_self]
  · simp only [Function.update_of_ne hi]

theorem Store.write_self (m : Store) (i h : ℕ) (slot : Slot) :
    ((m.write i h slot).state i).globalState h = some slot := by
  rw [Store.write]
  simp only [Function.update_self]

/-- Writing a slot changes no other slot. -/
theorem Store.write_other (m : Store) {i h : ℕ} (slot : Slot) {i' h' : ℕ}
    (hne : i' ≠ i ∨ h' ≠ h) :
    ((m.write i h slot).state i').globalState h' = (m.state i').globalState h' := by
  rw [Store.write]
  rcases eq_or_ne i' i with rfl | hi
  · simp only [Function.update_self]
    exact Function.update_of_ne (hne.resolve_left fun hi => hi rfl) ..
  · simp only [Function.update_of_ne hi]

/-- A new state keeps the account. -/
theorem Inv.create (h : Inv cfg chain got done m) {s : ℕ} {k : FlowKey}
    (hnone : m.table s k = none) : Inv cfg chain got done (m.create s k) where
  known s' k' i hi := by
    rw [Store.create_table] at hi
    split at hi
    · next hsame =>
      obtain rfl := Option.some.inj hi
      exact ⟨Nat.lt_succ_self _, by rw [Store.create_state_new, hsame.2]⟩
    · obtain ⟨hlt, hflow⟩ := h.known s' k' i hi
      exact ⟨Nat.lt_succ_of_lt hlt, by rw [Store.create_state_old _ _ _ hlt, hflow]⟩
  got x hx := by
    have hsome := h.got x hx
    rw [Store.create_table, if_neg, hsome]
    rintro ⟨rfl, rfl⟩
    rw [hnone] at hsome
    cases hsome
  old e he x hx := Nat.lt_succ_of_lt (h.old e he x hx)
  own e he i hi := by
    rcases Nat.lt_succ_iff_lt_or_eq.mp hi with hlt | rfl
    · rw [Store.create_state_old _ _ _ hlt]
      exact h.own e he i hlt
    · -- no element has been at the new state
      rw [Store.create_state_new, packetsOf_nil_of fun x hx => (h.old e he x hx).ne, keeps_nil]
  rest i hi j hj := by
    rcases Nat.lt_succ_iff_lt_or_eq.mp hi with hlt | rfl
    · rw [Store.create_state_old _ _ _ hlt]
      exact h.rest i hlt j hj
    · rw [Store.create_state_new]

/-- **A lookup** finds the flow's state, or makes one. -/
theorem Inv.extractState (h : Inv cfg chain got done m) {p : Segment} (hp : p.key ≠ flowEmpty)
    (batch : List (Segment × ℕ)) :
    ∃ m' i, Chain.extractState cfg p (m, batch) = some (m', batch ++ [(p, i)]) ∧
      Inv cfg chain (got ++ [(p, i)]) done m' := by
  have hadd : ∀ {m' i}, Inv cfg chain got done m' →
      m'.table (cfg.shardOf p.packet) p.key = some i →
      Inv cfg chain (got ++ [(p, i)]) done m' := by
    intro m' i h' hfound
    refine ⟨h'.known, fun x hx => ?_, h'.old, h'.own, h'.rest⟩
    rcases List.mem_append.mp hx with hx | hx
    · exact h'.got x hx
    · obtain rfl := List.mem_singleton.mp hx
      exact hfound
  rw [Chain.extractState, if_neg hp]
  cases hfound : m.table (cfg.shardOf p.packet) p.key with
  | some i => exact ⟨m, i, rfl, hadd h hfound⟩
  | none =>
    refine ⟨_, m.allocated, rfl, hadd (h.create hfound) ?_⟩
    rw [Store.create_table, if_pos ⟨rfl, rfl⟩]

/-- **An element at work**: its slot is in the array, and no other slot of any flow changes. -/
theorem simpleAction_frame {e : Element} {x : Segment × ℕ} {m' : Store}
    (h : simpleAction sfcLength e x m = some m') :
    e.handle < sfcLength.toNat ∧ ∀ i j, (i ≠ x.2 ∨ j ≠ e.handle) →
      (m'.state i).globalState j = (m.state i).globalState j := by
  rw [simpleAction] at h
  split at h
  · next hlt =>
    obtain ⟨slot, -, rfl⟩ := Option.map_eq_some_iff.mp h
    exact ⟨hlt, fun i j hij => m.write_other slot hij⟩
  · cases h

/-- The element `e` has been through with one more packet. -/
theorem Inv.simpleAction (h : Inv cfg chain got done m)
    (hdistinct : ∀ e ∈ chain, ∀ e' ∈ chain, e.handle = e'.handle → e = e') {e : Element}
    (he : e ∈ chain) (hlt : e.handle < sfcLength.toNat) {x : Segment × ℕ}
    (hx : x.2 < m.allocated) :
    ∃ m', Chain.simpleAction sfcLength e x m = some m' ∧ m'.allocated = m.allocated ∧
      Inv cfg chain got (Function.update done e (done e ++ [x])) m' := by
  obtain ⟨slot, hslot, hkeeps⟩ := (h.own e he x.2 hx).step x.1
  have hstep : Chain.simpleAction sfcLength e x m = some (m.write x.2 e.handle slot) := by
    rw [Chain.simpleAction, if_pos hlt, hslot, Option.map_some]
  refine ⟨m.write x.2 e.handle slot, hstep, rfl, ?_⟩
  refine ⟨fun s k i hi => ?_, h.got, fun e' he' y hy => ?_, fun e' he' i hi => ?_,
    fun i hi j hj => ?_⟩
  · rw [Store.write_flow]
    exact h.known s k i hi
  · rcases eq_or_ne e' e with rfl | hne
    · rw [Function.update_self] at hy
      rcases List.mem_append.mp hy with hy | hy
      · exact h.old e' he' y hy
      · obtain rfl := List.mem_singleton.mp hy
        exact hx
    · rw [Function.update_of_ne hne] at hy
      exact h.old e' he' y hy
  · rcases eq_or_ne e' e with rfl | hne
    · rw [Function.update_self, packetsOf_append]
      rcases eq_or_ne i x.2 with rfl | hi'
      · rw [Store.write_self, packetsOf_singleton_self]
        exact hkeeps
      · -- the flow of another packet: nothing is new in the list or in the slot
        have hother : packetsOf i [x] = [] := packetsOf_nil_of fun y hy => by
          rw [List.mem_singleton.mp hy]
          exact hi'.symm
        rw [hother, List.append_nil, Store.write_other _ _ (.inl hi')]
        exact h.own e' he' i hi
    · -- another element has another handle
      rw [Function.update_of_ne hne,
        Store.write_other _ _ (.inr fun heq => hne (hdistinct e' he' e he heq))]
      exact h.own e' he' i hi
  · rw [Store.write_other _ _ (.inr fun heq => hj e he heq.symm)]
    exact h.rest i hi j hj

/-- An element goes through a batch. -/
theorem Inv.pushBatch (h : Inv cfg chain got done m)
    (hdistinct : ∀ e ∈ chain, ∀ e' ∈ chain, e.handle = e'.handle → e = e') {e : Element}
    (he : e ∈ chain) (hlt : e.handle < sfcLength.toNat) {batch : List (Segment × ℕ)}
    (hbatch : ∀ x ∈ batch, x.2 < m.allocated) :
    ∃ m', Chain.pushBatch sfcLength batch e m = some m' ∧ m'.allocated = m.allocated ∧
      Inv cfg chain got (Function.update done e (done e ++ batch)) m' := by
  refine tryAll_rule (P := fun pre t => t.allocated = m.allocated ∧
    Inv cfg chain got (Function.update done e (done e ++ pre)) t) ?_ ?_
  · rintro pre x post t rfl ⟨hsame, ht⟩
    have hx : x.2 < t.allocated := by
      rw [hsame]
      exact hbatch x (by simp)
    obtain ⟨t', hstep, hsame', ht'⟩ := ht.simpleAction hdistinct he hlt hx
    rw [Function.update_idem, Function.update_self, List.append_assoc] at ht'
    exact ⟨t', hstep, hsame'.trans hsame, ht'⟩
  · rw [List.append_nil, Function.update_eq_self]
    exact ⟨rfl, h⟩

/-- The batch goes through the chain. -/
theorem Inv.pushChain (h : Inv cfg chain got done m) (hnodup : (chain.map Element.handle).Nodup)
    (hlt : ∀ e ∈ chain, e.handle < sfcLength.toNat) {batch : List (Segment × ℕ)}
    (hbatch : ∀ x ∈ batch, x.2 < m.allocated) :
    ∃ m', tryAll (Chain.pushBatch sfcLength batch) chain m = some m' ∧
      Inv cfg chain got (fun e => done e ++ batch) m' := by
  have hdistinct : ∀ e ∈ chain, ∀ e' ∈ chain, e.handle = e'.handle → e = e' :=
    fun e he e' he' heq => List.inj_on_of_nodup_map hnodup he he' heq
  -- the elements so far are done with the batch, the others are where they were
  obtain ⟨m', hrun, -, hm'⟩ : ∃ m', tryAll (Chain.pushBatch sfcLength batch) chain m = some m' ∧
      m'.allocated = m.allocated ∧
      Inv cfg chain got (fun e => if e ∈ chain then done e ++ batch else done e) m' := by
    refine tryAll_rule (P := fun pre t => t.allocated = m.allocated ∧
      Inv cfg chain got (fun e => if e ∈ pre then done e ++ batch else done e) t) ?_ ?_
    · rintro pre e post t hsplit ⟨hsame, ht⟩
      have he : e ∈ chain := by rw [hsplit]; simp
      have hfirst : e ∉ pre := by
        have hchain := hnodup.of_map
        rw [hsplit, List.nodup_append] at hchain
        exact fun hpre => hchain.2.2 e hpre e List.mem_cons_self rfl
      have hold : ∀ x ∈ batch, x.2 < t.allocated := by rwa [hsame]
      obtain ⟨t', hstep, hsame', ht'⟩ := ht.pushBatch hdistinct he (hlt e he) hold
      refine ⟨t', hstep, hsame'.trans hsame, ht'.congr fun e' _ => ?_⟩
      rcases eq_or_ne e' e with rfl | hne
      · rw [Function.update_self, if_neg hfirst, if_pos (by simp)]
      · rw [Function.update_of_ne hne]
        simp only [List.mem_append, List.mem_singleton, hne, or_false]
    · exact ⟨rfl, h.congr fun e _ => (if_neg List.not_mem_nil).symm⟩
  exact ⟨m', hrun, hm'.congr fun e he => if_pos he⟩

variable {seen : List (Segment × ℕ)}

/-- **A batch** from the lookup to the end of the chain. -/
theorem Inv.runBatch (h : Inv cfg chain seen (fun _ => seen) m)
    (hnodup : (chain.map Element.handle).Nodup)
    (hlt : ∀ e ∈ chain, e.handle < sfcLength.toNat) {ps : List Segment}
    (hps : ∀ p ∈ ps, p.key ≠ flowEmpty) :
    ∃ m' batch, Chain.runBatch cfg sfcLength chain ps (m, seen) = some (m', seen ++ batch) ∧
      batch.map Prod.fst = ps ∧ Inv cfg chain (seen ++ batch) (fun _ => seen ++ batch) m' := by
  obtain ⟨⟨m₁, batch⟩, hextract, hbatch, h₁⟩ : ∃ t,
      tryAll (Chain.extractState cfg) ps (m, []) = some t ∧ t.2.map Prod.fst = ps ∧
        Inv cfg chain (seen ++ t.2) (fun _ => seen) t.1 := by
    refine tryAll_rule (P := fun pre (t : Progress) => t.2.map Prod.fst = pre ∧
      Inv cfg chain (seen ++ t.2) (fun _ => seen) t.1) ?_ ⟨rfl, by rwa [List.append_nil]⟩
    rintro pre p post ⟨t, batch⟩ rfl ⟨rfl, ht⟩
    obtain ⟨t', i, hstep, ht'⟩ := ht.extractState (hps p (by simp)) batch
    refine ⟨_, hstep, by simp, ?_⟩
    rwa [List.append_assoc] at ht'
  have hold : ∀ x ∈ batch, x.2 < m₁.allocated := fun x hx =>
    (h₁.known _ _ _ (h₁.got x (List.mem_append_right seen hx))).1
  obtain ⟨m₂, hchain, h₂⟩ := h₁.pushChain hnodup hlt hold
  refine ⟨m₂, batch, ?_, hbatch, h₂⟩
  rw [Chain.runBatch, hextract, Option.bind_some, hchain, Option.map_some]

/-- **Any number of batches.** -/
theorem Inv.run (hnodup : (chain.map Element.handle).Nodup)
    (hlt : ∀ e ∈ chain, e.handle < sfcLength.toNat) {batches : List (List Segment)}
    (hps : ∀ p ∈ batches.flatten, p.key ≠ flowEmpty) :
    ∃ m seen, Chain.run cfg sfcLength chain batches = some (m, seen) ∧
      seen.map Prod.fst = batches.flatten ∧ Inv cfg chain seen (fun _ => seen) m := by
  obtain ⟨⟨m, seen⟩, hrun, hseen, hm⟩ : ∃ t, Chain.run cfg sfcLength chain batches = some t ∧
      t.2.map Prod.fst = batches.flatten ∧ Inv cfg chain t.2 (fun _ => t.2) t.1 := by
    refine tryAll_rule (P := fun pre (t : Progress) => t.2.map Prod.fst = pre.flatten ∧
      Inv cfg chain t.2 (fun _ => t.2) t.1) ?_ ⟨rfl, .init⟩
    rintro pre ps post ⟨t, seen⟩ rfl ⟨hseen, ht⟩
    have hbatch : ∀ p ∈ ps, p.key ≠ flowEmpty := fun p hp => hps p (by simp [hp])
    obtain ⟨t', batch, hstep, hbatch, ht'⟩ := ht.runBatch hnodup hlt hbatch
    refine ⟨_, hstep, ?_, ht'⟩
    rw [List.map_append, hbatch, List.flatten_append, List.flatten_singleton, hseen]
  exact ⟨m, seen, hrun, hseen, hm⟩

end Steps

/-! ## A handle that has no slot -/

section NoSlot

variable {cfg : Cfg} {sfcLength : UInt32} {chain : List Element}

/-- A lookup puts its packet at the end of the batch. -/
theorem extractState_batch {p : Segment} {t t' : Progress}
    (h : extractState cfg p t = some t') : ∃ i, t'.2 = t.2 ++ [(p, i)] := by
  rw [extractState] at h
  split at h
  · cases h
  split at h
  · obtain rfl := Option.some.inj h
    exact ⟨_, rfl⟩
  · obtain rfl := Option.some.inj h
    exact ⟨_, rfl⟩

/-- The batch of some packets is not empty. -/
theorem extractAll_ne_nil {p : Segment} {ps : List Segment} {t t' : Progress}
    (h : tryAll (extractState cfg) (p :: ps) t = some t') : t'.2 ≠ [] := by
  induction ps generalizing p t with
  | nil =>
    rw [tryAll_cons, Option.bind_eq_some_iff] at h
    obtain ⟨t₁, h₁, h₂⟩ := h
    obtain rfl := Option.some.inj h₂
    obtain ⟨i, hi⟩ := extractState_batch h₁
    rw [hi]
    exact List.append_ne_nil_of_right_ne_nil _ (List.cons_ne_nil _ _)
  | cons q ps ih =>
    rw [tryAll_cons, Option.bind_eq_some_iff] at h
    obtain ⟨t₁, -, h₂⟩ := h
    exact ih h₂

/-- The first batch with a packet in it takes the element behind the array. -/
theorem run_none {e : Element} (he : e ∈ chain) (hge : sfcLength.toNat ≤ e.handle)
    {batches : List (List Segment)} (hne : batches.flatten ≠ []) :
    run cfg sfcLength chain batches = none := by
  obtain ⟨p, hp⟩ := List.exists_mem_of_ne_nil _ hne
  obtain ⟨ps, hps, hpps⟩ := List.mem_flatten.mp hp
  refine tryAll_none hps (fun t => ?_) _
  rw [runBatch]
  cases hextract : tryAll (extractState cfg) ps (t.1, []) with
  | none => rfl
  | some b =>
    obtain ⟨q, qs, rfl⟩ := List.exists_cons_of_ne_nil (List.ne_nil_of_mem hpps)
    obtain ⟨x, hx⟩ := List.exists_mem_of_ne_nil _ (extractAll_ne_nil hextract)
    have hpush : ∀ m, pushBatch sfcLength b.2 e m = none := fun m =>
      tryAll_none hx (fun m => if_neg (Nat.not_lt.mpr hge)) m
    rw [Option.bind_some, tryAll_none he hpush, Option.map_none]

/-- Without packets no element does anything. -/
theorem run_empty {batches : List (List Segment)} (h : batches.flatten = []) :
    run cfg sfcLength chain batches = some (Store.init, []) := by
  have hchain : ∀ m, tryAll (pushBatch sfcLength []) chain m = some m := fun m => by
    obtain ⟨m', hrun, rfl⟩ : ∃ m', tryAll (pushBatch sfcLength []) chain m = some m' ∧ m' = m :=
      tryAll_rule (P := fun _ t => t = m) (fun _ _ _ t _ ht => ⟨t, rfl, ht⟩) rfl
    exact hrun
  obtain ⟨t, hrun, rfl⟩ : ∃ t, run cfg sfcLength chain batches = some t ∧
      t = (Store.init, []) := by
    refine tryAll_rule (P := fun _ t => t = (Store.init, [])) ?_ rfl
    rintro pre ps post t hsplit rfl
    obtain rfl := List.flatten_eq_nil_iff.mp h ps (by rw [hsplit]; simp)
    refine ⟨_, ?_, rfl⟩
    rw [runBatch, tryAll_nil, Option.bind_some, hchain, Option.map_some, List.append_nil]
  exact hrun

end NoSlot

/-! ## Isolation

As long as each element keeps to its own slot, what it has there depends on the packets of the flow
only.
-/

/-- Every access of an element is to a slot of the array, and changes no slot but its own of
the flow whose packet it has. -/
def OwnSlots (sfcLength : UInt32) (chain : List Element) : Prop :=
  ∀ e ∈ chain, ∀ x m m', simpleAction sfcLength e x m = some m' →
    e.handle < sfcLength.toNat ∧ ∀ i j, (i ≠ x.2 ∨ j ≠ e.handle) →
      (m'.state i).globalState j = (m.state i).globalState j

/-- The states of the flows after the packets `ps`. -/
structure Isolated (chain : List Element) (ps : List Segment) (t : Progress) : Prop where
  /-- all packets have been through -/
  packets : t.2.map Prod.fst = ps
  /-- two packets got the same state if they have the same addresses and ports -/
  same : ∀ x ∈ t.2, ∀ y ∈ t.2, x.2 = y.2 ↔ x.1.key = y.1.key
  /-- each element has kept its account of the flow's packets, and of no others -/
  own : ∀ x ∈ t.2, ∀ e ∈ chain,
    Keeps e (ps.filter fun p => p.key = x.1.key) ((t.1.state x.2).globalState e.handle)
  /-- no element has been at the other slots -/
  rest : ∀ x ∈ t.2, ∀ h, (∀ e ∈ chain, e.handle ≠ h) → (t.1.state x.2).globalState h = none

/-- The account by states is an account by flows. -/
theorem Inv.isolated {cfg : Cfg} {chain : List Element} {t : Progress} {ps : List Segment}
    (h : Inv cfg chain t.2 (fun _ => t.2) t.1) (hps : t.2.map Prod.fst = ps)
    (hrss : ∀ p ∈ ps, ∀ q ∈ ps, p.key = q.key → p.rss = q.rss) : Isolated chain ps t := by
  subst hps
  have hknown : ∀ x ∈ t.2, x.2 < t.1.allocated ∧ (t.1.state x.2).flow = x.1.key := fun x hx =>
    h.known _ _ _ (h.got x hx)
  have hsame : ∀ x ∈ t.2, ∀ y ∈ t.2, x.2 = y.2 ↔ x.1.key = y.1.key := by
    intro x hx y hy
    constructor
    · intro heq
      rw [← (hknown x hx).2, heq, (hknown y hy).2]
    · intro heq
      -- the same hash, so the same shard and the same entry of its table
      have hhash := hrss x.1 (List.mem_map_of_mem hx) y.1 (List.mem_map_of_mem hy) heq
      have hshard : cfg.shardOf x.1.packet = cfg.shardOf y.1.packet := by
        have hflow : x.1.packet.flow = y.1.packet.flow := heq
        have hrss' : x.1.packet.rss = y.1.packet.rss := hhash
        rw [Cfg.shardOf, Cfg.hashValue, hflow, hrss', Cfg.shardOf, Cfg.hashValue]
      have hx' := h.got x hx
      rw [heq, hshard, h.got y hy] at hx'
      exact (Option.some.inj hx').symm
  refine ⟨rfl, hsame, fun x hx e he => ?_, fun x hx => h.rest x.2 (hknown x hx).1⟩
  have hflow : packetsOf x.2 t.2 =
      (t.2.map Prod.fst).filter fun p => p.key = x.1.key := by
    rw [packetsOf, List.filter_map]
    refine congrArg (List.map Prod.fst) (List.filter_congr fun y hy => ?_)
    simp only [Function.comp, hsame y hy x hx]
  have hown := h.own e he x.2 (hknown x hx).1
  rwa [hflow] at hown

/-- **Isolation**: over all batches of packets without the reserved key, through any chain of
elements with different handles, each element has a state of its own for each flow, and it is
what the packets of the flow make of it, exactly if there are no packets or all handles are
below `SFC_LENGTH`. -/
theorem isolated_iff (cfg : Cfg) (sfcLength : UInt32) (chain : List Element)
    (batches : List (List Segment)) (hnodup : (chain.map Element.handle).Nodup)
    (hkey : ∀ p ∈ batches.flatten, p.key ≠ flowEmpty)
    (hrss : ∀ p ∈ batches.flatten, ∀ q ∈ batches.flatten, p.key = q.key → p.rss = q.rss) :
    (OwnSlots sfcLength chain ∧
        ∃ t, run cfg sfcLength chain batches = some t ∧ Isolated chain batches.flatten t) ↔
      batches.flatten = [] ∨ ∀ e ∈ chain, e.handle < sfcLength.toNat := by
  constructor
  · rintro ⟨-, t, hrun, -⟩
    by_contra hnot
    rw [not_or, not_forall] at hnot
    obtain ⟨hne, e, hnot⟩ := hnot
    obtain ⟨he, hge⟩ := Classical.not_imp.mp hnot
    rw [run_none he (Nat.not_lt.mp hge) hne] at hrun
    cases hrun
  · intro h
    refine ⟨fun e _ x m m' hstep => simpleAction_frame hstep, ?_⟩
    rcases h with hnil | hlt
    · have hinit : Inv cfg chain [] (fun _ => []) Store.init := .init
      rw [run_empty hnil, hnil]
      exact ⟨_, rfl, hinit.isolated rfl fun p hp => absurd hp List.not_mem_nil⟩
    · obtain ⟨m, seen, hrun, hseen, hm⟩ := @Inv.run cfg sfcLength chain hnodup hlt batches hkey
      exact ⟨(m, seen), hrun, hm.isolated hseen hrss⟩

namespace Small

open Fajita.Small

/-- A TCP packet with the given source port and nothing behind its headers. -/
def segment (mbuf : ℕ) (port : UInt8) : Segment where
  mbuf := mbuf
  rss := port.toNat
  frame := .ofBytes (List.replicate 14 0 ++ 0x45 :: List.replicate 19 0 ++ 0 :: port ::
    List.replicate 10 0 ++ 0x50 :: List.replicate 7 0)
  ends _ := Frame.ofBytes_zero ..

/-- Three network functions and one slot: the first packet takes the second of them behind the
array. -/
theorem threeFunctions_notIsolated :
    ([Element.dynapt 0, .dynapt 1, .dynapt 2].map Element.handle).Nodup ∧
      (segment 0 1).key ≠ flowEmpty ∧
      ¬ ∃ t, run (router 0) 1 [.dynapt 0, .dynapt 1, .dynapt 2] [[segment 0 1]] = some t ∧
        Isolated [.dynapt 0, .dynapt 1, .dynapt 2] [segment 0 1] t := by
  refine ⟨by decide, by decide, ?_⟩
  rintro ⟨t, hrun, -⟩
  rw [run_none (e := .dynapt 1) (by simp) (by decide) (by simp)] at hrun
  cases hrun

/-- Two functions with a slot each. -/
theorem twoFunctions_isolated :
    OwnSlots 2 [.dynapt 0, .dyids 1 0] ∧
      ∃ t, run (router 0) 2 [.dynapt 0, .dyids 1 0]
          [[segment 0 1, segment 1 2], [segment 2 1]] = some t ∧
        Isolated [.dynapt 0, .dyids 1 0]
          [[segment 0 1, segment 1 2], [segment 2 1]].flatten t :=
  (isolated_iff (router 0) 2 [.dynapt 0, .dyids 1 0] [[segment 0 1, segment 1 2], [segment 2 1]]
    (by decide) (by decide) (by decide)).mpr (.inr (by decide))

end Small

/-! ## The flow tables of the router

The store here and the tables of the shards are two models of the same thing, and their lookups
agree.
-/

/-- The flows of the store are those of the shards. -/
def SameFlows {D : Type} (m : Store) (shards : ℕ → ShardInfo D) : Prop :=
  ∀ s k, (m.table s k).isSome = ((shards s).table k).isSome

/-- **The lookup here is the lookup of the router**: it finds and makes the same flows. -/
theorem SameFlows.extractState {D : Type} [Double D] {cfg : Cfg} {w : ℕ} {epoch : UInt32}
    {p : Segment} {t t' : Progress} {shards : ℕ → ShardInfo D} (h : SameFlows t.1 shards)
    (hstep : Chain.extractState cfg p t = some t') :
    SameFlows t'.1 (Fajita.extractState cfg w epoch p.packet shards) := by
  have hafter : ∀ s k, ((Fajita.extractState cfg w epoch p.packet shards s).table k).isSome =
      (decide (s = cfg.shardOf p.packet ∧ k = p.key) || ((shards s).table k).isSome) := by
    intro s k
    rw [Fajita.extractState, updateShard]
    rcases eq_or_ne s (cfg.shardOf p.packet) with rfl | hs
    · rw [Function.update_self, ShardInfo.extractState_table]
      rcases eq_or_ne k p.packet.flow with rfl | hk
      · rw [Function.update_self, decide_eq_true ⟨rfl, rfl⟩, Bool.true_or]
        rfl
      · rw [Function.update_of_ne hk, decide_eq_false fun h => hk h.2, Bool.false_or]
    · rw [Function.update_of_ne hs, decide_eq_false fun h => hs h.1, Bool.false_or]
  intro s k
  rw [hafter, ← h s k]
  rw [Chain.extractState] at hstep
  split at hstep
  · cases hstep
  split at hstep
  · -- the flow is known to both
    next i hfound =>
    obtain rfl := Option.some.inj hstep
    by_cases hsame : s = cfg.shardOf p.packet ∧ k = p.key
    · rw [decide_eq_true hsame, Bool.true_or, hsame.1, hsame.2, hfound, Option.isSome_some]
    · rw [decide_eq_false hsame, Bool.false_or]
  · obtain rfl := Option.some.inj hstep
    rw [Store.create_table]
    split
    · next hsame => rw [decide_eq_true hsame, Bool.true_or, Option.isSome_some]
    · next hsame => rw [decide_eq_false hsame, Bool.false_or]

end Chain

end Fajita
