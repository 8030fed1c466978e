import Fajita.Checked
import Fajita.Loop
import Mathlib.Data.UInt

/-!
# The endpoints of the address translation

`DyNAPT` was to give each new flow an external address and port: `GetEndpoint` looks for a free
port of an address, from a random one on and once round all of them. (The call is commented out;
the element counts packets instead.)

The random start is a 16-bit word, which can be one more than the last port or wrap around to 0,
and the ports are taken modulo their number, so that the search comes by each port once, wherever
it starts. `endpoints_once` says what comes of it in any sequence of calls: a call finds a port
if there is a free one, takes it and no other, and no endpoint is given twice.
-/

namespace Fajita

namespace DyNAPT

/-! ## The element -/

/-- `ext_addrs_` -/
def extAddrs : List (UInt8 × UInt8 × UInt8 × UInt8) :=
  [
    (10, 0, 0, 1), (10, 0, 0, 10), (10, 0, 0, 100),
    (1, 0, 0, 1), (1, 0, 0, 10), (1, 0, 0, 100),
    (10, 0, 1, 1), (10, 0, 10, 10), (10, 0, 100, 100),
    (1, 0, 1, 1), (1, 0, 10, 10), (1, 0, 100, 100),
    (10, 1, 1, 1), (10, 10, 10, 10), (10, 100, 100, 100),
    (1, 1, 1, 1), (1, 10, 10, 10), (1, 100, 100, 100),
    (172, 16, 0, 1), (172, 16, 0, 10), (172, 16, 0, 100),
    (17, 16, 0, 1), (17, 16, 0, 10), (17, 16, 0, 100),
    (172, 16, 1, 1), (172, 16, 10, 10), (172, 16, 100, 100),
    (17, 16, 1, 1), (17, 16, 10, 10), (17, 16, 100, 100),
    (172, 160, 0, 1), (172, 160, 0, 10), (172, 160, 0, 100),
    (17, 160, 0, 1), (17, 160, 0, 10), (17, 160, 0, 100),
    (192, 0, 10, 1), (192, 10, 10, 10), (192, 100, 10, 100),
    (19, 0, 10, 1), (19, 10, 10, 10), (19, 100, 10, 100),
    (192, 168, 10, 1), (192, 168, 10, 10), (192, 168, 10, 100),
    (19, 168, 10, 1), (19, 168, 10, 10), (19, 168, 10, 100),
    (192, 168, 100, 1), (192, 168, 100, 10), (192, 168, 100, 100),
    (19, 168, 100, 1), (19, 168, 100, 10), (19, 168, 100, 100)]

/-- `IPAddress(e).addr()`, a word as it lies in memory. -/
def ipAddr (a : UInt8 × UInt8 × UInt8 × UInt8) : UInt32 :=
  a.1.toUInt32 ||| a.2.1.toUInt32 <<< 8 ||| a.2.2.1.toUInt32 <<< 16 ||| a.2.2.2.toUInt32 <<< 24

/-- `kPortRange` -/
def kPortRange : UInt16 := 65535

/-- The tables of the element. -/
structure Tables where
  /-- `dst_addrs_` -/
  dstAddrs : Array UInt32
  /-- `port_lists_`: the ports of each address that are free -/
  portLists : Array (Array Bool)

/-- `configure` -/
def configured : Tables where
  dstAddrs := (extAddrs.map ipAddr).toArray
  portLists := (extAddrs.map fun _ => Array.replicate kPortRange.toNat true).toArray

/-- What `GetEndpoint` returns: whether there is an endpoint, its address and its port. -/
structure Endpoint where
  /-- there is one -/
  valid : Bool
  /-- the address -/
  addr : UInt32
  /-- the port -/
  port : UInt16

/-- The loop of `GetEndpoint` from round `i` on, with so many to go: the first free port it
comes by. It must not leave the list. -/
def search (ports : Array Bool) (startPort : UInt16) : ℕ → UInt32 → Option (Option UInt16)
  | 0, _ => some none
  | todo + 1, i =>
    let port := ((startPort.toUInt32 + i) % kPortRange.toUInt32).toUInt16
    ports[port.toNat]?.bind fun free =>
      if free then some (some port) else search ports startPort todo (i + 1)

/-- `GetEndpoint`, where `click_random(0, kPortRange)` is `random`; it must not leave its tables. -/
def getEndpoint (idx random : UInt32) (s : Tables) : Option (Endpoint × Tables) :=
  let startPort := (1 + random).toUInt16
  s.portLists[idx.toNat]?.bind fun ports =>
  (search ports startPort kPortRange.toNat 0).bind fun
  | none => some (⟨false, 0, 0⟩, s)
  | some port =>
    (assignAt ports port.toNat false).bind fun ports =>
    (assignAt s.portLists idx.toNat ports).bind fun portLists =>
    s.dstAddrs[idx.toNat]?.bind fun addr =>
    some (⟨true, addr, port⟩, { s with portLists := portLists })

/-- A call, whose result follows those before it. -/
def call (args : UInt32 × UInt32) (t : List Endpoint × Tables) : Option (List Endpoint × Tables) :=
  (getEndpoint args.1 args.2 t.2).map fun u => (t.1 ++ [u.1], u.2)

/-- A sequence of calls from the configured element on, and what they return. -/
def run (calls : List (UInt32 × UInt32)) : Option (List Endpoint × Tables) :=
  tryAll call calls ([], configured)

/-- The endpoints among what calls have returned. -/
def given (out : List Endpoint) : List (UInt32 × UInt16) :=
  (out.filter fun e => e.valid).map fun e => (e.addr, e.port)

/-! ## One call

A call goes round the addresses from the one of the last call, and takes the first whose ports are
not used up.
-/

/-- Whether a port of an address is free. -/
def Tables.free (s : Tables) (idx port : ℕ) : Option Bool :=
  s.portLists[idx]?.bind fun ports => ports[port]?

/-- All addresses are there, and each with all its ports. -/
structure Tables.Sized (s : Tables) : Prop where
  /-- addresses -/
  addrs : s.dstAddrs = configured.dstAddrs
  /-- lists -/
  lists : s.portLists.size = extAddrs.length
  /-- ports -/
  ports : ∀ {i : ℕ} {l : Array Bool}, s.portLists[i]? = some l → l.size = kPortRange.toNat

/-- What a call does: it is valid exactly if the address has a free port, and then gives one such
port, which is no longer free, and leaves all others as they are; else it changes nothing. -/
structure Serves (s : Tables) (idx : UInt32) (e : Endpoint) (s' : Tables) : Prop where
  /-- completeness -/
  valid : e.valid = true ↔ ∃ port < kPortRange.toNat, s.free idx.toNat port = some true
  /-- what is given -/
  given : e.valid = true → s.dstAddrs[idx.toNat]? = some e.addr ∧
    s.free idx.toNat e.port.toNat = some true
  /-- what becomes of the ports -/
  free : ∀ idx' port', s'.free idx' port' =
    if e.valid = true ∧ idx' = idx.toNat ∧ port' = e.port.toNat then some false
    else s.free idx' port'
  /-- the addresses stay -/
  addrs : s'.dstAddrs = s.dstAddrs

variable {s s' : Tables} {ports : Array Bool} {idx random : UInt32} {startPort : UInt16}

/-- The port of a round. -/
theorem port_toNat {i : UInt32} (hi : i.toNat < kPortRange.toNat) :
    ((startPort.toUInt32 + i) % kPortRange.toUInt32).toUInt16.toNat =
      (startPort.toNat + i.toNat) % kPortRange.toNat := by
  have hrange : kPortRange.toNat = 65535 := rfl
  have hstart := startPort.toNat_lt
  have hlt := Nat.mod_lt (startPort.toNat + i.toNat) (show 0 < kPortRange.toNat by decide)
  rw [UInt32.toNat_toUInt16, UInt32.toNat_mod, UInt32.toNat_add, UInt16.toNat_toUInt32,
    UInt16.toNat_toUInt32, Nat.mod_eq_of_lt (b := 2 ^ 32) (by omega),
    Nat.mod_eq_of_lt (b := 2 ^ 16) (by omega)]

/-- **The search** stays in the list; what it finds is free, and where it finds nothing all ports
from round `i` on are taken. -/
theorem search_spec (hsize : ports.size = kPortRange.toNat) {todo : ℕ} {i : UInt32}
    (hi : i.toNat + todo = kPortRange.toNat) :
    ∃ found, search ports startPort todo i = some found ∧
      (∀ port, found = some port → ports[port.toNat]? = some true) ∧
      (found = none → ∀ k, i.toNat ≤ k → k < kPortRange.toNat →
        ports[(startPort.toNat + k) % kPortRange.toNat]? = some false) := by
  induction todo generalizing i with
  | zero => exact ⟨none, rfl, nofun, fun _ k hk hk' => by omega⟩
  | succ todo ih =>
    have hround : i.toNat < kPortRange.toNat := by omega
    have hport := @port_toNat startPort i hround
    have hin : (startPort.toNat + i.toNat) % kPortRange.toNat < ports.size := by
      rw [hsize]
      exact Nat.mod_lt _ (by decide)
    rw [search, hport, Array.getElem?_eq_getElem hin, Option.bind_some]
    split
    · next hfree =>
      refine ⟨_, rfl, fun port heq => ?_, nofun⟩
      obtain rfl := Option.some.inj heq
      rw [hport, Array.getElem?_eq_getElem hin, hfree]
    · next htaken =>
      have hnext : (i + 1).toNat = i.toNat + 1 := by
        have hrange : kPortRange.toNat = 65535 := rfl
        rw [UInt32.toNat_add, UInt32.toNat_one, Nat.mod_eq_of_lt (by omega)]
      obtain ⟨found, hsearch, hfound, hnone⟩ := @ih (i + 1) (by omega)
      refine ⟨found, hsearch, hfound, fun hf k hk hk' => ?_⟩
      rcases Nat.eq_or_lt_of_le hk with rfl | hlt
      · rw [Array.getElem?_eq_getElem hin, Bool.eq_false_iff.mpr htaken]
      · exact hnone hf k (by omega) hk'

/-- **A call** on one of the addresses. -/
theorem getEndpoint_spec (h : s.Sized) (hidx : idx.toNat < extAddrs.length) (random : UInt32) :
    ∃ e s', getEndpoint idx random s = some (e, s') ∧ Serves s idx e s' ∧ s'.Sized := by
  have hlist : idx.toNat < s.portLists.size := h.lists.symm ▸ hidx
  obtain ⟨ports, hports⟩ : ∃ ports, s.portLists[idx.toNat]? = some ports :=
    ⟨_, Array.getElem?_eq_getElem hlist⟩
  have hsize := h.ports hports
  have hfree : ∀ port, s.free idx.toNat port = ports[port]? := fun port => by
    rw [Tables.free, hports, Option.bind_some]
  obtain ⟨found, hsearch, hfound, hnone⟩ :=
    @search_spec ports (1 + random).toUInt16 hsize kPortRange.toNat 0 (Nat.zero_add _)
  rw [getEndpoint, hports, Option.bind_some, hsearch, Option.bind_some]
  cases found with
  | none =>
    refine ⟨_, s, rfl, ⟨iff_of_false Bool.false_ne_true ?_, nofun, fun idx' port' => ?_, rfl⟩, h⟩
    · rintro ⟨port, hport, hyes⟩
      -- the search has come by this port
      obtain ⟨k, hk, rfl⟩ := exists_add_mod_eq (1 + random).toUInt16.toNat hport
      rw [hfree, hnone rfl k (Nat.zero_le k) hk] at hyes
      cases hyes
    · rw [if_neg fun hvalid => Bool.false_ne_true hvalid.1]
  | some port =>
    have hyes := hfound port rfl
    have hport : port.toNat < ports.size := (Array.getElem?_eq_some_iff.mp hyes).1
    have haddr : idx.toNat < s.dstAddrs.size := by
      rw [h.addrs]
      exact hidx
    dsimp only
    rw [assignAt_of_lt hport, Option.bind_some, assignAt_of_lt hlist, Option.bind_some,
      Array.getElem?_eq_getElem haddr, Option.bind_some]
    refine ⟨_, _, rfl, ⟨iff_of_true rfl ⟨port.toNat, hsize ▸ hport, by rw [hfree, hyes]⟩, fun _ =>
      ⟨Array.getElem?_eq_getElem haddr, by rw [hfree, hyes]⟩, fun idx' port' => ?_, rfl⟩,
      ⟨h.addrs, by rw [Array.size_set, h.lists], fun {i l} hl => ?_⟩⟩
    · rw [Tables.free, Array.getElem?_set]
      by_cases hi : idx.toNat = idx'
      · subst hi
        rw [if_pos rfl, Option.bind_some, Array.getElem?_set, hfree]
        refine if_congr ?_ rfl rfl
        simp only [true_and, eq_comm]
      · rw [if_neg hi, if_neg fun hsame => hi hsame.2.1.symm, Tables.free]
    · rw [Array.getElem?_set] at hl
      split at hl
      · obtain rfl := Option.some.inj hl
        rw [Array.size_set, hsize]
      · exact h.ports hl

/-! ## Runs -/

/-- The addresses are different. -/
theorem dstAddrs_nodup : configured.dstAddrs.toList.Nodup := by decide +kernel

theorem configured_sized : configured.Sized where
  addrs := rfl
  lists := by rw [configured, List.size_toArray, List.length_map]
  ports {i l} hl := by
    rw [configured, List.getElem?_toArray, List.getElem?_map, Option.map_eq_some_iff] at hl
    obtain ⟨-, -, rfl⟩ := hl
    rw [Array.size_replicate]

/-- What has been given is different, and no longer free. -/
structure Inv (t : List Endpoint × Tables) : Prop where
  /-- the tables -/
  sized : t.2.Sized
  /-- no endpoint twice -/
  nodup : (given t.1).Nodup
  /-- each is the taken port of an address -/
  taken : ∀ e ∈ given t.1, ∃ idx,
    t.2.dstAddrs[idx]? = some e.1 ∧ t.2.free idx e.2.toNat = some false

/-- After `configure` nothing has been given. -/
theorem Inv.configured : Inv ([], configured) := ⟨configured_sized, List.nodup_nil, nofun⟩

/-- What has been given after one more call. -/
theorem given_snoc (out : List Endpoint) (e : Endpoint) :
    given (out ++ [e]) = given out ++ if e.valid then [(e.addr, e.port)] else [] := by
  rw [given, List.filter_append, List.map_append, List.filter_singleton]
  cases e.valid <;> rfl

/-- An address is at one place. -/
theorem Tables.Sized.addr_inj (h : s.Sized) {i j : ℕ} {addr : UInt32}
    (hi : s.dstAddrs[i]? = some addr) (hj : s.dstAddrs[j]? = some addr) : i = j := by
  rw [h.addrs, ← Array.getElem?_toList] at hi hj
  obtain ⟨hlt, -⟩ := List.getElem?_eq_some_iff.mp hi
  exact (List.getElem?_inj hlt dstAddrs_nodup).mp (hi.trans hj.symm)

/-- A call on one of the addresses adds no endpoint that there was. -/
theorem Inv.call {t : List Endpoint × Tables} (h : Inv t) {args : UInt32 × UInt32}
    (hidx : args.1.toNat < extAddrs.length) : ∃ t', DyNAPT.call args t = some t' ∧ Inv t' := by
  obtain ⟨e, s', hcall, hserves, hsized⟩ := getEndpoint_spec h.sized hidx args.2
  refine ⟨(t.1 ++ [e], s'), by rw [DyNAPT.call, hcall, Option.map_some], hsized, ?_, ?_⟩
  · rw [given_snoc]
    cases hvalid : e.valid with
    | false =>
      rw [if_neg Bool.false_ne_true, List.append_nil]
      exact h.nodup
    | true =>
      obtain ⟨haddr, hfree⟩ := hserves.given hvalid
      rw [if_pos rfl, List.nodup_append]
      refine ⟨h.nodup, List.nodup_singleton _, fun x hx y hy heq => ?_⟩
      obtain rfl := List.mem_singleton.mp hy
      -- it would be taken already
      obtain ⟨i, hi, htaken⟩ := h.taken x hx
      rw [heq] at hi htaken
      obtain rfl := h.sized.addr_inj hi haddr
      cases htaken.symm.trans hfree
  · intro x hx
    rw [given_snoc] at hx
    rw [hserves.addrs]
    rcases List.mem_append.mp hx with hx | hx
    · obtain ⟨i, hi, htaken⟩ := h.taken x hx
      refine ⟨i, hi, ?_⟩
      rw [hserves.free, htaken, ite_self]
    · cases hvalid : e.valid with
      | false =>
        rw [hvalid] at hx
        cases hx
      | true =>
        rw [hvalid, if_pos rfl] at hx
        obtain rfl := List.mem_singleton.mp hx
        exact ⟨_, (hserves.given hvalid).1, by rw [hserves.free, if_pos ⟨hvalid, rfl, rfl⟩]⟩

/-- **Endpoints are given once.** Whatever calls there have been, on any of the addresses and with
any random starts: a further call stays within the tables, finds a port if there is one, and takes
the port it gives and no other; and no endpoint has been given twice. -/
theorem endpoints_once {calls : List (UInt32 × UInt32)}
    (hcalls : ∀ c ∈ calls, c.1.toNat < extAddrs.length) :
    ∃ out s, run calls = some (out, s) ∧ (given out).Nodup ∧
      ∀ idx random, idx.toNat < extAddrs.length →
        ∃ e s', getEndpoint idx random s = some (e, s') ∧ Serves s idx e s' := by
  obtain ⟨⟨out, s⟩, hrun, hinv⟩ := tryAll_rule (f := call) (P := fun _ t => Inv t) (l := calls)
    (fun pre c post t hl ht => ht.call (hcalls c (by rw [hl]; simp))) Inv.configured
  refine ⟨out, s, hrun, hinv.nodup, fun idx random hidx => ?_⟩
  obtain ⟨e, s', hcall, hserves, -⟩ := getEndpoint_spec hinv.sized hidx random
  exact ⟨e, s', hcall, hserves⟩

/-- Three calls on the first address and one on the last. -/
theorem endpoints_once_sample : ∃ out s, run [(0, 7), (0, 7), (53, 65535), (0, 65534)] =
      some (out, s) ∧ (given out).Nodup ∧ ∀ idx random, idx.toNat < extAddrs.length →
        ∃ e s', getEndpoint idx random s = some (e, s') ∧ Serves s idx e s' :=
  endpoints_once (by simp [extAddrs])

end DyNAPT

end Fajita
