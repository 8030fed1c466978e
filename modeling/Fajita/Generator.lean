import Fajita.Cow
import Fajita.Loop
import Mathlib.Data.UInt

/-!
# The packet generator

`FastUDPFlows` keeps one packet for each of its flows and hands out clones of them. `get_packet`
picks the flow: it stays with one for `FLOWBURST` packets, and goes on to the next (or, without
`SEQUENTIAL`, to a random one). After `FLOWSIZE` packets of a flow `change_ports` gives its
packet other ports, through `uniqueify`, so that the clones handed out before keep theirs.

The packets are Click's, of which the model takes what `Cow.Lawful` says, and so are
`click_random` and the checksums, which are the fields of `Click`. Between two calls of
`get_packet`, the elements downstream may give up any of the packets they got.
-/

namespace Fajita

namespace FastUdp

/-! ## Frames -/

/-- A frame of the generator; words are as they lie in memory. -/
structure Datagram where
  /-- `ether_shost` -/
  etherShost : ℕ
  /-- `ether_dhost` -/
  etherDhost : ℕ
  /-- `ether_type` -/
  etherType : UInt16
  /-- `ip_v` and `ip_hl` -/
  ipVHl : UInt8 × UInt8
  /-- `ip_tos`, `ip_ttl` and `ip_p` -/
  ipTosTtlP : UInt8 × UInt8 × UInt8
  /-- `ip_len` -/
  ipLen : UInt16
  /-- `ip_id` and `ip_off` -/
  ipIdOff : UInt16 × UInt16
  /-- `ip_sum` -/
  ipSum : UInt16
  /-- `ip_src` -/
  ipSrc : UInt32
  /-- `ip_dst` -/
  ipDst : UInt32
  /-- `uh_sport` -/
  uhSport : UInt16
  /-- `uh_dport` -/
  uhDport : UInt16
  /-- `uh_ulen` -/
  uhUlen : UInt16
  /-- `uh_sum` -/
  uhSum : UInt16
  /-- what `Packet::make` left behind the headers -/
  payload : List UInt8
  deriving DecidableEq

/-- `htons` -/
def htons (v : UInt16) : UInt16 := v >>> 8 ||| v <<< 8

/-- The two bytes change places. -/
theorem htons_toNat (v : UInt16) : (htons v).toNat = v.toNat % 256 * 256 + v.toNat / 256 := by
  have hlt := v.toNat_lt
  have hlow : v.toNat / 256 < 2 ^ 8 := by omega
  have hhigh : v.toNat <<< 8 % 2 ^ 16 = 2 ^ 8 * (v.toNat % 2 ^ 8) := by
    rw [Nat.shiftLeft_eq, show (2 : ℕ) ^ 16 = 2 ^ 8 * 2 ^ 8 from rfl, Nat.mul_comm,
      Nat.mul_mod_mul_left]
  rw [htons, UInt16.toNat_or, UInt16.toNat_shiftRight, UInt16.toNat_shiftLeft,
    show (8 : UInt16).toNat % 16 = 8 from rfl, hhigh, Nat.shiftRight_eq_div_pow, Nat.or_comm,
    ← Nat.two_pow_add_eq_or_of_lt hlow]
  omega

@[simp] theorem htons_htons (v : UInt16) : htons (htons v) = v := by
  have hlt := v.toNat_lt
  rw [← UInt16.toNat_inj, htons_toNat, htons_toNat]
  omega

/-! ## Configuration -/

/-- What the element is configured with. -/
structure Config where
  /-- `LENGTH`, at least 60 -/
  len : UInt32
  /-- `SRCETH` -/
  etherShost : ℕ
  /-- `DSTETH` -/
  etherDhost : ℕ
  /-- `FLOWS` -/
  nflows : UInt32
  /-- `FLOWSIZE` -/
  flowsize : UInt32
  /-- `IPCOUNT` -/
  ipcount : UInt32
  /-- `FLOWBURST` -/
  flowburst : UInt32
  /-- `CHECKSUM` -/
  cksum : Bool
  /-- `SEQUENTIAL` -/
  sequential : Bool
  /-- `SEQ_PORTS` -/
  seqPorts : Bool
  /-- `SPORTSTART` -/
  sportstart : UInt16
  /-- `DPORT` -/
  dport : UInt16

/-- What the element calls of Click, in a memory `M` with packets `Ref`. -/
structure Click (M Ref : Type) extends Cow M Ref Datagram where
  /-- the values that `click_random()` returns, one call after the other -/
  random : ℕ → UInt32
  /-- `click_in_cksum` over the IP header -/
  ipCksum : Datagram → UInt16
  /-- `click_in_cksum` over the UDP header and what follows, of the given length, and
  `click_in_cksum_pseudohdr` -/
  udpCksum : Datagram → UInt16 → UInt16

/-! ## The element -/

/-- `flow_t` -/
structure Flow (Ref : Type) where
  /-- `packet` -/
  packet : Ref
  /-- `flow_count` -/
  flowCount : UInt32

/-- The element: `_flows`, as far as it has been filled in, and the `state_t` of its thread. -/
structure Gen (M Ref : Type) where
  /-- memory -/
  mem : M
  /-- `_flows` -/
  flows : ℕ → Option (Flow Ref)
  /-- `index` -/
  index : UInt32
  /-- `burst_count` -/
  burstCount : UInt32
  /-- the calls of `click_random` so far -/
  drawn : ℕ

/-- After the constructor. -/
def Gen.new {M Ref : Type} (m : M) : Gen M Ref := ⟨m, fun _ => none, 0, 1, 0⟩

variable {M Ref : Type} (cfg : Config) (click : Click M Ref)

/-- The length of the UDP header and what follows. -/
def Config.udpLen (cfg : Config) : UInt16 := (cfg.len - 34).toUInt16

/-- The end of `change_ports` and of a round of `initialize`. -/
def withUdpSum (d : Datagram) : Datagram :=
  let d := { d with uhSum := 0 }
  { d with uhSum := if cfg.cksum then click.udpCksum d cfg.udpLen else 0 }

/-- `(click_random() >> 2) % 0xFFFF` -/
def randomPort (r : UInt32) : UInt16 := UInt16.ofNat ((r >>> 2).toNat % 0xFFFF)

/-- `(port + 1) % 0xFFFF` -/
def nextPort (port : UInt16) : UInt16 := UInt16.ofNat ((port.toNat + 1) % 0xFFFF)

/-- What `change_ports` makes of the packet. -/
def newPorts (drawn : ℕ) (d : Datagram) : Datagram :=
  withUdpSum cfg click { d with
    uhSport := if cfg.sequential then nextPort d.uhSport else randomPort (click.random drawn)
    uhDport :=
      if cfg.sequential then nextPort d.uhDport else randomPort (click.random (drawn + 1)) }

/-- `change_ports` -/
def changePorts (fl : Flow Ref) (s : Gen M Ref) : Flow Ref × Gen M Ref :=
  let q := click.modify (newPorts cfg click s.drawn) s.mem fl.packet
  ({ fl with packet := q.1 },
    { s with mem := q.2, drawn := if cfg.sequential then s.drawn else s.drawn + 2 })

/-- The first lines of `get_packet`: the number of the flow, before it becomes an `int`. -/
def pickFlow (s : Gen M Ref) : UInt32 × Gen M Ref :=
  if s.burstCount < cfg.flowburst then
    (s.index % cfg.nflows, { s with burstCount := s.burstCount + 1 })
  else if cfg.sequential then
    (s.index % cfg.nflows, { s with index := s.index + 1, burstCount := 1 })
  else
    ((click.random s.drawn >>> 2) % cfg.nflows, { s with drawn := s.drawn + 1, burstCount := 1 })

/-- `_flows[flow]` for an `int flow`: nothing below the start of the array may be asked for. -/
def intIndex (v : UInt32) : Option ℕ :=
  if v.toInt32.toInt < 0 then none else some v.toInt32.toInt.toNat

/-- The flow of the packet, with other ports where `FLOWSIZE` packets have had the same. -/
def refresh (fl : Flow Ref) (s : Gen M Ref) : Flow Ref × Gen M Ref :=
  if cfg.flowsize ≤ fl.flowCount then
    let u := changePorts cfg click fl s
    ({ u.1 with flowCount := 0 }, u.2)
  else (fl, s)

/-- `get_packet`, with the flow the packet belongs to. -/
def getPacket (s : Gen M Ref) : Option (ℕ × Ref × Gen M Ref) :=
  let picked := pickFlow cfg click s
  (intIndex picked.1).bind fun flow =>
    (picked.2.flows flow).map fun fl =>
      let r := refresh cfg click fl picked.2
      let q := click.clone r.2.mem r.1.packet
      (flow, q.1,
        { r.2 with
          mem := q.2
          flows := Function.update r.2.flows flow
            (some { r.1 with flowCount := r.1.flowCount + 1 }) })

/-- The headers that `initialize` writes into the `i`-th packet; `drawn` counts the calls of
`click_random` before. -/
def firstHeaders (drawn : ℕ) (sport : UInt16) (d : Datagram) : Datagram :=
  let d := { d with
    etherShost := cfg.etherShost
    etherDhost := cfg.etherDhost
    etherType := htons 0x0800
    ipVHl := (4, 5)
    ipLen := htons (cfg.len - 14).toUInt16
    ipIdOff := (0, 0)
    ipTosTtlP := (0, 250, 17)
    ipSrc := click.random drawn
    ipDst := click.random (drawn + 1) % cfg.ipcount
    ipSum := 0 }
  let d := { d with ipSum := click.ipCksum d }
  withUdpSum cfg click { d with
    uhSport := if cfg.seqPorts then htons sport else randomPort (click.random (drawn + 2))
    uhDport := if cfg.seqPorts then htons cfg.dport else randomPort (click.random (drawn + 3))
    uhUlen := htons cfg.udpLen }

/-- The loop of `initialize` from flow `i` on, with `n` flows to go: whether there was memory
for all packets, and what it leaves. -/
def initFlows : ℕ → ℕ → UInt16 → Gen M Ref → Bool × Gen M Ref
  | 0, _, _, s => (true, s)
  | n + 1, i, sport, s =>
    match click.make s.mem with
    | none => (false, s)
    | some (q, mem) =>
      initFlows n (i + 1) (if cfg.seqPorts then sport + 1 else sport)
        { s with
          mem := click.write mem q (firstHeaders cfg click s.drawn sport (click.data mem q))
          flows := Function.update s.flows i (some ⟨q, 0⟩)
          drawn := if cfg.seqPorts then s.drawn + 2 else s.drawn + 4 }

/-- `initialize` -/
def initializeFlows (s : Gen M Ref) : Bool × Gen M Ref :=
  initFlows cfg click cfg.nflows.toNat 0 cfg.sportstart { s with flows := fun _ => none }

/-! ## Runs -/

/-- What happens next. -/
inductive Call
  /-- `get_packet` is called -/
  | get
  /-- downstream gives up the `i`-th of the packets that it holds -/
  | kill (i : ℕ)

/-- The element and what it has returned. -/
structure Run (M Ref : Type) where
  /-- the element -/
  gen : Gen M Ref
  /-- flow and contents of all packets returned, first to last -/
  out : List (ℕ × Datagram)
  /-- those that downstream still holds, with the contents they were returned with -/
  held : List (Ref × Datagram)

/-- One call. -/
def Run.step (call : Call) (t : Run M Ref) : Option (Run M Ref) :=
  match call with
  | .get => (getPacket cfg click t.gen).map fun g =>
    { gen := g.2.2
      out := t.out ++ [(g.1, click.data g.2.2.mem g.2.1)]
      held := t.held ++ [(g.2.1, click.data g.2.2.mem g.2.1)] }
  | .kill i =>
    match t.held[i]? with
    | none => some t
    | some x => some { t with
        gen := { t.gen with mem := click.kill t.gen.mem x.1 }
        held := t.held.eraseIdx i }

/-- A run after `initialize` has left `s`. -/
def run (s : Gen M Ref) (calls : List Call) : Option (Run M Ref) :=
  tryAll (Run.step cfg click) calls ⟨s, [], []⟩

/-- The calls of `get_packet` in a run. -/
def gets (calls : List Call) : ℕ := calls.countP fun
  | .get => true
  | .kill _ => false

end FastUdp

end Fajita
