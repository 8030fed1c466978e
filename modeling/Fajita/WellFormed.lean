import Fajita.Checksum
import Fajita.Handlers
import Fajita.Words

/-!
# What the generator sends

A frame of the generator is `WellFormed` for a length if its headers say this length and its
checksums are right, over its own bytes as they lie in memory. `initialize` makes such frames
(`wellFormed_firstHeaders`), and `change_ports` and the handlers keep them so: the ports are
covered by the UDP checksum alone, which is computed again, and the Ethernet addresses, which are
overwritten in buffers that others share, by neither.

So all packets returned are well-formed for the length in force, whatever calls there are, and
stay so as long as somebody holds them (`wellFormed_returned`).
-/

namespace Fajita

namespace FastUdp

open Checksum

variable {M Ref : Type}

/-! ## Bytes -/

/-- The bytes of a word. -/
def bytes16 (v : UInt16) : List UInt8 := leBytes 2 v.toNat

/-- The bytes of a double word. -/
def bytes32 (v : UInt32) : List UInt8 := leBytes 4 v.toNat

namespace Datagram

variable (d : Datagram)

/-- The IP header before its checksum. -/
def ipFront : List UInt8 :=
  [d.ipVHl.1 <<< 4 ||| d.ipVHl.2, d.ipTosTtlP.1] ++ bytes16 d.ipLen ++ bytes16 d.ipIdOff.1 ++
    bytes16 d.ipIdOff.2 ++ [d.ipTosTtlP.2.1, d.ipTosTtlP.2.2]

/-- The addresses. -/
def addresses : List UInt8 := bytes32 d.ipSrc ++ bytes32 d.ipDst

/-- The IP header. -/
def ipHeader : List UInt8 := d.ipFront ++ (bytes16 d.ipSum ++ d.addresses)

/-- The UDP header before its checksum. -/
def udpFront : List UInt8 := bytes16 d.uhSport ++ bytes16 d.uhDport ++ bytes16 d.uhUlen

/-- The UDP header and what follows. -/
def udp : List UInt8 := d.udpFront ++ (bytes16 d.uhSum ++ d.payload)

/-- What the UDP checksum covers besides, for a UDP length. -/
def pseudoHeader (len : UInt16) : List UInt8 :=
  d.addresses ++ [0, d.ipTosTtlP.2.2] ++ bytes16 (htons len)

/-- The length of the frame. -/
def frameLength : ℕ := 14 + d.ipHeader.length + d.udp.length

@[simp] theorem bytes16_length (v : UInt16) : (bytes16 v).length = 2 := leBytes_length ..

@[simp] theorem bytes32_length (v : UInt32) : (bytes32 v).length = 4 := leBytes_length ..

theorem udp_length : d.udp.length = 8 + d.payload.length := by
  simp [udp, udpFront]
  omega

theorem frameLength_eq : d.frameLength = 42 + d.payload.length := by
  rw [frameLength, udp_length]
  simp [ipHeader, ipFront, addresses]
  omega

/-- Another checksum is seen in its own place only. -/
theorem udp_withSum (v : UInt16) :
    { d with uhSum := v }.udp = d.udpFront ++ (bytes16 v ++ d.payload) := rfl

theorem pseudoHeader_withSum (v len : UInt16) :
    { d with uhSum := v }.pseudoHeader len = d.pseudoHeader len := rfl

theorem bytes16_zero : bytes16 0 = word 0 := rfl

/-- A word in network order is read as it was meant. -/
theorem bytes16_htons (v : UInt16) : bytes16 (htons v) = word v.toNat := by
  have hlt := v.toNat_lt
  have hhigh : (v.toNat % 256 * 256 + v.toNat / 256) / 256 = v.toNat % 256 := by
    rw [Nat.mul_comm, Nat.mul_add_div (by decide), Nat.div_eq_of_lt (by omega), Nat.add_zero]
  rw [bytes16, htons_toNat, word]
  simp only [leBytes, List.cons.injEq, and_true, ← UInt8.toNat_inj, UInt8.toNat_ofNat', hhigh]
  omega

end Datagram

/-- `click_in_cksum` and `click_in_cksum_pseudohdr` compute the Internet checksum, in network
order: over the IP header, and over the pseudo-header of an IP header without options and the
given number of bytes from the UDP header on. -/
structure Rfc1071 (click : Click M Ref) : Prop where
  /-- `click_in_cksum` -/
  ip : ∀ d, click.ipCksum d = htons (UInt16.ofNat (cksum d.ipHeader))
  /-- `click_in_cksum_pseudohdr` -/
  udp : ∀ d len, d.ipVHl.2 = 5 → len.toNat ≤ d.udp.length →
    click.udpCksum d len =
      htons (UInt16.ofNat (cksum (d.pseudoHeader len ++ d.udp.take len.toNat)))

/-- A frame of the given length as it should be. -/
structure WellFormed (ck : Bool) (len : UInt32) (d : Datagram) : Prop where
  /-- the length -/
  frame : d.frameLength = len.toNat
  /-- `ether_type` -/
  etherType : d.etherType = htons 0x0800
  /-- version 4, and no options -/
  ipVHl : d.ipVHl = (4, 5)
  /-- `ip_len` -/
  ipLen : (htons d.ipLen).toNat = len.toNat - 14
  /-- `uh_ulen` -/
  uhUlen : (htons d.uhUlen).toNat = (htons d.ipLen).toNat - 20
  /-- `ip_sum` -/
  ipSum : Verifies d.ipHeader
  /-- `uh_sum` -/
  uhSum : if ck then Verifies (d.pseudoHeader (htons d.uhUlen) ++ d.udp) else d.uhSum = 0

/-- The lengths for which the IP length field is large enough. -/
structure Fitting (len : UInt32) : Prop where
  /-- the least frame -/
  least : 60 ≤ len.toNat
  /-- the largest -/
  most : len.toNat ≤ 65549

section Frames

variable {cfg : Config} {click : Click M Ref} {d : Datagram}

theorem Fitting.ipLen {len : UInt32} (h : Fitting len) :
    (len - 14).toUInt16.toNat = len.toNat - 14 := by
  have hleast := h.least
  have hmost := h.most
  have hle : (14 : UInt32) ≤ len := UInt32.le_iff_toNat_le.mpr (by simp; omega)
  rw [UInt32.toNat_toUInt16, UInt32.toNat_sub_of_le _ _ hle, Nat.mod_eq_of_lt]
  · rfl
  · simp
    omega

theorem Fitting.udpLen (h : Fitting cfg.len) : cfg.udpLen.toNat = cfg.len.toNat - 34 := by
  have hleast := h.least
  have hmost := h.most
  have hle : (34 : UInt32) ≤ cfg.len := UInt32.le_iff_toNat_le.mpr (by simp; omega)
  rw [Config.udpLen, UInt32.toNat_toUInt16, UInt32.toNat_sub_of_le _ _ hle, Nat.mod_eq_of_lt]
  · rfl
  · simp
    omega

/-- A checksum as it is stored. -/
theorem bytes16_cksum (bs : List UInt8) :
    bytes16 (htons (UInt16.ofNat (cksum bs))) = word (cksum bs) := by
  rw [Datagram.bytes16_htons, UInt16.toNat_ofNat', Nat.mod_eq_of_lt]
  rw [cksum]
  omega

/-- **The IP checksum** of a header whose field was 0. -/
theorem verifies_ipHeader (hck : Rfc1071 click) (hzero : d.ipSum = 0) :
    Verifies { d with ipSum := click.ipCksum d }.ipHeader := by
  have heven : Even d.ipFront.length := by
    simp only [Datagram.ipFront, List.length_append, List.length_cons, List.length_nil,
      Datagram.bytes16_length]
    decide
  have hfill := verifies_fill heven d.addresses
  have hheader : d.ipHeader = d.ipFront ++ (word 0 ++ d.addresses) := by
    rw [Datagram.ipHeader, hzero]
    rfl
  rw [← hheader, ← bytes16_cksum, ← hck.ip] at hfill
  exact hfill

theorem withUdpSum_eq : withUdpSum cfg click d = { d with
    uhSum := if cfg.cksum then click.udpCksum { d with uhSum := 0 } cfg.udpLen else 0 } := rfl

/-- **The UDP checksum** at the end of `change_ports` and `initialize`. -/
theorem withUdpSum_uhSum (hck : Rfc1071 click) (hlen : Fitting cfg.len)
    (hframe : d.frameLength = cfg.len.toNat) (hhl : d.ipVHl = (4, 5))
    (hulen : d.uhUlen = htons cfg.udpLen) :
    if cfg.cksum then
      Verifies ((withUdpSum cfg click d).pseudoHeader (htons (withUdpSum cfg click d).uhUlen) ++
        (withUdpSum cfg click d).udp)
    else (withUdpSum cfg click d).uhSum = 0 := by
  split
  · next hcksum =>
    have heven : Even (d.pseudoHeader cfg.udpLen ++ d.udpFront).length := by
      simp only [Datagram.pseudoHeader, Datagram.addresses, Datagram.udpFront, List.length_append,
        List.length_cons, List.length_nil, Datagram.bytes16_length, Datagram.bytes32_length]
      decide
    have hfill := verifies_fill heven d.payload
    -- the checksum is computed over the whole rest of the frame
    have hwhole : cfg.udpLen.toNat = { d with uhSum := 0 }.udp.length := by
      have hleast := hlen.least
      have hlength : { d with uhSum := 0 }.udp.length = d.udp.length := by
        simp only [Datagram.udp_length]
      rw [Datagram.frameLength_eq] at hframe
      rw [hlength, hlen.udpLen, Datagram.udp_length]
      omega
    have hsum := hck.udp { d with uhSum := 0 } cfg.udpLen (by rw [hhl]) hwhole.le
    rw [hwhole, List.take_length, Datagram.udp_withSum, Datagram.pseudoHeader_withSum,
      Datagram.bytes16_zero, ← List.append_assoc] at hsum
    rw [← bytes16_cksum, ← hsum, List.append_assoc] at hfill
    have hulen' : (withUdpSum cfg click d).uhUlen = htons cfg.udpLen := hulen
    rw [hulen', htons_htons, withUdpSum_eq, if_pos hcksum, Datagram.udp_withSum,
      Datagram.pseudoHeader_withSum]
    exact hfill
  · next hcksum => simp only [withUdpSum, if_neg hcksum]

/-- **`initialize`** makes well-formed frames. -/
theorem wellFormed_firstHeaders (hck : Rfc1071 click) (hlen : Fitting cfg.len)
    (hframe : d.frameLength = cfg.len.toNat) (drawn : ℕ) (sport : UInt16) :
    WellFormed cfg.cksum cfg.len (firstHeaders cfg click drawn sport d) := by
  have hleast := hlen.least
  rw [Datagram.frameLength_eq] at hframe
  refine ⟨?_, rfl, rfl, ?_, ?_, ?_, ?_⟩
  · rw [Datagram.frameLength_eq, ← hframe]
    rfl
  · rw [← hlen.ipLen]
    exact congrArg UInt16.toNat (htons_htons _)
  · have hul : (htons (htons cfg.udpLen)).toNat =
        (htons (htons (cfg.len - 14).toUInt16)).toNat - 20 := by
      rw [htons_htons, htons_htons, hlen.udpLen, hlen.ipLen]
      omega
    exact hul
  · exact verifies_ipHeader (d := { d with
      etherShost := cfg.etherShost
      etherDhost := cfg.etherDhost
      etherType := htons 0x0800
      ipVHl := (4, 5)
      ipLen := htons (cfg.len - 14).toUInt16
      ipIdOff := (0, 0)
      ipTosTtlP := (0, 250, 17)
      ipSrc := click.random drawn
      ipDst := click.random (drawn + 1) % cfg.ipcount
      ipSum := 0 }) hck rfl
  · refine withUdpSum_uhSum hck hlen ?_ rfl rfl
    rw [Datagram.frameLength_eq, ← hframe]

/-- **`change_ports`** keeps them so. -/
theorem WellFormed.newPorts (h : WellFormed cfg.cksum cfg.len d) (hck : Rfc1071 click)
    (hlen : Fitting cfg.len) (drawn : ℕ) :
    WellFormed cfg.cksum cfg.len (newPorts cfg click drawn d) := by
  have hframe := h.frame
  have hulen : d.uhUlen = htons cfg.udpLen := by
    rw [← htons_htons d.uhUlen]
    refine congrArg htons (UInt16.toNat_inj.mp ?_)
    rw [h.uhUlen, h.ipLen, hlen.udpLen]
    omega
  refine ⟨?_, h.etherType, h.ipVHl, h.ipLen, h.uhUlen, h.ipSum, ?_⟩
  · rw [Datagram.frameLength_eq] at hframe ⊢
    exact hframe
  · refine withUdpSum_uhSum hck hlen ?_ h.ipVHl hulen
    rw [Datagram.frameLength_eq] at hframe ⊢
    exact hframe

/-- **The handlers of the addresses** change nothing that matters here. -/
theorem WellFormed.withEth {ck : Bool} {len : UInt32} (h : WellFormed ck len d)
    (shost dhost : ℕ) :
    WellFormed ck len { d with etherShost := shost, etherDhost := dhost } :=
  ⟨h.frame, h.etherType, h.ipVHl, h.ipLen, h.uhUlen, h.ipSum, h.uhSum⟩

end Frames

/-! ## Runs

The handlers may be called between any two packets. What they write is caught by the same invariant
as what `change_ports` writes.
-/

/-- What is called. The handlers get a value, if the text is one. -/
inductive Op
  /-- `initialize` -/
  | initializeElement
  /-- `get_packet` -/
  | get
  /-- `change_ports` -/
  | changePorts (flow : ℕ)
  /-- the handler `srceth` -/
  | srceth (addr : Option ℕ)
  /-- the handler `dsteth` -/
  | dsteth (addr : Option ℕ)
  /-- the handler `length` -/
  | length (len : Option UInt32)
  /-- downstream gives up the `i`-th of the packets that it holds -/
  | kill (i : ℕ)

/-- The element and what it has returned. -/
structure Session (M Ref : Type) where
  /-- the element -/
  element : Element M Ref
  /-- `_len` and the contents of all packets returned, first to last -/
  out : List (UInt32 × Datagram)
  /-- those that downstream still holds -/
  held : List Ref

section Calls

variable (click : Click M Ref) (make : UInt32 → M → Option (Ref × M)) (stray : ℕ → Option Ref)

/-- A call of `initialize`, with which everything ends if it fails. -/
def Session.start (t : Session M Ref) (e : Element M Ref) : Option (Session M Ref) :=
  let r := e.initializeElement click make
  if r.1 then some { t with element := r.2 } else none

/-- One call. -/
def Session.step (op : Op) (t : Session M Ref) : Option (Session M Ref) :=
  match op with
  | .initializeElement => t.start click make t.element
  | .get => (getPacket t.element.cfg click t.element.gen).map fun g =>
    { element := { t.element with gen := g.2.2 }
      out := t.out ++ [(t.element.cfg.len, click.data g.2.2.mem g.2.1)]
      held := t.held ++ [g.2.1] }
  | .changePorts i => (t.element.gen.flows i).map fun fl =>
    let r := FastUdp.changePorts t.element.cfg click fl t.element.gen
    { t with element := { t.element with gen := { r.2 with
        flows := Function.update r.2.flows i (some r.1) } } }
  | .srceth none => some t
  | .srceth (some addr) => some { t with element := t.element.srcethWrite click addr }
  | .dsteth none => some t
  | .dsteth (some addr) => some { t with element := t.element.dstethWrite click addr }
  | .length none => some t
  | .length (some len) =>
    match t.element.lengthWrite click stray len with
    | none => some t
    | some e => t.start click make e
  | .kill i =>
    match t.held[i]? with
    | none => some t
    | some r => some { t with
        element := { t.element with gen := { t.element.gen with
          mem := click.kill t.element.gen.mem r } }
        held := t.held.eraseIdx i }

/-- What the element relies on. -/
structure ClickLaws (live alone : M → Ref → Prop) : Prop where
  /-- packets are handles -/
  handles : click.Lawful live alone
  /-- of any length -/
  sized : ∀ len, (click.sized make len).Lawful live alone
  /-- whose buffers may be shared -/
  overwrites : click.Overwrites live
  /-- `Packet::make` makes packets of the length that is asked for -/
  fresh : ∀ {len m q m'}, 60 ≤ len.toNat → make len m = some (q, m') →
    (click.data m' q).frameLength = len.toNat
  /-- the checksums -/
  cksum : Rfc1071 click

/-- Between two calls: the length is one for which the fields suffice, and all packets are
well-formed, those of the flows for this length. -/
structure Element.Sound (live : M → Ref → Prop) (held : List Ref) (e : Element M Ref) : Prop where
  /-- `_len` -/
  len : Fitting e.cfg.len
  /-- all flows have packets -/
  filled : e.allocated = true → ∀ i < e.cfg.nflows.toNat, (e.gen.flows i).isSome = true
  /-- if there are any -/
  null : e.allocated = false → e.gen.flows = fun _ => none
  /-- the packets -/
  owned : click.Owned live (owner e.gen.flows held)
    (Sum.elim (fun _ => WellFormed e.cfg.cksum e.cfg.len)
      fun _ d => ∃ len, WellFormed e.cfg.cksum len d) e.gen.mem

variable {click make stray} {live alone : M → Ref → Prop} {held : List Ref} {e e' : Element M Ref}

namespace Element.Sound

/-- **`initialize`** -/
theorem initializeElement (h : e.Sound click live held) (hlaws : ClickLaws click make live alone)
    (hinit : e.initializeElement click make = (true, e')) :
    e'.Sound click live held ∧ e'.cfg = e.cfg := by
  obtain ⟨hok, rfl⟩ := Prod.mk.inj hinit
  have hrun : initializeFlows e.cfg (click.sized make e.cfg.len) e.gen =
      (true, (initializeFlows e.cfg (click.sized make e.cfg.len) e.gen).2) := Prod.ext hok rfl
  have hck : Rfc1071 (click.sized make e.cfg.len) := ⟨hlaws.cksum.ip, hlaws.cksum.udp⟩
  obtain ⟨howned, -, -, hfilled⟩ := initializeFlows_owned (hlaws.sized e.cfg.len)
    ((owned_none h.owned).congr rfl) (fun i drawn m q m' hmake =>
      wellFormed_firstHeaders hck h.len (hlaws.fresh h.len.least hmake) drawn _) hrun
  refine ⟨⟨h.len, fun _ i hi => ?_, nofun, howned.congr rfl⟩, rfl⟩
  obtain ⟨p, hp⟩ := hfilled i hi
  change ((initializeFlows e.cfg (click.sized make e.cfg.len) e.gen).2.flows i).isSome = true
  rw [hp]
  rfl

/-- **`cleanup_flows`** gives up the packets of the flows, and no others. -/
theorem cleanupFlows (h : e.Sound click live held) (hlaw : click.Lawful live alone)
    {len : UInt32} :
    click.Owned live (owner (e.cleanupFlows click stray).2.gen.flows held)
      (Sum.elim (fun _ => WellFormed e.cfg.cksum len)
        fun _ d => ∃ len, WellFormed e.cfg.cksum len d) (e.cleanupFlows click stray).2.gen.mem := by
  rw [Element.cleanupFlows]
  split
  · next halloc =>
    let left (n i : ℕ) : Option (Flow Ref) := if i < n then none else e.gen.flows i
    have hloop := forRange_rule (f := e.cleanupEntry click stray) (s := ⟨e.gen.mem, [], []⟩)
      (n := e.cfg.nflows.toNat) (fun n c => click.Owned live (owner (left n) held)
        (Sum.elim (fun _ => WellFormed e.cfg.cksum e.cfg.len)
          fun _ d => ∃ len, WellFormed e.cfg.cksum len d) c.mem) h.owned ?_
    · exact owned_none hloop
    · intro i hi c hc
      obtain ⟨fl, hfl⟩ := Option.isSome_iff_exists.mp (h.filled halloc i hi)
      have hp : owner (left i) held (.inl i) = some fl.packet := by
        simp [left, hfl]
      have hmem : (e.cleanupEntry click stray i c).mem = click.kill c.mem fl.packet := by
        simp [cleanupEntry, packetAt, hfl]
      rw [hmem]
      refine hc.kill hlaw hp ?_
      rintro (j | k) r hr
      · simp only [owner_inl, left] at hr ⊢
        split at hr
        · cases hr
        · next hlt =>
          rw [if_neg (by omega)]
          exact ⟨fun heq => hlt (by have := Sum.inl_injective heq; omega), hr⟩
      · exact ⟨Sum.inr_ne_inl, hr⟩
  · next halloc =>
    have howned := h.owned
    rw [h.null (Bool.eq_false_iff.mpr halloc)] at howned ⊢
    exact owned_none howned

theorem cleanupFlows_rest (h : e.Sound click live held) :
    (e.cleanupFlows click stray).2.gen.flows = (fun _ => none) ∧
      (e.cleanupFlows click stray).2.allocated = false ∧
      (e.cleanupFlows click stray).2.cfg = e.cfg := by
  rw [Element.cleanupFlows]
  split
  · exact ⟨rfl, rfl, rfl⟩
  · next halloc =>
    have hnull := Bool.eq_false_iff.mpr halloc
    exact ⟨h.null hnull, hnull, rfl⟩

/-- The new length has nothing to do with what is given up. -/
theorem setLength_cleanupFlows (len : UInt32) :
    ((e.setLength len).cleanupFlows click stray).2 =
      (e.cleanupFlows click stray).2.setLength len := by
  rw [Element.cleanupFlows, Element.cleanupFlows]
  change (if e.allocated then _ else _ : Cleanup M Ref × Element M Ref).2 = _
  split <;> rfl

/-- **The handler `length`** up to its call of `initialize`. -/
theorem lengthWrite (h : e.Sound click live held) (hlaw : click.Lawful live alone) {len : UInt32}
    (hlen : len.toNat ≤ 65549) (hwrite : e.lengthWrite click stray len = some e') :
    e'.Sound click live held ∧ e'.cfg.cksum = e.cfg.cksum := by
  obtain ⟨hflows, hnull, hcfg⟩ := @cleanupFlows_rest M Ref click stray live held e h
  rw [Element.lengthWrite] at hwrite
  split at hwrite
  · obtain rfl := Option.some.inj hwrite
    have hck := congrArg Config.cksum hcfg
    rw [setLength_cleanupFlows]
    refine ⟨⟨?_, fun halloc => ?_, fun _ => hflows, ?_⟩, hck⟩
    · change Fitting (if len < 60 then 60 else len)
      split
      · exact ⟨by decide, by decide⟩
      · next hge =>
        rw [UInt32.not_lt, UInt32.le_iff_toNat_le] at hge
        exact ⟨hge, hlen⟩
    · cases hnull.symm.trans halloc
    · have howned := @cleanupFlows M Ref click stray live alone held e h hlaw
        (if len < 60 then 60 else len)
      rw [← hcfg] at howned
      exact howned
  · cases hwrite

/-- The copying of the addresses, into buffers that may be shared. -/
theorem copyEth (h : e.Sound click live held) (hover : click.Overwrites live) :
    (e.copyEth click).Sound click live held ∧ (e.copyEth click).cfg = e.cfg := by
  rw [Element.copyEth]
  split
  · refine ⟨⟨h.len, h.filled, h.null, ?_⟩, rfl⟩
    refine forRange_inv (P := fun m => click.Owned live (owner e.gen.flows held)
      (Sum.elim (fun _ => WellFormed e.cfg.cksum e.cfg.len)
        fun _ d => ∃ len, WellFormed e.cfg.cksum len d) m) h.owned fun i _ m hm => ?_
    cases hfl : e.gen.flows i with
    | none => exact hm
    | some fl =>
      refine hm.overwrite hover (owner_flow hfl) (f := fun d => { d with
        etherShost := e.cfg.etherShost
        etherDhost := e.cfg.etherDhost }) ?_
      rintro (j | k) d hd
      · exact hd.withEth _ _
      · exact hd.imp fun len hd => hd.withEth _ _
  · exact ⟨h, rfl⟩

/-- **The handlers `srceth` and `dsteth`**, each of which sets one of the addresses. -/
theorem ethWrite (h : e.Sound click live held) (hover : click.Overwrites live)
    (shost dhost : ℕ) :
    (Element.copyEth click { e with cfg := { e.cfg with
        etherShost := shost, etherDhost := dhost } }).Sound click live held ∧
      (Element.copyEth click { e with cfg := { e.cfg with
        etherShost := shost, etherDhost := dhost } }).cfg.cksum = e.cfg.cksum := by
  obtain ⟨hsound, hcfg⟩ := copyEth (e := { e with cfg := { e.cfg with
    etherShost := shost, etherDhost := dhost } }) ⟨h.len, h.filled, h.null, h.owned⟩ hover
  have hck := congrArg Config.cksum hcfg
  exact ⟨hsound, hck⟩

/-- **`get_packet`** -/
theorem get (h : e.Sound click live held) (hlaws : ClickLaws click make live alone) {i : ℕ}
    {q : Ref} {s' : Gen M Ref} (hget : getPacket e.cfg click e.gen = some (i, q, s')) :
    Sound click live (held ++ [q]) { e with gen := s' } ∧
      WellFormed e.cfg.cksum e.cfg.len (click.data s'.mem q) := by
  obtain ⟨fl, hgot⟩ := getPacket_eq_some.mp hget
  obtain ⟨-, -, p, hflows⟩ := hgot.rest
  have hkeep : ∀ drawn d, WellFormed e.cfg.cksum e.cfg.len d → WellFormed e.cfg.cksum e.cfg.len
      (if e.cfg.flowsize ≤ fl.flowCount then newPorts e.cfg click drawn d else d) := by
    intro drawn d hd
    split
    · exact hd.newPorts hlaws.cksum h.len drawn
    · exact hd
  obtain ⟨howned, hsent⟩ := hgot.owned hlaws.handles h.owned hkeep (fun _ _ _ hd => hd)
    fun d hd => ⟨_, hd⟩
  refine ⟨⟨h.len, fun halloc j hj => ?_, fun hnull => ?_, howned⟩, hsent⟩
  · change (s'.flows j).isSome = true
    rw [hflows]
    rcases eq_or_ne j i with rfl | hji
    · simp
    · rw [Function.update_of_ne hji]
      exact h.filled halloc j hj
  · -- without `_flows` there is nothing to get
    have hfl := hgot.flow
    rw [h.null hnull] at hfl
    cases hfl

/-- **`change_ports`** -/
theorem changePorts (h : e.Sound click live held) (hlaws : ClickLaws click make live alone)
    {i : ℕ} {fl : Flow Ref} (hfl : e.gen.flows i = some fl) :
    Sound click live held { e with gen := { (FastUdp.changePorts e.cfg click fl e.gen).2 with
      flows := Function.update (FastUdp.changePorts e.cfg click fl e.gen).2.flows i
        (some (FastUdp.changePorts e.cfg click fl e.gen).1) } } := by
  refine ⟨h.len, fun halloc j hj => ?_, fun hnull => ?_, ?_⟩
  · rcases eq_or_ne j i with rfl | hji
    · simp
    · simp only [Function.update_of_ne hji]
      exact h.filled halloc j hj
  · rw [h.null hnull] at hfl
    cases hfl
  · exact changePorts_owned hlaws.handles h.owned hfl
      (fun d hd => hd.newPorts hlaws.cksum h.len _) (fun _ _ _ hd => hd) fl.flowCount

/-- **Downstream gives up a packet.** -/
theorem kill (h : e.Sound click live held) (hlaw : click.Lawful live alone) {k : ℕ} {r : Ref}
    (hr : held[k]? = some r) :
    Sound click live (held.eraseIdx k)
      { e with gen := { e.gen with mem := click.kill e.gen.mem r } } :=
  ⟨h.len, h.filled, h.null, kill_owned hlaw h.owned hr⟩

end Element.Sound

namespace Session

/-- What holds between two calls. -/
structure Sound (click : Click M Ref) (live : M → Ref → Prop) (ck : Bool) (t : Session M Ref) :
    Prop where
  /-- the element -/
  element : t.element.Sound click live t.held
  /-- `CHECKSUM` -/
  cksum : t.element.cfg.cksum = ck
  /-- what has been returned -/
  out : ∀ x ∈ t.out, WellFormed ck x.1 x.2

variable {ck : Bool} {t t' : Session M Ref}

theorem Sound.start (h : t.Sound click live ck) (hlaws : ClickLaws click make live alone)
    (he : e.Sound click live t.held) (hck : e.cfg.cksum = ck)
    (hstart : t.start click make e = some t') : t'.Sound click live ck := by
  rw [Session.start] at hstart
  split at hstart
  · next hok =>
    obtain rfl := Option.some.inj hstart
    obtain ⟨he', hcfg⟩ := he.initializeElement hlaws (Prod.ext hok rfl)
    exact ⟨he', by rw [← hck, ← hcfg], h.out⟩
  · cases hstart

/-- **One call.** -/
theorem Sound.step (h : t.Sound click live ck) (hlaws : ClickLaws click make live alone) {op : Op}
    (hop : ∀ len, op = .length (some len) → len.toNat ≤ 65549)
    (hstep : t.step click make stray op = some t') : t'.Sound click live ck := by
  cases op with
  | initializeElement => exact h.start hlaws h.element h.cksum hstep
  | get =>
    obtain ⟨⟨i, q, s'⟩, hget, rfl⟩ := Option.map_eq_some_iff.mp hstep
    obtain ⟨he, hsent⟩ := h.element.get hlaws hget
    refine ⟨he, h.cksum, fun x hx => ?_⟩
    rcases List.mem_append.mp hx with hx | hx
    · exact h.out x hx
    · obtain rfl := List.mem_singleton.mp hx
      rw [← h.cksum]
      exact hsent
  | changePorts i =>
    obtain ⟨fl, hfl, rfl⟩ := Option.map_eq_some_iff.mp hstep
    exact ⟨h.element.changePorts hlaws hfl, h.cksum, h.out⟩
  | srceth addr =>
    cases addr with
    | none =>
      obtain rfl := Option.some.inj hstep
      exact h
    | some addr =>
      obtain rfl := Option.some.inj hstep
      obtain ⟨he, hck⟩ := h.element.ethWrite hlaws.overwrites addr t.element.cfg.etherDhost
      exact ⟨he, hck.trans h.cksum, h.out⟩
  | dsteth addr =>
    cases addr with
    | none =>
      obtain rfl := Option.some.inj hstep
      exact h
    | some addr =>
      obtain rfl := Option.some.inj hstep
      obtain ⟨he, hck⟩ := h.element.ethWrite hlaws.overwrites t.element.cfg.etherShost addr
      exact ⟨he, hck.trans h.cksum, h.out⟩
  | length len =>
    cases len with
    | none =>
      obtain rfl := Option.some.inj hstep
      exact h
    | some len =>
      simp only [Session.step] at hstep
      split at hstep
      · obtain rfl := Option.some.inj hstep
        exact h
      · next e hwrite =>
        obtain ⟨he, hck⟩ := h.element.lengthWrite hlaws.handles (hop len rfl) hwrite
        exact h.start hlaws he (hck.trans h.cksum) hstep
  | kill k =>
    simp only [Session.step] at hstep
    split at hstep
    · obtain rfl := Option.some.inj hstep
      exact h
    · next r hr =>
      obtain rfl := Option.some.inj hstep
      exact ⟨h.element.kill hlaws.handles hr, h.cksum, h.out⟩

/-- After `configure`. -/
theorem Sound.new {cfg : Config} (hlen : Fitting cfg.len) (m : M) :
    Sound click live cfg.cksum ⟨Element.new cfg m, [], []⟩ := by
  refine ⟨⟨hlen, nofun, fun _ => rfl, ?_⟩, rfl, nofun⟩
  change click.Owned live (owner (fun _ => none) ([] : List Ref)) _ m
  rw [owner_none]
  exact Cow.Owned.none

end Session

/-- **Every packet returned is well-formed** for the length in force, whatever has been called
before, and stays well-formed as long as somebody holds it. -/
theorem wellFormed_returned {cfg : Config} (hlaws : ClickLaws click make live alone)
    (hlen : Fitting cfg.len) {ops : List Op} {m : M} {t : Session M Ref}
    (hops : ∀ len, Op.length (some len) ∈ ops → len.toNat ≤ 65549)
    (hrun : tryAll (Session.step click make stray) ops ⟨Element.new cfg m, [], []⟩ = some t) :
    (∀ x ∈ t.out, WellFormed cfg.cksum x.1 x.2) ∧
      ∀ r ∈ t.held, ∃ len, WellFormed cfg.cksum len (click.data t.element.gen.mem r) := by
  have hsound := tryAll_inv (P := Session.Sound click live cfg.cksum)
    (fun op hop t₁ t₂ h₁ h₂ => h₁.step hlaws (fun len heq => hops len (heq ▸ hop)) h₂)
    (Session.Sound.new hlen m) hrun
  refine ⟨hsound.out, fun r hr => ?_⟩
  obtain ⟨k, hk⟩ := List.getElem?_of_mem hr
  have howned := hsound.element.owned.contents (i := .inr k) hk
  rw [hsound.cksum] at howned
  exact howned

end Calls

/-! ## A session -/

namespace Small

/-- A new frame. -/
def frame (len : UInt32) : Datagram :=
  { blank with payload := List.replicate (len.toNat - 42) 0 }

/-- There is always room. -/
def makeFrame (len : UInt32) (m : Buffers Datagram) : Option (ℕ × Buffers Datagram) :=
  some (m.handles, m.make (frame len))

/-- Packets that are buffers, with checksums and some numbers. -/
def checked : Click (Buffers Datagram) ℕ where
  toCow := Buffers.cow blank
  random n := UInt32.ofNat ((n + 1) * 2654435761)
  ipCksum d := htons (UInt16.ofNat (cksum d.ipHeader))
  udpCksum d len := htons (UInt16.ofNat (cksum (d.pseudoHeader len ++ d.udp.take len.toNat)))

theorem checked_laws : ClickLaws checked makeFrame Buffers.Live Buffers.Alone where
  handles := Buffers.cow_lawful blank
  sized len := Buffers.cow_lawful (frame len)
  overwrites := Buffers.cow_overwrites blank
  fresh {len m q m'} hlen hmake := by
    obtain ⟨rfl, rfl⟩ := Prod.mk.inj (Option.some.inj hmake)
    have hdata : checked.data (m.make (frame len)) m.handles = frame len :=
      Buffers.make_spec.2.2.1
    rw [hdata, Datagram.frameLength_eq, frame, List.length_replicate]
    omega
  cksum := ⟨fun _ => rfl, fun _ _ _ _ => rfl⟩

/-- Two flows, with checksums. -/
def checksums : Config := { config 2 1 with cksum := true }

/-- Each flow changes its ports; then come another address and another length. -/
def calls : List Op :=
  [.initializeElement, .get, .get, .get, .srceth (some 5), .get, .length (some 100), .get, .kill 1]

theorem calls_wellFormed : ∃ t, tryAll (Session.step checked makeFrame fun _ => none) calls
      ⟨Element.new checksums (Buffers.empty blank), [], []⟩ = some t ∧
    t.out.map (fun x => x.1) = [60, 60, 60, 60, 100] ∧
    (∀ x ∈ t.out, WellFormed true x.1 x.2) ∧
    ∀ r ∈ t.held, ∃ len, WellFormed true len (checked.data t.element.gen.mem r) := by
  have hlens : (tryAll (Session.step checked makeFrame fun _ => none) calls
      ⟨Element.new checksums (Buffers.empty blank), [], []⟩).map
        (fun t => t.out.map fun x => x.1) = some [60, 60, 60, 60, 100] := by decide +kernel
  have hlen : Fitting checksums.len := ⟨by decide, by decide⟩
  have hops : ∀ len, Op.length (some len) ∈ calls → len.toNat ≤ 65549 := by
    intro len hop
    simp only [calls, List.mem_cons, List.not_mem_nil, reduceCtorEq, Op.length.injEq,
      Option.some.injEq, false_or, or_false] at hop
    subst hop
    decide
  obtain ⟨t, hrun, hout⟩ := Option.map_eq_some_iff.mp hlens
  exact ⟨t, hrun, hout, wellFormed_returned checked_laws hlen hops hrun⟩

end Small

end FastUdp

end Fajita
