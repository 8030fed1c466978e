import Fajita.FlowTable
import Fajita.Reads
import Fajita.Words

/-!
# Header parsing

What `extract_state` and `is_priority` read of a frame. A `Frame` is the memory from
`p->data()` on, of which the first `len` bytes belong to the frame; what lies behind them
is whatever the buffer holds. The parse is a computation that reads this memory, so the
addresses it touches come from the same text as the key it builds.

The transport header is looked for `ip_hl * 4` bytes behind the start of the IP header, and
nothing tests `len`, the ethertype or the IP version before. `parse_safe_iff` says for which
frames this does no harm: those with room for the IP header up to its addresses and for the
ports wherever `ip_hl` puts them, and with a byte of the key that is not zero. The key of
twelve zero bytes is the one `init_shards` reserves in every flow table.
-/

namespace Fajita

/-- A frame where the NIC put it: the memory from `p->data()` on, and `p->length()`. -/
structure Frame where
  /-- the memory from the start of the frame on -/
  byte : ℕ → UInt8
  /-- the bytes of it that are the frame's -/
  len : ℕ

/-- Computations on the memory of a frame. -/
abbrev Load : Type → Type := Reads ℕ UInt8

/-! ## Loads

A load is a list of addresses and what is made of the bytes there, so that a function that reads
memory says both which bytes it depends on and what it finds.
-/

/-- A number of `n` bytes, the lowest first. -/
def loadLE : ℕ → ℕ → Load ℕ
  | 0, _ => pure 0
  | n + 1, a => do
    let b ← Reads.read a
    let high ← loadLE n (a + 1)
    return b.toNat + 256 * high

/-- A load gives the bytes as a little-endian number. -/
@[simp] theorem value_loadLE (mem : ℕ → UInt8) (n a : ℕ) :
    (loadLE n a).value mem = leNat ((List.range' a n).map mem) := by
  induction n generalizing a with
  | zero => rfl
  | succ n ih =>
    rw [loadLE, Reads.value_bind, Reads.value_bind, ih, Reads.value_read, Reads.value_pure,
      List.range'_succ, List.map_cons, leNat]

/-- A load reads just its bytes. -/
@[simp] theorem addrs_loadLE (mem : ℕ → UInt8) (n a : ℕ) :
    (loadLE n a).addrs mem = List.range' a n := by
  induction n generalizing a with
  | zero => rfl
  | succ n ih =>
    rw [loadLE, Reads.addrs_bind, Reads.addrs_bind, ih, Reads.addrs_read, Reads.addrs_pure,
      List.append_nil, List.singleton_append, List.range'_succ]

/-! ## Header fields -/

/-- `sizeof(click_ether)` -/
def etherSize : ℕ := 14

/-- `ip->ip_hl`, the low half of the first byte -/
def ipHl (ip : ℕ) : Load ℕ := do return (← loadLE 1 ip) % 16

/-- `ip->ip_len` -/
def ipLen (ip : ℕ) : Load ℕ := loadLE 2 (ip + 2)

/-- `ip->ip_id` -/
def ipId (ip : ℕ) : Load ℕ := loadLE 2 (ip + 4)

/-- `ip->ip_src` -/
def ipSrc (ip : ℕ) : Load ℕ := loadLE 4 (ip + 12)

/-- `ip->ip_dst` -/
def ipDst (ip : ℕ) : Load ℕ := loadLE 4 (ip + 16)

/-- `tcp->th_sport` -/
def thSport (tcp : ℕ) : Load ℕ := loadLE 2 tcp

/-- `tcp->th_dport` -/
def thDport (tcp : ℕ) : Load ℕ := loadLE 2 (tcp + 2)

/-- `htons` and `ntohs`: the two bytes of the word change places. -/
def ntohs (v : ℕ) : ℕ := v % 256 * 256 + v / 256

/-! ## The parse

The fields are read by the offsets that the source computes, out of a memory that may hold anything.
What is a header is what these offsets make of the bytes.
-/

/-- What `extract_state` takes from a frame. -/
structure Extracted where
  /-- `tcp`, where the transport header is taken to be -/
  tcp : ℕ
  /-- `f`, without its `hash_value` -/
  f : FlowKey
  /-- `priority` -/
  priority : Bool
  /-- `iplen` -/
  iplen : ℕ

/-- `is_priority` -/
def isPriorityAt (ip : ℕ) : Load Bool := do return (← ipId ip) == ntohs 1

/-- The lines of `extract_state` that read the frame. -/
def extractHeaders : Load Extracted := do
  let ip := etherSize
  let hl ← ipHl ip
  let tcp := etherSize + hl * 4
  let srcPort ← thSport tcp
  let dstPort ← thDport tcp
  let srcAddr ← ipSrc ip
  let dstAddr ← ipDst ip
  let priority ← isPriorityAt ip
  let len ← ipLen ip
  return {
    tcp := tcp
    f := ⟨srcPort, dstPort, srcAddr, dstAddr⟩
    priority := priority
    iplen := ntohs len }

/-- `flow_empty`, the key that `init_shards` passes to `set_empty_key`. -/
def flowEmpty : FlowKey := ⟨0, 0, 0, 0⟩

namespace Frame

/-- The bytes of the frame in a range of addresses. -/
def slice (f : Frame) (a n : ℕ) : List UInt8 := (List.range' a n).map f.byte

/-- Every byte that the computation reads belongs to the frame. -/
def Inside {α : Type} (f : Frame) (r : Load α) : Prop := ∀ a ∈ r.addrs f.byte, a < f.len

/-- The header length the frame claims, in words. -/
def hl (f : Frame) : ℕ := (f.byte 14).toNat % 16

/-- Where `extract_state` looks for the transport header. -/
def tcp (f : Frame) : ℕ := etherSize + f.hl * 4

/-- The key that `extract_state` builds. -/
def key (f : Frame) : FlowKey := (extractHeaders.value f.byte).f

/-- The twelve bytes that `EqualTo` compares. -/
def keyBytes (f : Frame) : List UInt8 := f.slice f.tcp 4 ++ f.slice 26 8

/-- Header parsing is safe: it reads the frame only, and what it looks up is a key that the
flow tables can hold. -/
def Safe (f : Frame) : Prop :=
  f.Inside extractHeaders ∧ f.Inside (isPriorityAt etherSize) ∧ f.key ≠ flowEmpty

variable (f : Frame)

/-- **What the parse finds**, if each load finds its bytes. -/
theorem value_extractHeaders :
    extractHeaders.value f.byte =
      { tcp := f.tcp
        f := ⟨leNat (f.slice f.tcp 2), leNat (f.slice (f.tcp + 2) 2), leNat (f.slice 26 4),
          leNat (f.slice 30 4)⟩
        priority := leNat (f.slice 18 2) == ntohs 1
        iplen := ntohs (leNat (f.slice 16 2)) } := by
  simp [extractHeaders, isPriorityAt, ipHl, ipLen, ipId, ipSrc, ipDst, thSport, thDport, tcp, hl,
    etherSize, slice, leNat]

/-- **What the parse reads.** -/
theorem addrs_extractHeaders :
    extractHeaders.addrs f.byte =
      [14] ++ (List.range' f.tcp 2 ++ (List.range' (f.tcp + 2) 2 ++ (List.range' 26 4 ++
        (List.range' 30 4 ++ (List.range' 18 2 ++ List.range' 16 2))))) := by
  simp [extractHeaders, isPriorityAt, ipHl, ipLen, ipId, ipSrc, ipDst, thSport, thDport, tcp, hl,
    etherSize, leNat]

@[simp] theorem slice_length (a n : ℕ) : (f.slice a n).length = n := by
  rw [slice, List.length_map, List.length_range']

theorem slice_add (a m n : ℕ) : f.slice a (m + n) = f.slice a m ++ f.slice (a + m) n := by
  rw [slice, ← List.range'_append_1, List.map_append, slice, slice]

/-- The key is four fields of the frame. -/
theorem key_eq :
    f.key = ⟨leNat (f.slice f.tcp 2), leNat (f.slice (f.tcp + 2) 2), leNat (f.slice 26 4),
      leNat (f.slice 30 4)⟩ := by
  rw [key, value_extractHeaders]

/-- The bytes of the key are those of four fields of the frame. -/
theorem keyBytes_eq :
    f.keyBytes =
      (f.slice f.tcp 2 ++ f.slice (f.tcp + 2) 2) ++ (f.slice 26 4 ++ f.slice 30 4) := by
  rw [keyBytes, ← slice_add, ← slice_add]

/-- Two keys are equal exactly when `EqualTo` finds their bytes equal. -/
theorem key_inj {f f' : Frame} : f.key = f'.key ↔ f.keyBytes = f'.keyBytes := by
  have hlen : ∀ (a a' n : ℕ), (f.slice a n).length = (f'.slice a' n).length := fun a a' n => by
    rw [slice_length, slice_length]
  rw [key_eq, key_eq, FlowKey.mk.injEq, leNat_inj (hlen ..), leNat_inj (hlen ..),
    leNat_inj (hlen ..), leNat_inj (hlen ..), keyBytes_eq, keyBytes_eq,
    List.append_eq_append_iff_of_size_eq_left (by simp),
    List.append_eq_append_iff_of_size_eq_left (hlen ..),
    List.append_eq_append_iff_of_size_eq_left (hlen ..), and_assoc]

/-- The reserved key is the one of twelve zero bytes. -/
theorem key_eq_flowEmpty : f.key = flowEmpty ↔ ∀ b ∈ f.keyBytes, b = 0 := by
  rw [key_eq, flowEmpty, FlowKey.mk.injEq, leNat_eq_zero, leNat_eq_zero, leNat_eq_zero,
    leNat_eq_zero, keyBytes_eq, List.forall_mem_append, List.forall_mem_append,
    List.forall_mem_append, and_assoc]

/-- The frame reaches as far as the parse looks: to the end of the IP addresses, and to the
end of the ports behind as many words of IP header as it claims to have. -/
def HeadersFit : Prop := 34 ≤ f.len ∧ etherSize + f.hl * 4 + 4 ≤ f.len

/-- The parse stays inside the frame exactly if the headers fit. -/
theorem inside_extractHeaders : f.Inside extractHeaders ↔ f.HeadersFit := by
  simp only [Inside, addrs_extractHeaders, List.forall_mem_append, List.forall_mem_singleton,
    List.mem_range'_1, HeadersFit, tcp]
  constructor
  · rintro ⟨-, -, hports, -, haddrs, -, -⟩
    have hlast := haddrs 33 (by omega)
    have hport := hports (etherSize + f.hl * 4 + 3) (by omega)
    omega
  · rintro ⟨haddrs, hports⟩
    refine ⟨by omega, ?_, ?_, ?_, ?_, ?_, ?_⟩ <;> intro a ha <;> omega

/-- The test for priority stays inside the frame if there are 20 bytes. -/
theorem inside_isPriorityAt : f.Inside (isPriorityAt etherSize) ↔ 20 ≤ f.len := by
  have haddrs : (isPriorityAt etherSize).addrs f.byte = List.range' 18 2 := by
    simp [isPriorityAt, ipId, etherSize]
  rw [Inside, haddrs]
  simp only [List.mem_range'_1]
  constructor
  · intro h
    have := h 19 (by omega)
    omega
  · intro h a ha
    omega

/-- **Which frames are parsed safely**: those that reach as far as the parse looks, and whose
addresses and ports are not all zero. -/
theorem parse_safe_iff : f.Safe ↔ f.HeadersFit ∧ ∃ b ∈ f.keyBytes, b ≠ 0 := by
  have hkey : f.key ≠ flowEmpty ↔ ∃ b ∈ f.keyBytes, b ≠ 0 := by
    rw [Ne, key_eq_flowEmpty, not_forall]
    simp only [Classical.not_imp, ne_eq]
  rw [Safe, inside_extractHeaders, inside_isPriorityAt, hkey]
  constructor
  · rintro ⟨hfit, -, hbyte⟩
    exact ⟨hfit, hbyte⟩
  · rintro ⟨hfit, hbyte⟩
    exact ⟨hfit, by have := hfit.1; omega, hbyte⟩

/-- A frame whose memory holds zeros behind it. -/
def ofBytes (bs : List UInt8) : Frame := ⟨fun a => bs.getD a 0, bs.length⟩

/-- There is always a zero further on. -/
theorem ofBytes_zero (bs : List UInt8) (a : ℕ) : ∃ j, a ≤ j ∧ (ofBytes bs).byte j = 0 := by
  refine ⟨max a bs.length, Nat.le_max_left .., ?_⟩
  change bs.getD (max a bs.length) 0 = 0
  rw [List.getD_eq_getElem?_getD, List.getElem?_eq_none (Nat.le_max_right ..), Option.getD_none]

/-- Two frames of the least length of Ethernet. The first claims an IP header of 15 words and
is read up to 18 bytes behind its end; the second has the reserved key. -/
theorem frames_unsafe :
    (14 ≤ (ofBytes (List.replicate 60 0x4f)).len ∧ ¬ (ofBytes (List.replicate 60 0x4f)).Safe) ∧
      14 ≤ (ofBytes (List.replicate 60 0)).len ∧ ¬ (ofBytes (List.replicate 60 0)).Safe := by
  refine ⟨⟨by decide, fun h => ?_⟩, by decide, fun h => ?_⟩
  · exact absurd (h.1 77 (by decide)) (by decide)
  · exact h.2.2 (by decide)

/-! ## The packet of the flow tables

In the models of the router a packet is what its lookup needs. The frame that it was parsed from
comes in here.
-/

/-- The packet that the working core goes on with. -/
def packet (f : Frame) (mbuf rss : ℕ) : Packet where
  mbuf := mbuf
  flow := f.key
  rss := rss
  ipId := ntohs (leNat (f.slice 18 2))
  ipLen := (extractHeaders.value f.byte).iplen

/-- Swapping the bytes of a half-word is its own inverse. -/
theorem ntohs_eq_iff {v : ℕ} (hv : v < 65536) : ntohs v = 1 ↔ v = ntohs 1 := by
  rw [ntohs, ntohs]
  omega

/-- `is_priority` compares the identification in network order. -/
theorem isPriority_packet (mbuf rss : ℕ) :
    isPriority (f.packet mbuf rss) = (isPriorityAt etherSize).value f.byte := by
  have hlt : leNat (f.slice 18 2) < 256 ^ (f.slice 18 2).length := leNat_lt _
  rw [slice_length] at hlt
  have hvalue : (isPriorityAt etherSize).value f.byte = (leNat (f.slice 18 2) == ntohs 1) := by
    simp [isPriorityAt, ipId, etherSize, slice]
  rw [hvalue, isPriority, packet, Bool.eq_iff_iff, decide_eq_true_iff, beq_iff_eq,
    ntohs_eq_iff (by omega)]

end Frame

end Fajita
