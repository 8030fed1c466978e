import Fajita.Checked
import Fajita.Loop
import Mathlib.Data.UInt

/-!
# The source counter

`SourceCounter` is a baseline of the experiments: it counts packets, in batches. For each batch
it allocates three arrays, in which it prepares the lookup of the packets' addresses in a hash
table; the lookup itself is commented out, and the packets are all counted in the first counter.

Two of the arrays have as many elements as the batch has packets, and the third has 64.
`counts_iff` says that the batches are processed, and counted, exactly if none of them has more.
-/

namespace Fajita

namespace SourceCounter

/-! ## The element -/

/-- `rte_hash_create`, of which only matters here whether it makes a table. -/
structure RteHash where
  /-- a table for so many entries -/
  create : UInt32 → Bool
  /-- there are no tables for no entries -/
  refuses : create 0 = false

/-- The element after `configure`. -/
structure Element where
  /-- `_offset`: where a packet has the address that it is counted by -/
  offset : ℕ
  /-- `_local_fcbs` -/
  localFcbs : Array UInt32
  /-- there is a first counter -/
  nonempty : 0 < localFcbs.size

/-- `configure` with `CAPACITY` and `ISSRC`, if there can be a table. -/
def configure (hash : RteHash) (capacity : UInt32) (isSrc : Bool) : Option Element :=
  if h : hash.create capacity = true then
    some {
      offset := if isSrc then 26 else 30
      localFcbs := Array.replicate capacity.toNat 0
      nonempty := by
        rw [Array.size_replicate]
        by_contra hzero
        obtain rfl : capacity = 0 := UInt32.toNat_inj.mp (Nat.eq_zero_of_not_pos hzero)
        rw [hash.refuses] at h
        cases h }
  else none

/-- A packet, as far as it matters here. -/
structure Packet where
  /-- `data()` -/
  data : ℕ

/-- A batch has at least one packet. -/
structure PacketBatch where
  /-- the first packet, which stands for the batch -/
  first : Packet
  /-- those that follow it -/
  others : List Packet

/-- The packets of a batch. -/
def PacketBatch.packets (head : PacketBatch) : List Packet := head.first :: head.others

/-- `count()` -/
def PacketBatch.count (head : PacketBatch) : ℕ := head.packets.length

/-- The arrays of one call. -/
structure Scratch where
  /-- `positions` -/
  positions : Array ℤ
  /-- `ret`, as numbers of elements of `positions` -/
  ret : Array ℕ
  /-- `key_array` -/
  keyArray : Array ℕ

/-- The arrays of a call for so many packets. -/
def Scratch.new (count : ℕ) : Scratch where
  positions := Array.replicate count 0
  ret := Array.replicate count 0
  keyArray := Array.replicate 64 0

/-- `&(positions[index])` -/
def Scratch.position (t : Scratch) (index : ℕ) : Option ℕ :=
  if index < t.positions.size then some index else none

/-- The first loop, from packet number `index` on. -/
def prepare (offset : ℕ) : List Packet → ℕ → Scratch → Option Scratch
  | [], _, t => some t
  | p :: ps, index, t =>
    (assignAt t.keyArray index (p.data + offset)).bind fun keyArray =>
    (t.position index).bind fun position =>
    (assignAt t.ret index position).bind fun ret =>
    prepare offset ps (index + 1) { t with keyArray := keyArray, ret := ret }

/-- `_local_fcbs[0]++` -/
def Element.countPacket (c : Element) : Element :=
  { c with
    localFcbs := c.localFcbs.modify 0 (· + 1)
    nonempty := by
      rw [Array.size_modify]
      exact c.nonempty }

/-- `simple_action_batch`, if it stays within its arrays. -/
def simpleActionBatch (head : PacketBatch) (c : Element) : Option (PacketBatch × Element) :=
  (prepare c.offset head.packets 0 (Scratch.new head.count)).map fun _ =>
    (head, head.packets.foldl (fun c _ => c.countPacket) c)

/-- A batch goes through the element and follows those before it. -/
def pass (head : PacketBatch) (t : List PacketBatch × Element) :
    Option (List PacketBatch × Element) :=
  (simpleActionBatch head t.2).map fun u => (t.1 ++ [u.1], u.2)

/-- One batch after the other. -/
def run (batches : List PacketBatch) (c : Element) : Option (List PacketBatch × Element) :=
  tryAll pass batches ([], c)

/-! ## What it counts

Every packet adds one to the first counter, whatever its source address is. So this one has the
number of all packets, modulo 2^32.
-/

/-- The sum of all counters, which are words. -/
def Element.total (c : Element) : UInt32 := c.localFcbs.toList.sum

/-- A new element has counted nothing. -/
theorem configure_total {hash : RteHash} {capacity : UInt32} {isSrc : Bool} {c : Element}
    (h : configure hash capacity isSrc = some c) : c.total = 0 := by
  rw [configure] at h
  split at h
  · obtain rfl := Option.some.inj h
    rw [Element.total, Array.toList_replicate]
    induction capacity.toNat with
    | zero => rfl
    | succ n ih => rw [List.replicate_succ, List.sum_cons, ih, UInt32.add_zero]
  · cases h

/-- The packets of some batches. -/
def packets (batches : List PacketBatch) : ℕ := (batches.map PacketBatch.count).sum

@[simp] theorem packets_append (batches batches' : List PacketBatch) :
    packets (batches ++ batches') = packets batches + packets batches' := by
  simp [packets]

variable {c : Element} {t : Scratch} {ps : List Packet} {index offset : ℕ}

theorem total_countPacket (c : Element) : c.countPacket.total = c.total + 1 := by
  obtain ⟨offset, ⟨fcbs⟩, hpos⟩ := c
  cases fcbs with
  | nil => exact absurd hpos (Nat.lt_irrefl 0)
  | cons x fcbs =>
    simp only [Element.countPacket, Element.total, List.modify_toArray, List.modify_zero_cons,
      List.sum_cons]
    exact add_right_comm x 1 fcbs.sum

theorem total_countAll (ps : List Packet) (c : Element) :
    (ps.foldl (fun c _ => c.countPacket) c).total = c.total + UInt32.ofNat ps.length := by
  induction ps generalizing c with
  | nil => exact (add_zero c.total).symm
  | cons p ps ih =>
    rw [List.foldl_cons, ih, total_countPacket, List.length_cons, add_assoc, add_comm 1,
      UInt32.ofNat_add]
    rfl

/-- The first loop goes through exactly if all three arrays have an element for every packet. -/
theorem prepare_isSome_iff : (prepare offset ps index t).isSome ↔
    ps = [] ∨ index + ps.length ≤ t.keyArray.size ∧ index + ps.length ≤ t.positions.size ∧
      index + ps.length ≤ t.ret.size := by
  induction ps generalizing index t with
  | nil => exact iff_of_true rfl (.inl rfl)
  | cons p ps ih =>
    rw [prepare, List.length_cons, Scratch.position]
    by_cases hroom : index < t.keyArray.size ∧ index < t.positions.size ∧ index < t.ret.size
    · obtain ⟨hkey, hposition, hret⟩ := hroom
      rw [assignAt_of_lt hkey, Option.bind_some, if_pos hposition, Option.bind_some,
        assignAt_of_lt hret, Option.bind_some, ih]
      simp only [Array.size_set, List.cons_ne_nil, false_or]
      -- one element further on, or none left to go
      cases ps with
      | nil => simp only [true_or, List.length_nil, true_iff]; omega
      | cons p' ps => simp only [List.cons_ne_nil, false_or, List.length_cons]; omega
    · refine iff_of_false ?_ fun h => hroom ?_
      · by_cases hkey : index < t.keyArray.size
        · rw [assignAt_of_lt hkey, Option.bind_some]
          split
          · next hposition =>
            have hret := Nat.not_lt.mp fun hret => hroom ⟨hkey, hposition, hret⟩
            rw [Option.bind_some, assignAt_of_le hret]
            exact Bool.false_ne_true
          · exact Bool.false_ne_true
        · rw [assignAt_of_le (Nat.not_lt.mp hkey)]
          exact Bool.false_ne_true
      · have hlong := h.resolve_left (List.cons_ne_nil p ps)
        omega

/-- **A batch** stays within the arrays exactly if it has at most 64 packets. -/
theorem simpleActionBatch_eq (head : PacketBatch) (c : Element) : simpleActionBatch head c =
    if head.count ≤ 64 then some (head, head.packets.foldl (fun c _ => c.countPacket) c)
    else none := by
  have hfits : (prepare c.offset head.packets 0 (Scratch.new head.count)).isSome ↔
      head.count ≤ 64 := by
    rw [prepare_isSome_iff]
    simp [Scratch.new, PacketBatch.packets, PacketBatch.count]
  rw [simpleActionBatch]
  split
  · next hfew =>
    obtain ⟨t, ht⟩ := Option.isSome_iff_exists.mp (hfits.mpr hfew)
    rw [ht, Option.map_some]
  · next hmany =>
    rw [Option.not_isSome_iff_eq_none.mp (mt hfits.mp hmany), Option.map_none]

/-- What a batch too many packets long comes to. -/
theorem pass_of_many {head : PacketBatch} (hmany : ¬ head.count ≤ 64)
    (t : List PacketBatch × Element) : pass head t = none := by
  rw [pass, simpleActionBatch_eq, if_neg hmany, Option.map_none]

/-- **Batches are counted**, and passed on as they are, exactly if none of them has more than 64
packets. -/
theorem counts_iff (batches : List PacketBatch) (c : Element) :
    (∃ c', run batches c = some (batches, c') ∧
        c'.total = c.total + UInt32.ofNat (packets batches)) ↔
      ∀ head ∈ batches, head.count ≤ 64 := by
  constructor
  · rintro ⟨c', hrun, -⟩ head hhead
    by_contra hmany
    cases hrun.symm.trans (tryAll_none hhead (pass_of_many hmany) ([], c))
  · intro hfew
    let P : List PacketBatch → List PacketBatch × Element → Prop := fun pre t =>
      t.1 = pre ∧ t.2.total = c.total + UInt32.ofNat (packets pre)
    have hstep : ∀ pre head post t, batches = pre ++ head :: post → P pre t →
        ∃ t', pass head t = some t' ∧ P (pre ++ [head]) t' := by
      rintro pre head post ⟨out, t⟩ rfl ⟨rfl, htotal⟩
      have hhead : head.count ≤ 64 := hfew head (by simp)
      refine ⟨_, by rw [pass, simpleActionBatch_eq, if_pos hhead, Option.map_some], rfl, ?_⟩
      rw [total_countAll, htotal, packets_append, UInt32.ofNat_add, add_assoc]
      rfl
    have hstart : P [] ([], c) := ⟨rfl, (add_zero c.total).symm⟩
    obtain ⟨⟨out, c'⟩, hrun, rfl, htotal⟩ := tryAll_rule hstep hstart
    exact ⟨c', hrun, htotal⟩

/-! ## A small counter -/

namespace Small

/-- A counter with a table of 8 entries, the smallest there is. -/
def counter : Element := ⟨26, #[0, 0, 0, 0, 0, 0, 0, 0], by decide⟩

/-- A packet and so many others. -/
def batch (others : ℕ) : PacketBatch := ⟨⟨0⟩, List.replicate others ⟨0⟩⟩

/-- A batch of 65 packets is written past the end of `key_array`. -/
theorem longBatch_not_counted : ¬ ∃ c', run [batch 64] counter = some ([batch 64], c') ∧
    c'.total = counter.total + UInt32.ofNat (packets [batch 64]) := by
  rintro ⟨c', hrun, -⟩
  cases hrun.symm.trans (tryAll_none (List.mem_singleton.mpr rfl) (pass_of_many (by decide)) _)

end Small

end SourceCounter

end Fajita
