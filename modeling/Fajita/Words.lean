import Mathlib.Data.List.Basic
import Mathlib.Data.UInt

/-!
# Words as bytes

How a little-endian machine lays words out in memory. A `Codec α` is a fixed-width
byte representation in which every byte string of the right length is the
representation of exactly one value, so reading memory as an `α` is total and nothing
is lost by it. `u32` is `uint32_t`, and `u64` serves for `double` too, whose value is
then its bit pattern.

`pack` lays out an array, `unpack` reads one, and `unpack_pack` is the round trip.
-/

namespace Fajita

universe u

/-! ## Little-endian numbers -/

/-- The lowest `n` bytes of a number, lowest first. -/
def leBytes : ℕ → ℕ → List UInt8
  | 0, _ => []
  | n + 1, v => UInt8.ofNat v :: leBytes n (v / 256)

/-- The number that bytes stand for, lowest first. -/
def leNat : List UInt8 → ℕ
  | [] => 0
  | b :: bs => b.toNat + 256 * leNat bs

/-- `leBytes` writes as many bytes as it is asked for. -/
@[simp] theorem leBytes_length (n v : ℕ) : (leBytes n v).length = n := by
  induction n generalizing v with
  | zero => rfl
  | succ n ih => rw [leBytes, List.length_cons, ih]

/-- Reading what was written gives the number, as far as it fits. -/
theorem leNat_leBytes (n v : ℕ) : leNat (leBytes n v) = v % 256 ^ n := by
  induction n generalizing v with
  | zero => rw [leBytes, leNat, pow_zero, Nat.mod_one]
  | succ n ih =>
    have hbyte : (UInt8.ofNat v).toNat = v % 256 := by simp [UInt8.toNat_ofNat']
    rw [leBytes, leNat, ih, hbyte, pow_succ', Nat.mod_mul]

/-- Writing what was read gives the bytes. -/
theorem leBytes_leNat (bs : List UInt8) : leBytes bs.length (leNat bs) = bs := by
  induction bs with
  | nil => rfl
  | cons b bs ih =>
    have hlt : b.toNat < 256 := b.toNat_lt
    have hbyte : UInt8.ofNat (b.toNat + 256 * leNat bs) = b := by
      apply UInt8.toNat_inj.mp
      rw [UInt8.toNat_ofNat', show (2 : ℕ) ^ 8 = 256 from rfl, Nat.add_mul_mod_self_left,
        Nat.mod_eq_of_lt hlt]
    have hrest : (b.toNat + 256 * leNat bs) / 256 = leNat bs := by omega
    rw [List.length_cons, leNat, leBytes, hbyte, hrest, ih]

/-- A number of `n` bytes is less than `256 ^ n`. -/
theorem leNat_lt (bs : List UInt8) : leNat bs < 256 ^ bs.length := by
  induction bs with
  | nil => exact Nat.one_pos
  | cons b bs ih =>
    have hlt : b.toNat < 256 := b.toNat_lt
    rw [leNat, List.length_cons, pow_succ']
    omega

/-- As many bytes that stand for the same number are the same bytes. -/
theorem leNat_inj {bs bs' : List UInt8} (hlen : bs.length = bs'.length) :
    leNat bs = leNat bs' ↔ bs = bs' := by
  refine ⟨fun h => ?_, fun h => by rw [h]⟩
  rw [← leBytes_leNat bs, ← leBytes_leNat bs', hlen, h]

/-- Only zero bytes stand for zero. -/
theorem leNat_eq_zero {bs : List UInt8} : leNat bs = 0 ↔ ∀ b ∈ bs, b = 0 := by
  induction bs with
  | nil => simp [leNat]
  | cons b bs ih =>
    have hbyte : b.toNat = 0 ↔ b = 0 := UInt8.toNat_inj (b := 0)
    have hhigh : 256 * leNat bs = 0 ↔ leNat bs = 0 := by omega
    rw [leNat, Nat.add_eq_zero_iff, hhigh, ih, hbyte, List.forall_mem_cons]

/-! ## Words -/

/-- A byte representation of fixed width. -/
structure Codec (α : Type u) where
  /-- how many bytes a value takes -/
  width : ℕ
  /-- the bytes of a value -/
  put : α → List UInt8
  /-- the value of some bytes -/
  get : List UInt8 → α
  /-- every value takes as many -/
  put_length : ∀ x, (put x).length = width
  /-- the bytes of a value stand for it -/
  get_put : ∀ x, get (put x) = x
  /-- there are no other bytes that do -/
  put_get : ∀ bs, bs.length = width → put (get bs) = bs

/-- `uint32_t` -/
def u32 : Codec UInt32 where
  width := 4
  put x := leBytes 4 x.toNat
  get bs := UInt32.ofNat (leNat bs)
  put_length _ := leBytes_length ..
  get_put x := by
    apply UInt32.toNat_inj.mp
    rw [UInt32.toNat_ofNat', leNat_leBytes, show (256 : ℕ) ^ 4 = 2 ^ 32 from rfl, Nat.mod_mod,
      Nat.mod_eq_of_lt x.toNat_lt]
  put_get bs h := by
    have hlt := leNat_lt bs
    rw [h] at hlt
    rw [UInt32.toNat_ofNat', Nat.mod_eq_of_lt (show leNat bs < 2 ^ 32 from hlt)]
    conv_lhs => rw [← h]
    exact leBytes_leNat bs

/-- `uint64_t`, and the bit pattern of a `double` -/
def u64 : Codec UInt64 where
  width := 8
  put x := leBytes 8 x.toNat
  get bs := UInt64.ofNat (leNat bs)
  put_length _ := leBytes_length ..
  get_put x := by
    apply UInt64.toNat_inj.mp
    rw [UInt64.toNat_ofNat', leNat_leBytes, show (256 : ℕ) ^ 8 = 2 ^ 64 from rfl, Nat.mod_mod,
      Nat.mod_eq_of_lt x.toNat_lt]
  put_get bs h := by
    have hlt := leNat_lt bs
    rw [h] at hlt
    rw [UInt64.toNat_ofNat', Nat.mod_eq_of_lt (show leNat bs < 2 ^ 64 from hlt)]
    conv_lhs => rw [← h]
    exact leBytes_leNat bs

namespace Codec

variable {α : Type u} (C : Codec α)

/-- Different bytes stand for different values. -/
theorem get_inj {bs bs' : List UInt8} (h : bs.length = C.width) (h' : bs'.length = C.width) :
    C.get bs = C.get bs' ↔ bs = bs' := by
  refine ⟨fun heq => ?_, fun heq => by rw [heq]⟩
  rw [← C.put_get bs h, ← C.put_get bs' h', heq]

/-! ## Arrays -/

/-- The bytes of an array. -/
def pack (xs : List α) : List UInt8 := xs.flatMap C.put

/-- The first `n` elements of an array that starts with the given bytes. -/
def unpack : ℕ → List UInt8 → List α
  | 0, _ => []
  | n + 1, bs => C.get (bs.take C.width) :: unpack n (bs.drop C.width)

@[simp] theorem pack_nil : C.pack [] = [] := rfl

@[simp] theorem pack_cons (x : α) (xs : List α) : C.pack (x :: xs) = C.put x ++ C.pack xs := rfl

/-- An array has the bytes of an element times their number. -/
@[simp] theorem pack_length (xs : List α) : (C.pack xs).length = xs.length * C.width := by
  induction xs with
  | nil => rw [pack_nil, List.length_nil, List.length_nil, Nat.zero_mul]
  | cons x xs ih =>
    rw [pack_cons, List.length_append, C.put_length, ih, List.length_cons, Nat.succ_mul,
      Nat.add_comm]

/-- **The round trip** of an array. -/
theorem unpack_pack (xs : List α) : C.unpack xs.length (C.pack xs) = xs := by
  induction xs with
  | nil => rfl
  | cons x xs ih =>
    have hlen := C.put_length x
    rw [pack_cons, List.length_cons, unpack, List.take_left' hlen, List.drop_left' hlen, ih,
      C.get_put]

/-- Packing what was unpacked gives the bytes. -/
theorem pack_unpack (n : ℕ) (bs : List UInt8) (h : bs.length = n * C.width) :
    C.pack (C.unpack n bs) = bs := by
  induction n generalizing bs with
  | zero =>
    rw [Nat.zero_mul] at h
    rw [unpack, pack_nil, List.length_eq_zero_iff.mp h]
  | succ n ih =>
    rw [Nat.succ_mul] at h
    have hdrop : (bs.drop C.width).length = n * C.width := by
      rw [List.length_drop]
      omega
    have htake : (bs.take C.width).length = C.width := by
      rw [List.length_take]
      omega
    rw [unpack, pack_cons, C.put_get _ htake, ih _ hdrop, List.take_append_drop]

end Codec

end Fajita
