import Mathlib.Data.List.Basic
import Mathlib.Data.UInt
import Mathlib.Algebra.Group.Nat.Even

/-!
# The Internet checksum

The checksum over bytes that IP and UDP use: the bytes are read as 16-bit words, high byte first,
and a last byte without another is padded with a zero. `onesSum` adds the words with the carry
going back in at the other end, and the checksum is the complement of this sum.

Modulo 65535 the sum is the plain `total` of the words, and it is 0 only if all words are
(`onesSum_mod`, `onesSum_eq_zero`). So it does not matter in what order the words come, and
`verifies_fill` follows: bytes in which a word is set to the checksum that they have with a zero
there sum up to 65535.
-/

namespace Fajita

namespace Checksum

/-- One's complement addition of 16-bit words: the carry is added to the sum. -/
def addCarry (a b : ℕ) : ℕ := (a + b) % 65536 + (a + b) / 65536

/-- The one's complement sum of the words of some bytes. -/
def onesSum : List UInt8 → ℕ
  | [] => 0
  | [b] => b.toNat * 256
  | b :: b' :: bs => addCarry (b.toNat * 256 + b'.toNat) (onesSum bs)

/-- The checksum. -/
def cksum (bs : List UInt8) : ℕ := 65535 - onesSum bs

/-- Bytes that contain their checksum. -/
def Verifies (bs : List UInt8) : Prop := onesSum bs = 65535

instance (bs : List UInt8) : Decidable (Verifies bs) := inferInstanceAs (Decidable (_ = _))

/-- A word, high byte first. -/
def word (v : ℕ) : List UInt8 := [UInt8.ofNat (v / 256), UInt8.ofNat v]

/-- The words of some bytes, added up. -/
def total : List UInt8 → ℕ
  | [] => 0
  | [b] => b.toNat * 256
  | b :: b' :: bs => b.toNat * 256 + b'.toNat + total bs

/-! ## The sum

The carries are added in again, so that the sum is known up to multiples of 65535. It is 0 only if
all bytes are.
-/

theorem addCarry_lt {a b : ℕ} (ha : a < 65536) (hb : b < 65536) : addCarry a b < 65536 := by
  rw [addCarry]
  omega

theorem onesSum_lt (bs : List UInt8) : onesSum bs < 65536 := by
  induction bs using onesSum.induct with
  | case1 => decide
  | case2 b =>
    have hlt := b.toNat_lt
    rw [onesSum]
    omega
  | case3 b b' bs ih =>
    have hlt := b.toNat_lt
    have hlt' := b'.toNat_lt
    exact addCarry_lt (by omega) ih

/-- The carries are multiples of 65535. -/
theorem onesSum_mod (bs : List UInt8) : onesSum bs % 65535 = total bs % 65535 := by
  induction bs using onesSum.induct with
  | case1 => rfl
  | case2 b => rfl
  | case3 b b' bs ih =>
    rw [onesSum, addCarry, total]
    omega

theorem onesSum_eq_zero (bs : List UInt8) : onesSum bs = 0 ↔ total bs = 0 := by
  induction bs using onesSum.induct with
  | case1 => exact Iff.rfl
  | case2 b => exact Iff.rfl
  | case3 b b' bs ih =>
    rw [onesSum, addCarry, total]
    omega

/-- **Sums that verify** are those whose total is a multiple of 65535, and not 0. -/
theorem verifies_iff (bs : List UInt8) :
    Verifies bs ↔ total bs % 65535 = 0 ∧ total bs ≠ 0 := by
  have hlt := onesSum_lt bs
  have hmod := onesSum_mod bs
  have hzero := onesSum_eq_zero bs
  rw [Verifies]
  omega

/-! ## Filling in -/

/-- Behind an even number of bytes the words are those of the rest. -/
theorem total_append {pre : List UInt8} (h : Even pre.length) (bs : List UInt8) :
    total (pre ++ bs) = total pre + total bs := by
  induction pre using onesSum.induct with
  | case1 => rw [List.nil_append, total, Nat.zero_add]
  | case2 b => exact absurd h Nat.not_even_one
  | case3 b b' pre ih =>
    have heven : Even pre.length := by
      simpa [Nat.even_add_one] using h
    rw [List.cons_append, List.cons_append, total, total, ih heven]
    omega

theorem total_word {v : ℕ} (hv : v < 65536) (bs : List UInt8) :
    total (word v ++ bs) = v + total bs := by
  have hhigh : (UInt8.ofNat (v / 256)).toNat = v / 256 := by
    rw [UInt8.toNat_ofNat', Nat.mod_eq_of_lt (by omega)]
  have hlow : (UInt8.ofNat v).toNat = v % 256 := UInt8.toNat_ofNat'
  rw [word, List.cons_append, List.cons_append, List.nil_append, total, hhigh, hlow]
  omega

/-- **Filling in the checksum.** -/
theorem verifies_fill {pre : List UInt8} (h : Even pre.length) (post : List UInt8) :
    Verifies (pre ++ (word (cksum (pre ++ (word 0 ++ post))) ++ post)) := by
  have hlt := onesSum_lt (pre ++ (word 0 ++ post))
  have hmod := onesSum_mod (pre ++ (word 0 ++ post))
  have hzero := onesSum_eq_zero (pre ++ (word 0 ++ post))
  rw [verifies_iff, total_append h, total_word (by rw [cksum]; omega), cksum]
  rw [total_append h, total_word (by decide)] at hmod hzero
  omega

end Checksum

end Fajita
