import Mathlib.Data.List.Lex
import Mathlib.Data.Nat.Digits.Defs
import Mathlib.Data.UInt
import Mathlib.Order.Defs.LinearOrder
import Mathlib.Tactic

/-!
# Byte strings under unsigned bytewise comparison

Byte strings are lists of bytes, ordered lexicographically by the unsigned values of the bytes, a
proper prefix coming first. This is the order of `memcmp` followed by a comparison of lengths.

`beNat` reads a byte string as a big-endian number. Among strings of one length the two orders agree
(`lt_iff_beNat_lt`), which is what makes a fixed-width big-endian code usable as an ordered key.
-/

namespace Librocks

/-- A byte string: the content of a length-delimited buffer. -/
abbrev Bytes := List UInt8

/-- Bytes are compared as unsigned numbers. The fields are the core order relations on `UInt8`. -/
instance linearOrderUInt8 : LinearOrder UInt8 where
  le_refl := UInt8.le_refl
  le_trans _ _ _ := UInt8.le_trans
  lt_iff_le_not_ge a b := by
    rw [UInt8.lt_iff_toNat_lt, UInt8.le_iff_toNat_le, UInt8.le_iff_toNat_le]
    omega
  le_antisymm _ _ := UInt8.le_antisymm
  le_total := UInt8.le_total
  toDecidableLE := inferInstance

namespace Bytes

/-- Only the empty string comes before the empty string. -/
theorem eq_nil_of_le_nil {bs : Bytes} (h : bs ≤ []) : bs = [] :=
  le_antisymm h (not_lt.mp (List.not_lt_nil bs))

/-- The number a byte string denotes when its first byte is the most significant one. -/
def beNat : Bytes → ℕ
  | [] => 0
  | b :: bs => b.toNat * 256 ^ bs.length + beNat bs

@[simp] theorem beNat_nil : beNat [] = 0 := rfl

@[simp] theorem beNat_cons (b : UInt8) (bs : Bytes) :
    beNat (b :: bs) = b.toNat * 256 ^ bs.length + beNat bs := rfl

/-- A string of `n` bytes denotes a number below `256 ^ n`. -/
theorem beNat_lt (bs : Bytes) : beNat bs < 256 ^ bs.length := by
  induction bs with
  | nil => simp
  | cons b bs ih =>
    have hb : b.toNat + 1 ≤ 256 := b.toNat_lt
    have hmul : (b.toNat + 1) * 256 ^ bs.length ≤ 256 * 256 ^ bs.length :=
      Nat.mul_le_mul_right _ hb
    rw [beNat_cons, List.length_cons, pow_succ, Nat.mul_comm (256 ^ _) 256]
    rw [Nat.add_mul, Nat.one_mul] at hmul
    omega

/-- Among byte strings of one length, bytewise comparison is comparison of the big-endian values. -/
theorem lt_iff_beNat_lt {as bs : Bytes} (hlen : as.length = bs.length) :
    as < bs ↔ beNat as < beNat bs := by
  induction as generalizing bs with
  | nil =>
    obtain rfl : bs = [] := List.length_eq_zero_iff.mp hlen.symm
    simp
  | cons a as ih =>
    obtain ⟨b, bs, rfl⟩ := List.exists_cons_of_length_eq_add_one hlen.symm
    have hlen' : as.length = bs.length := by simpa using hlen
    have has := beNat_lt as
    have hbs := beNat_lt bs
    rw [List.cons_lt_cons_iff, ih hlen', beNat_cons, beNat_cons, hlen', UInt8.lt_iff_toNat_lt,
      ← UInt8.toNat_inj]
    rw [hlen'] at has
    -- the leading bytes decide unless they are equal, because the tails stay below one unit of them
    rcases Nat.lt_trichotomy a.toNat b.toNat with h | h | h
    · have hmul := Nat.mul_le_mul_right (256 ^ bs.length) (Nat.succ_le_of_lt h)
      rw [Nat.succ_mul] at hmul
      constructor
      · intro _; omega
      · intro _; exact Or.inl h
    · rw [h]
      omega
    · have hmul := Nat.mul_le_mul_right (256 ^ bs.length) (Nat.succ_le_of_lt h)
      rw [Nat.succ_mul] at hmul
      constructor
      · rintro (h' | ⟨h', _⟩) <;> omega
      · intro _; omega

/-! ## Little-endian byte strings -/

/-- The number a byte string denotes when its first byte is the least significant one. -/
def leNat : Bytes → ℕ
  | [] => 0
  | b :: bs => b.toNat + 256 * leNat bs

/-- The `n` low bytes of a number, the least significant one first. -/
def leBytes : ℕ → ℕ → Bytes
  | 0, _ => []
  | n + 1, x => UInt8.ofNat x :: leBytes n (x / 256)

@[simp] theorem length_leBytes (n x : ℕ) : (leBytes n x).length = n := by
  induction n generalizing x with
  | zero => rfl
  | succ n ih => simp [leBytes, ih]

theorem leNat_leBytes (n x : ℕ) : leNat (leBytes n x) = x % 256 ^ n := by
  induction n generalizing x with
  | zero => simp [leBytes, leNat, Nat.mod_one]
  | succ n ih =>
    rw [leBytes, leNat, ih, UInt8.toNat_ofNat', pow_succ 256, Nat.mul_comm (256 ^ n) 256,
      Nat.mod_mul]

theorem leBytes_leNat (bs : Bytes) : leBytes bs.length (leNat bs) = bs := by
  induction bs with
  | nil => rfl
  | cons b bs ih =>
    have hb : b.toNat < 256 := b.toNat_lt
    have hhead : UInt8.ofNat (b.toNat + 256 * leNat bs) = b := by
      apply UInt8.toNat_inj.mp
      rw [UInt8.toNat_ofNat']
      omega
    have htail : (b.toNat + 256 * leNat bs) / 256 = leNat bs := by omega
    rw [List.length_cons, leBytes, leNat, hhead, htail, ih]

/-- Reversing a byte string exchanges the two readings. -/
theorem beNat_reverse (bs : Bytes) : beNat bs.reverse = leNat bs := by
  induction bs with
  | nil => rfl
  | cons b bs ih =>
    have hsnoc : ∀ (as : Bytes) (b : UInt8), beNat (as ++ [b]) = 256 * beNat as + b.toNat := by
      intro as b
      induction as with
      | nil => simp
      | cons a as ih' =>
        rw [List.cons_append, beNat_cons, ih', beNat_cons, List.length_append, List.length_singleton,
          pow_succ]
        ring
    rw [List.reverse_cons, hsnoc, ih, leNat, Nat.add_comm]

end Bytes

end Librocks
