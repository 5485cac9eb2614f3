import PagedIndex.Bytes.LittleEndian
import PagedIndex.Hash.Crc32
import Mathlib.Data.Nat.Bitwise

/-!
# Checksums tell short damage

Bytes that differ from others in at most four places next to each other have another checksum
(`Crc32.checksum_ne_of_window`). Shifting is linear over exclusive or and loses nothing, since the highest bit of the
polynomial is set; so a difference in the register stays whatever is taken in after it, and four bytes just fill the
register.
-/

namespace PagedIndex.Crc32

/-! ## One bit -/

theorem shift_eq (r : UInt32) : shift r = (r >>> 1) ^^^ (if r.toNat.testBit 0 then polynomial else 0) := by
  have hlow : (r &&& 1 = 0) ↔ r.toNat.testBit 0 = false := by
    rw [← UInt32.toNat_inj, UInt32.toNat_and, Nat.testBit_zero]
    show r.toNat &&& 1 = 0 ↔ _
    rw [Nat.and_one_is_mod, decide_eq_false_iff_not]
    omega
  unfold shift
  split
  · rename_i h
    rw [hlow.mp h, if_neg (by simp), UInt32.xor_zero]
  · rename_i h
    rw [if_pos (Bool.eq_true_of_not_eq_false (mt hlow.mpr h))]

theorem xor_xor_xor_comm (a b c d : UInt32) : (a ^^^ b) ^^^ (c ^^^ d) = (a ^^^ c) ^^^ (b ^^^ d) := by ac_rfl

/-- Shifting is linear. -/
theorem shift_xor (r s : UInt32) : shift (r ^^^ s) = shift r ^^^ shift s := by
  have hmask : ∀ a b : Bool, (if a ^^ b then polynomial else 0)
      = (if a then polynomial else 0) ^^^ (if b then polynomial else 0) := by decide
  rw [shift_eq, shift_eq, shift_eq, UInt32.toNat_xor, Nat.testBit_xor, UInt32.shiftRight_xor, hmask, xor_xor_xor_comm]

theorem shift_eq_zero {r : UInt32} (h : shift r = 0) : r = 0 := by
  have hbound := r.toNat_lt
  have hhalf : (r >>> 1).toNat = r.toNat / 2 := by
    rw [UInt32.toNat_shiftRight]
    exact Nat.shiftRight_eq_div_pow r.toNat 1
  rw [shift_eq, UInt32.xor_eq_zero_iff, ← UInt32.toNat_inj, hhalf] at h
  rw [← UInt32.toNat_inj]
  show r.toNat = 0
  split at h
  · -- the highest bit of the polynomial is set, that of half a register is not
    have htop : polynomial.toNat = 3988292384 := rfl
    omega
  · rename_i hlow
    rw [Nat.testBit_zero, decide_eq_true_iff] at hlow
    have hzero : (0 : UInt32).toNat = 0 := rfl
    omega

theorem shift_injective : Function.Injective shift := by
  intro r s h
  rw [← UInt32.xor_eq_zero_iff, ← shift_xor] at h
  exact UInt32.xor_eq_zero_iff.mp (shift_eq_zero h)

/-- What is twice as much as a register can hold one bit less of comes back halved. -/
theorem shift_double {n : Nat} (h : 2 * n < 4294967296) : shift (UInt32.ofNat (2 * n)) = UInt32.ofNat n := by
  have htwice : (UInt32.ofNat (2 * n)).toNat = 2 * n := UInt32.toNat_ofNat_of_lt' h
  rw [shift_eq, htwice, Nat.testBit_zero, decide_eq_false (by omega), if_neg (by simp), UInt32.xor_zero,
    ← UInt32.toNat_inj, UInt32.toNat_shiftRight, htwice, UInt32.toNat_ofNat_of_lt' (by show n < 4294967296; omega)]
  show (2 * n) >>> 1 = n
  rw [Nat.shiftRight_eq_div_pow]
  omega

/-! ## One byte -/

/-- What eight shifts make of a register. -/
def shiftByte (r : UInt32) : UInt32 := shift (shift (shift (shift (shift (shift (shift (shift r)))))))

theorem step_eq (r : UInt32) (b : UInt8) : step r b = shiftByte (r ^^^ b.toUInt32) := rfl

theorem shiftByte_xor (r s : UInt32) : shiftByte (r ^^^ s) = shiftByte r ^^^ shiftByte s := by
  simp only [shiftByte, shift_xor]

theorem shiftByte_injective : Function.Injective shiftByte := by
  intro r s h
  unfold shiftByte at h
  iterate 8 replace h := shift_injective h
  exact h

/-- What lies above a byte comes down to its place. -/
theorem shiftByte_ofNat {n : Nat} (h : 256 * n < 4294967296) : shiftByte (UInt32.ofNat (256 * n)) = UInt32.ofNat n := by
  rw [show 256 * n = 2 * (2 * (2 * (2 * (2 * (2 * (2 * (2 * n))))))) by omega, shiftByte]
  iterate 8 rw [shift_double (by omega)]

theorem step_injective (b : UInt8) : Function.Injective fun r => step r b := by
  intro r s h
  exact (UInt32.xor_left_inj _).mp (shiftByte_injective h)

/-! ## Bytes -/

/-- Whatever is taken in afterwards, different registers stay different. -/
theorem foldl_step_injective (bytes : List UInt8) : Function.Injective fun r => bytes.foldl step r := by
  induction bytes with
  | nil => exact fun _ _ h => h
  | cons b bytes ih => exact ih.comp (step_injective b)

/-- A byte and what lies above it do not meet. -/
theorem xor_eq_add {b : Nat} (h : b < 256) (n : Nat) : b ^^^ (256 * n) = b + 256 * n := by
  apply Nat.eq_of_testBit_eq
  intro i
  rw [Nat.testBit_xor, show 256 = 2 ^ 8 by rfl, Nat.testBit_two_pow_mul, Nat.add_comm b,
    Nat.testBit_two_pow_mul_add n h]
  by_cases hi : i < 8
  · simp [hi, Nat.not_le.mpr hi]
  · have hhigh : b.testBit i = false :=
      Nat.testBit_lt_two_pow (Nat.lt_of_lt_of_le h (Nat.pow_le_pow_right Nat.zero_lt_two (Nat.not_lt.mp hi)))
    simp [hi, hhigh, Nat.not_lt.mp hi]

open Bytes.LittleEndian

/-- Up to four bytes in a register, the first one lowest. -/
def window (bytes : List UInt8) : UInt32 := UInt32.ofNat (toNat bytes)

theorem toNat_lt_of_length {bytes : List UInt8} {width : Nat} (h : bytes.length ≤ width) :
    toNat bytes < count width := by
  refine Nat.lt_of_lt_of_le (toNat_lt bytes) ?_
  induction h with
  | refl => exact Nat.le_refl _
  | step _ ih =>
    rw [count]
    omega

theorem window_injective {bytes others : List UInt8} (hlen : bytes.length ≤ 4)
    (hothers : others.length = bytes.length)
    (h : window bytes = window others) : bytes = others := by
  have hnat := congrArg UInt32.toNat h
  unfold window at hnat
  rw [UInt32.toNat_ofNat_of_lt' (toNat_lt_of_length hlen),
    UInt32.toNat_ofNat_of_lt' (toNat_lt_of_length (hothers ▸ hlen))] at hnat
  rw [← ofNat_toNat bytes, ← ofNat_toNat others, hnat, hothers]

theorem window_cons {b : UInt8} {bytes : List UInt8} (h : bytes.length < 4) :
    window (b :: bytes) = b.toUInt32 ^^^ UInt32.ofNat (256 * toNat bytes) := by
  have hall : toNat (b :: bytes) < count 4 := toNat_lt_of_length h
  rw [Bytes.LittleEndian.toNat] at hall
  rw [← UInt32.toNat_inj, UInt32.toNat_xor, UInt8.toNat_toUInt32, window, Bytes.LittleEndian.toNat,
    UInt32.toNat_ofNat_of_lt' hall, UInt32.toNat_ofNat_of_lt' (Nat.lt_of_le_of_lt (Nat.le_add_left _ _) hall),
    xor_eq_add b.toNat_lt]

/-- Taking in up to four bytes is the same as adding them to the register at once. -/
theorem foldl_step_eq {bytes : List UInt8} (h : bytes.length ≤ 4) (r : UInt32) :
    bytes.foldl step r = shiftByte^[bytes.length] (r ^^^ window bytes) := by
  induction bytes generalizing r with
  | nil => exact UInt32.xor_zero.symm
  | cons b bytes ih =>
    -- the bytes that are still to come lie above this one and are shifted down with it
    have hroom : 256 * toNat bytes < 4294967296 := by
      have hlt : toNat bytes < count 3 := toNat_lt_of_length (Nat.le_of_succ_le_succ h)
      rw [show count 3 = 16777216 from rfl] at hlt
      omega
    rw [List.foldl_cons, ih (Nat.le_of_succ_le h), List.length_cons, Function.iterate_succ_apply, window_cons h,
      ← UInt32.xor_assoc, shiftByte_xor, shiftByte_ofNat hroom, step_eq, window]

/-- Different bytes in the same place leave different registers if there are up to four of them. -/
theorem foldl_step_ne {bytes others : List UInt8} (hlen : bytes.length ≤ 4) (hothers : others.length = bytes.length)
    (hne : bytes ≠ others) (r : UInt32) : bytes.foldl step r ≠ others.foldl step r := by
  intro h
  rw [foldl_step_eq hlen, foldl_step_eq (hothers ▸ hlen), hothers] at h
  have hwindow := (UInt32.xor_right_inj _).mp (shiftByte_injective.iterate _ h)
  exact hne (window_injective hlen hothers hwindow)

/-- Bytes that differ from others only within a window of four have another checksum. -/
theorem checksum_ne_of_window {bytes others : List UInt8} (hlen : bytes.length ≤ 4)
    (hothers : others.length = bytes.length) (hne : bytes ≠ others) (front back : List UInt8) :
    checksum (front ++ bytes ++ back) ≠ checksum (front ++ others ++ back) := by
  intro h
  have hregister := (UInt32.xor_left_inj _).mp h
  simp only [List.foldl_append] at hregister
  exact foldl_step_ne hlen hothers hne _ (foldl_step_injective back hregister)

end PagedIndex.Crc32
