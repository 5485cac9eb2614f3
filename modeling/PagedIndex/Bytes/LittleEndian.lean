/-!
# Little-endian numbers

A number in a fixed count of bytes, the lowest byte first. `toNat_ofNat` and `ofNat_toNat` say that
reading undoes writing, for numbers that fit and for lists of that length; `toNat_ofNat_mod` says what becomes of the
others.
-/

namespace PagedIndex.Bytes.LittleEndian

/-- The lowest `width` bytes of `n`. -/
def ofNat : Nat → Nat → List UInt8
  | 0, _ => []
  | width + 1, n => UInt8.ofNat n :: ofNat width (n / 256)

/-- How many numbers `width` bytes can tell apart. -/
def count : Nat → Nat
  | 0 => 1
  | width + 1 => 256 * count width

/-- The number that a list of bytes stands for. -/
def toNat : List UInt8 → Nat
  | [] => 0
  | b :: bs => b.toNat + 256 * toNat bs

@[simp]
theorem length_ofNat (width n : Nat) : (ofNat width n).length = width := by
  induction width generalizing n with
  | zero => rfl
  | succ width ih => simp [ofNat, ih]

theorem toNat_lt (bs : List UInt8) : toNat bs < count bs.length := by
  induction bs with
  | nil => simp [toNat, count]
  | cons b bs ih =>
    have := b.toNat_lt
    simp only [toNat, List.length_cons, count]
    omega

/-- What is written of a number that does not fit is its remainder. -/
theorem toNat_ofNat_mod (width n : Nat) : toNat (ofNat width n) = n % count width := by
  induction width generalizing n with
  | zero => rw [ofNat, toNat, count, Nat.mod_one]
  | succ width ih => rw [ofNat, toNat, ih, UInt8.toNat_ofNat', count, Nat.mod_mul]

theorem toNat_ofNat {width n : Nat} (h : n < count width) : toNat (ofNat width n) = n := by
  rw [toNat_ofNat_mod, Nat.mod_eq_of_lt h]

theorem ofNat_one (b : UInt8) : ofNat 1 b.toNat = [b] := by
  rw [ofNat, ofNat, UInt8.ofNat_toNat]

theorem ofNat_toNat (bs : List UInt8) : ofNat bs.length (toNat bs) = bs := by
  induction bs with
  | nil => rfl
  | cons b bs ih =>
    have hb := b.toNat_lt
    have hdiv : (b.toNat + 256 * toNat bs) / 256 = toNat bs := by omega
    have hmod : UInt8.ofNat (b.toNat + 256 * toNat bs) = b := by
      apply UInt8.toNat_inj.mp
      rw [UInt8.toNat_ofNat']
      omega
    simp only [List.length_cons, ofNat, toNat, hdiv, hmod, ih]

end PagedIndex.Bytes.LittleEndian
