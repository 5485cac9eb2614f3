/-!
# Floating-point numbers taken apart

A finite 64-bit floating-point number is a natural number times a power of two. Printing works on
that pair in exact arithmetic.
-/

namespace PagedIndex.Decimal

/-- A 64-bit floating-point number: not a number, an infinity, or `significand * 2 ^ exponent`. -/
inductive Binary64 where
  | nan
  | infinite (negative : Bool)
  | finite (negative : Bool) (significand : Nat) (exponent : Int)
deriving DecidableEq, Repr

namespace Binary64

/-- The significand's leading bit, which the stored fraction of a normal number leaves out. -/
def leadingBit : Nat := 0x10000000000000

/-- Reads the sign bit, the eleven exponent bits and the fifty-two fraction bits. -/
def ofBits (bits : Nat) : Binary64 :=
  let negative := bits >>> 63 % 2 == 1
  let biased : Nat := bits >>> 52 % 2048
  let fraction : Nat := bits % leadingBit
  if biased = 2047 then
    if fraction = 0 then infinite negative else nan
  else if biased = 0 then
    finite negative fraction (-1074)
  else
    finite negative (leadingBit + fraction) ((biased : Int) - 1075)

/-- The parts of a number. -/
def ofFloat (x : Float) : Binary64 := ofBits x.toBits.toNat

/-- Whether the next smaller number lies only half as far away as the next larger one. -/
def isStepDown (significand : Nat) (exponent : Int) : Bool :=
  significand == leadingBit && exponent > -1074

end Binary64

/-- The power of ten by which a decimal grows when its point moves by `places`. -/
def powerOfTen (places : Nat) : Nat := Nat.pow 10 places

/-- A negative number's text starts with a minus sign. -/
def signed (negative : Bool) (text : String) : String :=
  if negative then "-" ++ text else text

/-- The text of `digits / 10 ^ places`, with exactly `places` digits after the point. -/
def withPlaces (digits places : Nat) : String :=
  if places = 0 then toString digits
  else
    let shown := Nat.toDigits 10 digits
    let padded := List.replicate (places + 1 - shown.length) '0' ++ shown
    let whole := padded.length - places
    String.ofList (padded.take whole) ++ "." ++ String.ofList (padded.drop whole)

end PagedIndex.Decimal
