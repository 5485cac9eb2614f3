import PagedIndex.Decimal.Binary64

/-!
# Decimals with a fixed number of places

The exact value of a floating-point number, rounded to a number of places; a value half way between
two decimals goes to the one whose last digit is even.
-/

namespace PagedIndex.Decimal.Fixed

/-- The quotient `num / den` rounded to the nearest whole number, a half to the even one. -/
def roundHalfEven (num den : Nat) : Nat :=
  let below := num / den
  let rest := 2 * (num % den)
  if rest < den ∨ (rest = den ∧ below % 2 = 0) then below else below + 1

/-- The text of a number with `places` digits after the point. -/
def text (x : Float) (places : Nat) : String :=
  match Binary64.ofFloat x with
  | .nan => "NaN"
  | .infinite negative => signed negative "inf"
  | .finite negative significand exponent =>
    let num := (significand <<< exponent.toNat) * powerOfTen places
    signed negative (withPlaces (roundHalfEven num (1 <<< (-exponent).toNat)) places)

end PagedIndex.Decimal.Fixed
