import PagedIndex.Decimal.Binary64

/-!
# Shortest decimals

The text of a floating-point number has the fewest digits that still read back as that number; of two
such decimals it is the nearer one, and of two equally near ones the larger. The text is positional
whatever the size of the number, and a whole number is written without a point.
-/

namespace PagedIndex.Decimal.Shortest

/-- The reals that read back as one number: `low / unit` to `high / unit` around `value / unit`. -/
structure Neighbourhood where
  low : Nat
  value : Nat
  high : Nat
  unit : Nat
  /-- Whether the two ends read back as the number too. -/
  closed : Bool

/-- The neighbourhood of `significand * 2 ^ exponent`, half way to the numbers next to it. -/
def neighbourhood (significand : Nat) (exponent : Int) : Neighbourhood :=
  let scale := 1 <<< exponent.toNat
  let down := if Binary64.isStepDown significand exponent then 1 else 2
  { low := (4 * significand - down) * scale
    value := 4 * significand * scale
    high := (4 * significand + 2) * scale
    unit := 4 <<< (-exponent).toNat
    closed := significand % 2 == 0 }

/-- Whether the decimal `digits * 10 ^ place` lies in the neighbourhood. -/
def Neighbourhood.holds (near : Neighbourhood) (place : Int) (digits : Nat) : Bool :=
  let lift := powerOfTen (-place).toNat
  let point := digits * (near.unit * powerOfTen place.toNat)
  let low := near.low * lift
  let high := near.high * lift
  if near.closed then low ≤ point && point ≤ high else low < point && point < high

/-- The multiple of `10 ^ place` in the neighbourhood that is nearest to its number. -/
def Neighbourhood.multiple? (near : Neighbourhood) (place : Int) : Option Nat :=
  let lift := powerOfTen (-place).toNat
  let step := near.unit * powerOfTen place.toNat
  let value := near.value * lift
  let below := value / step
  match near.holds place below, near.holds place (below + 1) with
  | true, true => if value - below * step < (below + 1) * step - value then some below else some (below + 1)
  | true, false => some below
  | false, true => some (below + 1)
  | false, false => none

/-- Tries the places from `place` downwards, at most `tries` of them. -/
def search (near : Neighbourhood) : Nat → Int → Nat × Int
  | 0, place => (near.value * powerOfTen (-place).toNat / near.unit, place)
  | tries + 1, place =>
    match near.multiple? place with
    | some digits => (digits, place)
    | none => search near tries (place - 1)

/-- The shortest decimal `digits * 10 ^ place` of `significand * 2 ^ exponent`. -/
def ofBinary (significand : Nat) (exponent : Int) : Nat × Int :=
  let near := neighbourhood significand exponent
  let places := (Nat.toDigits 10 (near.value / near.unit)).length
  search near (places + (-exponent).toNat) places

/-- The positional text of `digits * 10 ^ place`. -/
def positional (digits : Nat) (place : Int) : String :=
  withPlaces (digits * powerOfTen place.toNat) (-place).toNat

/-- The shortest text of a number. -/
def text : Binary64 → String
  | .nan => "NaN"
  | .infinite negative => signed negative "inf"
  | .finite negative 0 _ => signed negative "0"
  | .finite negative significand exponent =>
    let (digits, place) := ofBinary significand exponent
    signed negative (positional digits place)

end PagedIndex.Decimal.Shortest
