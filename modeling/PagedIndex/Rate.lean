import PagedIndex.Decimal.Shortest

/-!
# Rates

The share of absent keys that a filter may wrongly admit. A rate is handed on bit for bit, so it is
the 64 bits of a floating-point number and not the number itself: many bit patterns stand for no
number, and they stay apart.
-/

namespace PagedIndex

/-- A share, as the 64 bits of a floating-point number. -/
structure Rate where
  bits : UInt64
deriving DecidableEq, Repr

namespace Rate

/-- One in a hundred. -/
def percent : Rate := ⟨0x3F847AE147AE147B⟩

/-- The bits of the number one. -/
def oneBits : UInt64 := 0x3FF0000000000000

/-- Whether a rate lies strictly between zero and one. Numbers above zero are ordered as their bits,
and the bits of all others are zero or come after those of one. -/
def isProper (rate : Rate) : Bool := 0 < rate.bits && rate.bits < oneBits

/-- The number that the bits stand for. -/
def toFloat (rate : Rate) : Float := Float.ofBits rate.bits

/-- The text of a rate in messages. -/
def text (rate : Rate) : String := Decimal.Shortest.text (.ofBits rate.bits.toNat)

end Rate

end PagedIndex
