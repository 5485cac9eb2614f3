import PagedIndex.Text.Quoted

/-!
# Measures

A measure is a number kept for every set of items: how many there are, or the sum, minimum or maximum
of a number chosen from each. Every page carries the values of all measures of the items below it.
Values of disjoint sets combine; taking an item's value out again works unless the item may have held
the extreme.
-/

namespace PagedIndex

/-- A number kept for every set of items. -/
inductive Measure (I : Type) where
  /-- How many items there are. -/
  | count
  /-- The sum, modulo 2^64. -/
  | sum (name : String) (of : I → Int64)
  | min (name : String) (of : I → Int64)
  | max (name : String) (of : I → Int64)

namespace Measure

variable {I : Type}

/-- The name a measure is asked for by. -/
def name : Measure I → String
  | count => "count"
  | sum name _ | min name _ | max name _ => name

/-- The value of no items. -/
def identity : Measure I → Int64
  | count | sum .. => 0
  | min .. => Int64.maxValue
  | max .. => Int64.minValue

/-- The value of one item. -/
def ofItem : Measure I → I → Int64
  | count, _ => 1
  | sum _ of, item | min _ of, item | max _ of, item => of item

/-- The value of two sets of items together. -/
def combine : Measure I → Int64 → Int64 → Int64
  | count, a, b | sum .., a, b => a + b
  | min .., a, b => if a ≤ b then a else b
  | max .., a, b => if b ≤ a then a else b

/-- The value without a part of it; none if the part may have held the extreme. -/
def without? : Measure I → Int64 → Int64 → Option Int64
  | count, total, part | sum .., total, part => some (total - part)
  | min .., total, part => if total < part then some total else none
  | max .., total, part => if part < total then some total else none

end Measure

/-- The measures of an index, in the order in which pages store their values. -/
abbrev MeasureSet (I : Type) := List (Measure I)

namespace MeasureSet

variable {I : Type}

/-- The values of no items. -/
def identity (measures : MeasureSet I) : List Int64 := measures.map Measure.identity

/-- The values of one item. -/
def ofItem (measures : MeasureSet I) (item : I) : List Int64 :=
  measures.map fun measure => measure.ofItem item

/-- Adds values to others. Where one list is longer, the rest of `values` stays as it is. -/
def add : MeasureSet I → List Int64 → List Int64 → List Int64
  | measure :: measures, value :: values, other :: others =>
    measure.combine value other :: add measures values others
  | _, values, _ => values

/-- Takes values out of others, and tells whether that was possible for every measure. A value it was
not possible for stays as it is. -/
def subtract : MeasureSet I → List Int64 → List Int64 → Bool × List Int64
  | measure :: measures, value :: values, other :: others =>
    let (exact, rest) := subtract measures values others
    match measure.without? value other with
    | some value => (exact, value :: rest)
    | none => (false, value :: rest)
  | _, values, _ => (true, values)

/-- The values of several sets of items together. -/
def fold (measures : MeasureSet I) (parts : List (List Int64)) : List Int64 :=
  parts.foldl measures.add measures.identity

/-- The values of a list of items. -/
def ofItems (measures : MeasureSet I) (items : List I) : List Int64 :=
  measures.fold (items.map measures.ofItem)

/-- Replaces one item's values by another's; none if they cannot be taken out. -/
def swap? (measures : MeasureSet I) (values old new : List Int64) : Option (List Int64) :=
  match measures.subtract values old with
  | (true, rest) => some (measures.add rest new)
  | (false, _) => none

/-- The position of the first measure of this name. -/
def position? (measures : MeasureSet I) (name : String) : Option Nat :=
  measures.findIdx? fun measure => measure.name == name

/-- The names of the measures as a quoted listing. -/
def text (measures : MeasureSet I) : String :=
  "[" ++ ", ".intercalate (measures.map fun measure => Text.Quoted.encode measure.name) ++ "]"

end MeasureSet

end PagedIndex
