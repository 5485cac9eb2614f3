import PagedIndex.Decimal.Fixed

/-!
# Counters

What a pager counts about its work.
-/

namespace PagedIndex

/-- Counts of what a pager did. -/
structure Counters where
  /-- Pages found resident. -/
  hits : Nat
  /-- Pages that were not resident. -/
  misses : Nat
  /-- Pages dropped to keep the cache within its capacity. -/
  evictions : Nat
  /-- Pages read from an image. -/
  reads : Nat
  /-- Keys a filter denied. -/
  rejections : Nat
deriving DecidableEq, Repr

namespace Counters

/-- Nothing counted yet. -/
def zero : Counters := ⟨0, 0, 0, 0, 0⟩

def countHit (c : Counters) : Counters := { c with hits := c.hits + 1 }

def countMiss (c : Counters) : Counters := { c with misses := c.misses + 1 }

def countEviction (c : Counters) : Counters := { c with evictions := c.evictions + 1 }

def countRead (c : Counters) : Counters := { c with reads := c.reads + 1 }

def countRejection (c : Counters) : Counters := { c with rejections := c.rejections + 1 }

/-- The share of look-ups that found their page resident; zero if there were none. -/
def hitRate (c : Counters) : Float :=
  if c.hits + c.misses = 0 then 0.0
  else (UInt64.ofNat c.hits).toFloat / (UInt64.ofNat (c.hits + c.misses)).toFloat

/-- The counters as a listing of fields. -/
def text (c : Counters) : String :=
  "Stats \x7b hits: " ++ toString c.hits ++ ", misses: " ++ toString c.misses
    ++ ", evictions: " ++ toString c.evictions ++ ", reads: " ++ toString c.reads
    ++ ", bloom_rejections: " ++ toString c.rejections
    ++ ", hit_rate: " ++ Decimal.Fixed.text (c.hitRate * 100.0) 2 ++ "% \x7d"

end Counters

end PagedIndex
