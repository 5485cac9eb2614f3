import PagedIndex.PageRef

/-!
# Searching

The outcome of a search, inside one page or in a whole index, and the rays along which an index is
scanned.
-/

namespace PagedIndex

/-- How well a position fits what was sought. -/
inductive Fit where
  /-- The key is at the position. -/
  | exact
  /-- The key is absent; the position is that of its neighbour. -/
  | nearest
  /-- The key is absent, and there is no such neighbour. -/
  | outside
deriving DecidableEq, Repr

/-- A position and how well it fits. -/
structure Found (α : Type) where
  fit : Fit
  position : α
deriving DecidableEq, Repr

/-- Whether the key itself was found. -/
def Found.isExact {α : Type} (found : Found α) : Bool := found.fit == .exact

/-- The direction of a scan. -/
inductive Direction where
  | ascending
  | descending
deriving DecidableEq, Repr

/-- A key, or one of the two ends of the order. -/
inductive Endpoint (K : Type) where
  | bottom
  | key (key : K)
  | top
deriving DecidableEq, Repr

/-- Where a scan starts, and in which direction it goes. -/
structure Ray (K : Type) where
  point : Endpoint K
  direction : Direction
deriving DecidableEq, Repr

/-- The ray over everything in ascending order. -/
def Ray.upward {K : Type} : Ray K := ⟨.bottom, .ascending⟩

/-- The ray over everything in descending order. -/
def Ray.downward {K : Type} : Ray K := ⟨.top, .descending⟩

/-- An entry of an index: a leaf and a slot in it. -/
structure Cursor where
  page : PageRef
  slot : Nat
deriving DecidableEq, Repr

end PagedIndex
