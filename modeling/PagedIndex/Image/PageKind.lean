/-!
# Kinds of stored pages

The first byte of a stored page tells what it holds; a byte that names no kind reads as `invalid`.
-/

namespace PagedIndex

/-- What a stored page holds. -/
inductive PageKind where
  | invalid
  | leaf
  | inner
  | descriptor
deriving DecidableEq, Repr

namespace PageKind

/-- The byte a kind is stored as. -/
def toByte : PageKind → UInt8
  | invalid => 0
  | leaf => 1
  | inner => 2
  | descriptor => 3

/-- The kind a byte stands for. -/
def ofByte (b : UInt8) : PageKind :=
  if b = 1 then leaf else if b = 2 then inner else if b = 3 then descriptor else invalid

theorem ofByte_toByte (k : PageKind) : ofByte k.toByte = k := by
  cases k <;> rfl

theorem toByte_ofByte {b : UInt8} (h : ofByte b ≠ invalid) : (ofByte b).toByte = b := by
  unfold ofByte at h ⊢
  grind [toByte]

/-- The kind as messages name it. -/
def name : PageKind → String
  | invalid => "Invalid"
  | leaf => "Leaf"
  | inner => "Inner"
  | descriptor => "Descriptor"

end PageKind

end PagedIndex
