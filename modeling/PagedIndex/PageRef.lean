/-!
# Page references

A page is named by a 64-bit number: its sequence number while it is resident, its byte offset once it
has been written to an image. Two numbers are reserved.
-/

namespace PagedIndex

/-- The name of a page. -/
structure PageRef where
  id : UInt64
deriving DecidableEq, Repr

namespace PageRef

instance : Ord PageRef := ⟨fun a b => compare a.id b.id⟩

/-- The reserved name that stands for "no page". -/
def undefined : PageRef := ⟨0xFFFFFFFFFFFFFFFF⟩

/-- The reserved name of the descriptor. -/
def descriptor : PageRef := ⟨0xFFFFFFFFFFFFFFFE⟩

/-- The name of the page at offset or number `n`. -/
def ofNat (n : Nat) : PageRef := ⟨UInt64.ofNat n⟩

/-- Whether the name may belong to a page of the tree. -/
def isDefined (r : PageRef) : Bool := r != undefined && r != descriptor

/-- Whether this is the descriptor's name. -/
def isDescriptor (r : PageRef) : Bool := r == descriptor

/-- A stored link: the number for "no page" reads as none. -/
def ofLink (raw : UInt64) : Option PageRef :=
  if (⟨raw⟩ : PageRef) = undefined then none else some ⟨raw⟩

/-- The number a link is stored as. -/
def toLink : Option PageRef → UInt64
  | some r => r.id
  | none => undefined.id

theorem ofLink_toLink_of_ne {r : PageRef} (h : r ≠ undefined) : ofLink (toLink (some r)) = some r := by
  simp [ofLink, toLink, h]

theorem ofLink_toLink_none : ofLink (toLink none) = none := by
  simp [ofLink, toLink]

theorem toLink_ofLink (raw : UInt64) : toLink (ofLink raw) = raw := by
  unfold ofLink
  split
  · rename_i h
    exact (congrArg PageRef.id h).symm
  · rfl

/-- The name as messages show it: `Page(42)`. -/
def text (r : PageRef) : String :=
  if r = undefined then "Page(UNDEFINED)"
  else if r = descriptor then "Page(DESCRIPTOR)"
  else "Page(" ++ toString r.id.toNat ++ ")"

/-- The name as listings of fields show it: `PageRef(42)`. -/
def fieldText (r : PageRef) : String := "PageRef(" ++ toString r.id.toNat ++ ")"

end PageRef

end PagedIndex
