import PagedIndex.Page.Leaf

/-!
# Inner pages

An inner page routes by separators: child `i` holds the keys from separator `i - 1` up to, but not
including, separator `i`. A page of the proper shape has one more child than separators; a page whose
children were taken over by its neighbour has neither. An operation on a slot the page does not have
gives none.
-/

namespace PagedIndex

/-- Separators in ascending order and the children between them. -/
structure Inner (K : Type) where
  keys : List K
  children : List PageRef
deriving DecidableEq, Repr

namespace Inner

variable {K : Type}

/-- A page over two children. -/
def pair (left : PageRef) (separator : K) (right : PageRef) : Inner K :=
  ⟨[separator], [left, right]⟩

/-- A page of these parts, if there is one more child than separators. -/
def ofParts? (keys : List K) (children : List PageRef) : Option (Inner K) :=
  if children.length = keys.length + 1 then some ⟨keys, children⟩ else none

/-- How many separators there are. -/
def size (inner : Inner K) : Nat := inner.keys.length

/-- Puts another separator at a position. -/
def setKey? (inner : Inner K) (position : Nat) (key : K) : Option (Inner K) :=
  if position < inner.size then some { inner with keys := inner.keys.set position key } else none

/-- Puts `child` behind the child at `slot`, separated from it by `key`. -/
def insertAfter? (inner : Inner K) (slot : Nat) (key : K) (child : PageRef) : Option (Inner K) :=
  if slot ≤ inner.size ∧ slot + 1 ≤ inner.children.length then
    some ⟨inner.keys.take slot ++ key :: inner.keys.drop slot,
      inner.children.take (slot + 1) ++ child :: inner.children.drop (slot + 1)⟩
  else
    none

/-- Takes out the child at `slot`, which is not the first, and the separator in front of it. -/
def removeChild? (inner : Inner K) (slot : Nat) : Option (K × PageRef × Inner K) :=
  match slot with
  | 0 => none
  | before + 1 =>
    match inner.keys[before]?, inner.children[before + 1]? with
    | some key, some child =>
      some (key, child, ⟨inner.keys.eraseIdx before, inner.children.eraseIdx (before + 1)⟩)
    | _, _ => none

/-- Cuts a page in two at its median separator, which moves up: it belongs to neither half. -/
def split? (inner : Inner K) : Option (K × Inner K × Inner K) :=
  let mid := inner.size / 2
  if mid + 1 ≤ inner.children.length then
    inner.keys[mid]?.map fun median =>
      (median,
        ⟨inner.keys.take mid, inner.children.take (mid + 1)⟩,
        ⟨inner.keys.drop (mid + 1), inner.children.drop (mid + 1)⟩)
  else
    none

/-- Merges a page with the one to its right, the separator between them coming down. If all
separators fit into one page, the left page takes everything; otherwise the two are split again. -/
def merge? (left : Inner K) (separator : K) (right : Inner K) (pageSize : Nat) :
    Option (Merged K × Inner K × Inner K) :=
  let whole : Inner K := ⟨left.keys ++ separator :: right.keys, left.children ++ right.children⟩
  if whole.size ≤ pageSize then
    some (.absorbed, whole, ⟨[], []⟩)
  else
    whole.split?.map fun (median, left, right) => (.rebalanced median, left, right)

section Order

variable [Ord K]

/-- The slot of the child that holds a key, exact if the key is the separator in front of it. -/
def seek (inner : Inner K) (key : K) : Found Nat :=
  let slot := (inner.keys.takeWhile fun separator => (compare separator key).isLE).length
  match slot with
  | 0 => ⟨.nearest, 0⟩
  | before + 1 =>
    match inner.keys[before]? with
    | some separator =>
      if compare separator key == .eq then ⟨.exact, before + 1⟩ else ⟨.nearest, before + 1⟩
    | none => ⟨.nearest, before + 1⟩

end Order

end Inner

end PagedIndex
