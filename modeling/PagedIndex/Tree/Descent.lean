import PagedIndex.Tree.Basic

/-!
# Descents

The walks from the root to a leaf. A walk follows one child after the other and ends at the first
leaf; a walk that resolves more pages than there are has come back to one of them and will never end,
which `limit` detects.
-/

namespace PagedIndex.Tree

variable {K I : Type} [IndexKey K] [Codec I]

/-- A step of a descent: an inner page and the slot of the child taken. -/
structure Step (K I : Type) where
  page : Page K I
  slot : Nat

/-- The first child of a page; a leaf has none. -/
def firstChild? (ref : PageRef) : Paging K I (Option PageRef) := do
  let page ← Pager.resolve ref
  match page.node with
  | .leaf _ => return none
  | .inner inner => return some (← Action.orAbort inner.children[0]?)

/-- Follows first children down to a leaf; the number of levels passed, the leaf's included. -/
def descendFirst : Nat → PageRef → Paging K I (PageRef × Nat)
  | 0, _ => Action.circle
  | limit + 1, ref => do
    match ← firstChild? ref with
    | none => return (ref, 1)
    | some child =>
      let (leaf, levels) ← descendFirst limit child
      return (leaf, levels + 1)

/-- The first leaf. -/
def firstLeaf (tree : Tree K I) : Paging K I (Page K I) := do
  let (leaf, _) ← descendFirst (← get).walkLimit tree.root
  Pager.resolve leaf

/-- Follows last children down to a leaf. -/
def descendLast : Nat → PageRef → Paging K I (Page K I)
  | 0, _ => Action.circle
  | limit + 1, ref => do
    let page ← Pager.resolve ref
    match page.children.getLast? with
    | none => return page
    | some child => descendLast limit child

/-- The last leaf below a page. -/
def lastLeafBelow (ref : PageRef) : Paging K I (Page K I) := do
  descendLast (← get).walkLimit ref

/-- Follows the children that hold `key`; `left` is the deepest subtree met so far that lies directly
left of the way. -/
def locateFrom (key : K) : Nat → PageRef → Option PageRef → Paging K I (Page K I × Option PageRef)
  | 0, _, _ => Action.circle
  | limit + 1, ref, left => do
    let page ← Pager.resolve ref
    match page.node with
    | .leaf _ => return (page, left)
    | .inner inner =>
      match (inner.seek key).position with
      -- nothing lies left of a first child, so the subtree from further up stays the nearest
      | 0 => locateFrom key limit (← Action.orAbort inner.children[0]?) left
      | before + 1 =>
        let left ← Action.orAbort inner.children[before]?
        locateFrom key limit (← Action.orAbort inner.children[before + 1]?) (some left)

/-- The leaf that holds `key` if any does, and the subtree directly left of it: the last leaf of that
subtree is the leaf before. -/
def locate (tree : Tree K I) (key : K) : Paging K I (Page K I × Option PageRef) := do
  locateFrom key (← get).walkLimit tree.root none

/-- The leaf that holds `key` if any does. -/
def leafFor (tree : Tree K I) (key : K) : Paging K I (Page K I) := do
  return (← tree.locate key).1

/-- The leaf before the one that holds `key`. -/
def leafBefore? (tree : Tree K I) (key : K) : Paging K I (Option (Page K I)) := do
  match (← tree.locate key).2 with
  | none => return none
  | some subtree => return some (← lastLeafBelow subtree)

/-- Follows the children that hold `key` and keeps the steps, the deepest one first. -/
def pathFrom (key : K) : Nat → Page K I → List (Step K I) → Paging K I (Page K I × List (Step K I))
  | 0, _, _ => Action.circle
  | limit + 1, page, steps => do
    match page.node with
    | .leaf _ => return (page, steps)
    | .inner inner =>
      let slot := (inner.seek key).position
      let child ← Pager.resolve (← Action.orAbort inner.children[slot]?)
      pathFrom key limit child ({ page, slot } :: steps)

/-- The leaf that holds `key` if any does, and the steps that lead to it, the deepest one first. -/
def path (tree : Tree K I) (key : K) : Paging K I (Page K I × List (Step K I)) := do
  let limit := (← get).walkLimit
  pathFrom key limit (← Pager.resolve tree.root) []

end PagedIndex.Tree
