import PagedIndex.Index.Basic

/-!
# Removing items

An item leaves its leaf. A page that is left with too few slots is merged with a neighbour under the
same parent: if both fit into one page, the right one is absorbed and given up; otherwise they share
their slots. A root that is left with a single child gives way to it. Pages are given up last, when the
tree is whole again.
-/

namespace PagedIndex.Index

variable {K I : Type}

section Change

/-- Takes the values of an item out of a page, or folds the page anew from its children. -/
def subtractOrFold (pins : Pins) (ref : PageRef) (values : List Int64) : Updating K I Unit := do
  let page ← held ref
  let (exact, rest) := (← get).tree.measures.subtract page.measures values
  setMeasures ref rest
  if !exact then
    setMeasures ref (← foldPinned pins page.children)

/-- The left one of the two children that are merged when the child at `slot` has too few slots: the
first child pairs with its right neighbour, the last with its left one, and any other with the left one
if that is strictly smaller than the right one. -/
def mergeSlot (pins : Pins) (children : List PageRef) (slot : Nat) : Updating K I Nat := do
  match slot with
  | 0 => return 0
  | before + 1 =>
    if slot + 1 = children.length then
      return before
    let left ← pinned (K := K) (I := I) pins (← Action.orAbort children[before]?)
    let right ← pinned (K := K) (I := I) pins (← Action.orAbort children[slot + 1]?)
    return if left.size < right.size then before else slot

/-- Merges two neighbours below `parent`, whose separator is `separator`. -/
def mergePages (pins : Pins) (parent : PageRef) (separator : K) (left right : Page K I) :
    Updating K I (Merged K) := do
  let tree := (← get).tree
  match left.node, right.node with
  | .leaf lower, .leaf upper =>
    let (outcome, lower, upper) := lower.merge upper tree.config.pageSize
    setNode left.ref (.leaf lower)
    setNode right.ref (.leaf upper)
    match outcome with
    | .absorbed => addMeasures left.ref right.measures
    | .rebalanced _ =>
      setMeasures left.ref (tree.measures.ofItems lower.items)
      setMeasures right.ref (tree.measures.ofItems upper.items)
    return outcome
  | .inner lower, .inner upper =>
    let (outcome, lower, upper) ←
      Action.orAbort (lower.merge? separator upper tree.config.pageSize)
    setNode left.ref (.inner lower)
    setNode right.ref (.inner upper)
    match outcome with
    | .absorbed => addMeasures left.ref right.measures
    | .rebalanced _ =>
      setMeasures left.ref (← foldPinned pins lower.children)
      setMeasures right.ref (← foldPinned pins upper.children)
    return outcome
  | _, _ => Action.fail (.corruption parent .siblingLevels)

/-- Merges the child at `slot` with a neighbour; the page that has to be given up, if any. -/
def mergeChild (pins : Pins) (parent : PageRef) (slot : Nat) : Updating K I (Option PageRef) := do
  let inner ← Action.ofExcept (← held parent).asInner
  if inner.children.length < 2 then
    return none
  let slot ← mergeSlot (K := K) (I := I) pins inner.children slot
  let leftRef ← Action.orAbort inner.children[slot]?
  let rightRef ← Action.orAbort inner.children[slot + 1]?
  let separator ← Action.orAbort inner.keys[slot]?
  let left ← pinned pins leftRef
  let right ← pinned pins rightRef
  let outcome ← mergePages pins parent separator left right
  -- looked at again, since the merge may have written on it
  let page ← held parent
  match page.node, outcome with
  | .leaf _, _ => Action.fail (.corruption parent (.kindChanged "merge"))
  | .inner inner, .absorbed =>
    let (_, _, smaller) ← Action.orAbort (inner.removeChild? (slot + 1))
    setNode (I := I) parent (.inner smaller)
    modifyTree fun tree =>
      if tree.rightmost = rightRef then { tree with rightmost := leftRef } else tree
    return some rightRef
  | .inner inner, .rebalanced separator =>
    setNode (I := I) parent (.inner (← Action.orAbort (inner.setKey? slot separator)))
    return none

/-- Goes up the path, the deepest step first: merges the child if it has too few slots and takes the
item's values out of the page. The pages that have to be given up, those from below first. -/
def shrinkUp (pins : Pins) (values : List Int64) :
    PageRef → List (Tree.Step K I) → List PageRef → Updating K I (List PageRef)
  | _, [], freed => return freed
  | child, step :: steps, freed => do
    let minFill := (← get).tree.config.minFill
    let freed ←
      if (← held child).size < minFill then do
        let gone ← mergeChild pins step.page.ref step.slot
        pure (freed ++ gone.toList)
      else pure freed
    subtractOrFold pins step.page.ref values
    shrinkUp pins values step.page.ref steps freed

/-- Replaces a root that has a single child by that child, as often as there is such a root. -/
def collapseRoot (pins : Pins) : Nat → List PageRef → Updating K I (List PageRef)
  | 0, _ => Action.circle
  | limit + 1, freed => do
    let root := (← get).tree.root
    match (← pinned (K := K) (I := I) pins root).node with
    | .leaf _ => return freed
    | .inner inner =>
      if inner.keys.isEmpty then
        let child ← Action.orAbort inner.children[0]?
        modifyTree fun tree => { tree with root := child }
        collapseRoot pins limit (freed ++ [root])
      else
        return freed

end Change

variable [IndexKey K] [Codec I]

/-- The children next to the one at `slot`. -/
def neighbours (children : List PageRef) (slot : Nat) : List PageRef :=
  (match slot with
    | 0 => []
    | before + 1 => children[before]?.toList) ++ children[slot + 1]?.toList

/-- Pins the children of some pinned pages. -/
def pinBelow : List PageRef → Pins → Paging K I Pins
  | [], pins => return pins
  | ref :: refs, pins => do
    match (← get).page? ref with
    | none => Action.fail (.corruption ref .notPinned)
    | some page => pinBelow refs (← pin (K := K) (I := I) page.children pins)

/-- Pins what a removal may look at, from the root down: every page of the path and its children, and,
where the child taken may come to have too few slots, the children of its neighbours. -/
def pinForRemove (minFill : Nat) (leaf : Page K I) :
    List (Tree.Step K I) → Pins → Paging K I Pins
  | [], pins => return pins
  | step :: steps, pins => do
    let pins ← pin (K := K) (I := I) step.page.children (step.page.ref :: pins)
    let child := (steps.head?.map (·.page)).getD leaf
    if child.size > minFill then
      pinForRemove minFill leaf steps pins
    else
      let inner ← Action.ofExcept step.page.asInner
      pinForRemove minFill leaf steps
        (← pinBelow (K := K) (I := I) (neighbours inner.children step.slot) pins)

/-- Takes the item of a key out of a leaf. -/
def removeFromLeaf (ref : PageRef) (key : K) : Updating K I I := do
  let measures := (← get).tree.measures
  let page ← held ref
  match page.node with
  | .inner _ => Action.fail (.corruption ref (.kindChanged "remove"))
  | .leaf leaf =>
    let (entry, leaf) ← Action.orAbort (leaf.removeAt? (leaf.seek key).position)
    setNode ref (.leaf leaf)
    match measures.subtract page.measures (measures.ofItem entry.2) with
    | (true, values) => setMeasures ref values
    | (false, _) => setMeasures ref (measures.ofItems leaf.items)
    return entry.2

/-- Removes the item of a key; none if the key is absent. If a page cannot be given up, the item is
removed all the same and the failure is the answer. -/
def remove (key : K) : Updating K I (Option I) := do
  requireWritable
  let tree := (← get).tree
  let (page, steps) ← paging (tree.path key)
  if !((← Action.ofExcept page.asLeaf).seek key).isExact then
    return none
  -- everything that is looked at from here on is pinned, so that the tree is never left half changed
  let pins ← paging (pinForRemove tree.config.minFill page steps.reverse [page.ref])
  let item ← removeFromLeaf page.ref key
  let freed ← shrinkUp pins (tree.measures.ofItem item) page.ref steps []
  modifyTree fun tree => { tree with len := tree.len - 1 }
  let freed ← collapseRoot (K := K) (I := I) pins (pins.length + 1) freed
  -- the tree is whole again, whatever becomes of the pages
  paging (Pager.releaseAll freed)
  return some item

end PagedIndex.Index
