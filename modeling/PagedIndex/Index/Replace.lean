import PagedIndex.Index.Basic

/-!
# Replacing items

An item takes the place of the one with the same key. On every page above it the old values are taken
out of the measures and the new ones added; where the old item may have held an extreme, the page is
folded anew from its items or children.
-/

namespace PagedIndex.Index

variable {K I : Type}

/-- Replaces an item's values by another's on every page of a path. -/
def swapUp (pins : Pins) (old new : List Int64) : List (Tree.Step K I) → Updating K I Unit
  | [] => return ()
  | step :: steps => do
    let measures := (← get).tree.measures
    let page ← held step.page.ref
    match measures.swap? page.measures old new with
    | some values => setMeasures page.ref values
    | none =>
      -- what can be taken out is taken out, and the fold makes good the rest
      setMeasures page.ref (measures.subtract page.measures old).2
      setMeasures page.ref (← foldPinned pins page.children)
    swapUp pins old new steps

variable [IndexKey K] [Codec I]

/-- Pins the children of every page that will be folded anew, the root first. -/
def pinForReplace (measures : MeasureSet I) (old : List Int64) :
    List (Tree.Step K I) → Pins → Paging K I Pins
  | [], pins => return pins
  | step :: steps, pins => do
    if (measures.subtract step.page.measures old).1 then
      pinForReplace measures old steps pins
    else
      pinForReplace measures old steps (← pin (K := K) (I := I) step.page.children pins)

/-- Replaces the item in a leaf that has the same key; the old item. -/
def replaceInLeaf (ref : PageRef) (key : K) (item : I) (old new : List Int64) : Updating K I I := do
  let measures := (← get).tree.measures
  let page ← held ref
  match page.node with
  | .inner _ => Action.fail (.corruption ref (.kindChanged "replace"))
  | .leaf leaf =>
    let (previous, leaf) ← Action.orAbort (leaf.replaceAt? (leaf.seek key).position item)
    setNode ref (.leaf leaf)
    match measures.swap? page.measures old new with
    | some values => setMeasures ref values
    | none => setMeasures ref (measures.ofItems leaf.items)
    return previous

/-- Puts an item in the place of the one with the same key, which must be present; the old item. -/
def replace (item : I) : Updating K I I := do
  requireWritable
  let tree := (← get).tree
  let key := tree.keyOf item
  let new := tree.measures.ofItem item
  let (page, steps) ← paging (tree.path key)
  match (← Action.ofExcept page.asLeaf).find? key with
  | none => Action.fail .keyNotFound
  | some present =>
    let old := tree.measures.ofItem present
    -- what has to be folded anew is known before anything is changed
    let pins ← paging (pinForReplace tree.measures old steps.reverse [])
    let previous ← replaceInLeaf page.ref key item old new
    swapUp pins old new steps
    return previous

end PagedIndex.Index
