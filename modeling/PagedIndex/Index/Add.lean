import PagedIndex.Index.Basic

/-!
# Adding items

An item goes into the leaf for its key. A full leaf is split: its upper half moves to a new page, whose
first key goes up as a separator, and a full parent is split in turn, up to a new root. All new pages
are made, and all pages that will be looked at are pinned, before any page is changed.
-/

namespace PagedIndex.Index

variable {K I : Type}

/-- A split on its way up: the new page on the right, and the key that separates it. -/
structure Split (K : Type) where
  separator : K
  right : PageRef
deriving DecidableEq

section Reserve

/-- Makes `count` empty pages, all or none. -/
def reserve (measures : MeasureSet I) : Nat → List PageRef → Paging K I (List PageRef)
  | 0, made => return made.reverse
  | count + 1, made => do
    match ← Action.attempt (Pager.create (.leaf .empty) measures.identity) with
    | .ok page => reserve measures count (page.ref :: made)
    | .error e =>
      -- whether the others can be given up is not asked: the first failure is the answer
      let _ ← Action.attempt (Pager.releaseAll (K := K) (I := I) made.reverse)
      Action.fail e

/-- Takes one of the pages made ahead, for a split at `ref`. -/
def takeReserved (ref : PageRef) : List PageRef → Updating K I (PageRef × List PageRef)
  | [] => Action.fail (.corruption ref .reserveExhausted)
  | new :: reserved => return (new, reserved)

end Reserve

section Change

/-- Puts an entry into a leaf that is full, and moves the upper half of the leaf to a new page. -/
def splitLeaf (ref new : PageRef) (leaf : Leaf K I) (slot : Nat) (entry : K × I) :
    Updating K I (Split K) := do
  let tree := (← get).tree
  let half := tree.config.pageSize / 2
  let (lower, upper) ← Action.orAbort (leaf.splitAt? half)
  let (lower, upper) ←
    if slot < half then do pure (← Action.orAbort (lower.insertAt? slot entry), upper)
    else do pure (lower, ← Action.orAbort (upper.insertAt? (slot - half) entry))
  let lower := { lower with right := some new }
  setNode ref (.leaf lower)
  match upper.firstKey? with
  | none => Action.fail (.corruption ref .emptySplit)
  | some separator =>
    setMeasures ref (tree.measures.ofItems lower.items)
    setNode new (.leaf upper)
    setMeasures new (tree.measures.ofItems upper.items)
    if upper.right.isNone then
      modifyTree fun tree => { tree with rightmost := new }
    return { separator, right := new }

/-- Puts an entry into a leaf; the split, if there was no room, and the pages that are left. -/
def addToLeaf (ref : PageRef) (slot : Nat) (entry : K × I) (values : List Int64)
    (reserved : List PageRef) : Updating K I (Option (Split K) × List PageRef) := do
  let page ← held ref
  match page.node with
  | .inner _ => Action.fail (.corruption ref (.kindChanged "insert"))
  | .leaf leaf =>
    if leaf.size < (← get).tree.config.pageSize then
      setNode ref (.leaf (← Action.orAbort (leaf.insertAt? slot entry)))
      addMeasures ref values
      return (none, reserved)
    else
      let (new, reserved) ← takeReserved ref reserved
      return (some (← splitLeaf ref new leaf slot entry), reserved)

/-- Puts the right half of a split behind the child at `slot`, and cuts the page in two. -/
def splitInner (ref new : PageRef) (inner : Inner K) (slot : Nat) (split : Split K) (pins : Pins) :
    Updating K I (Split K) := do
  let whole ← Action.orAbort (inner.insertAfter? slot split.separator split.right)
  let (median, lower, upper) ← Action.orAbort whole.split?
  setNode ref (.inner lower)
  let lowerValues ← foldPinned pins lower.children
  setMeasures ref lowerValues
  -- the new page is written on only after its children could be folded
  let upperValues ← foldPinned pins upper.children
  setNode new (.inner upper)
  setMeasures new upperValues
  return { separator := median, right := new }

/-- Puts the right half of a split behind the child at `slot`; the split of this page, if there was no
room, and the pages that are left. -/
def addToInner (ref : PageRef) (slot : Nat) (split : Split K) (values : List Int64)
    (reserved : List PageRef) (pins : Pins) : Updating K I (Option (Split K) × List PageRef) := do
  let page ← held ref
  match page.node with
  | .leaf _ => Action.fail (.corruption ref (.kindChanged "insert"))
  | .inner inner =>
    if inner.size < (← get).tree.config.pageSize then
      setNode ref (.inner (← Action.orAbort (inner.insertAfter? slot split.separator split.right)))
      addMeasures ref values
      return (none, reserved)
    else
      let (new, reserved) ← takeReserved ref reserved
      return (some (← splitInner ref new inner slot split pins), reserved)

/-- Carries a split up the path, the deepest step first, and adds the values of the new item to every
page on the way; the split of the root, if it came that far, and the pages that are left. -/
def carryUp (values : List Int64) :
    List (Tree.Step K I) → Option (Split K) → List PageRef → Pins →
      Updating K I (Option (Split K) × List PageRef)
  | [], split, reserved, _ => return (split, reserved)
  | step :: steps, none, reserved, pins => do
    addMeasures step.page.ref values
    carryUp values steps none reserved pins
  | step :: steps, some split, reserved, pins => do
    -- the page above may have to fold the new page as one of its children
    let pins := split.right :: pins
    let (split, reserved) ← addToInner step.page.ref step.slot split values reserved pins
    carryUp values steps split reserved pins

/-- Makes a page made ahead the root over the two halves of the old one. -/
def growRoot (oldRoot : PageRef) (split : Split K) (reserved : List PageRef) : Updating K I Unit := do
  let tree := (← get).tree
  let (new, _) ← takeReserved tree.root reserved
  let left ← held oldRoot
  let right ← held split.right
  setNode new (.inner (.pair tree.root split.separator split.right))
  setMeasures new (tree.measures.fold [left.measures, right.measures])
  modifyTree fun tree => { tree with root := new }

end Change

variable [IndexKey K] [Codec I]

/-- How many pages an item splits: a full leaf, and every full page in a row above it. -/
def splitCount (pageSize : Nat) (leaf : Page K I) (steps : List (Tree.Step K I)) : Nat :=
  if leaf.size < pageSize then 0
  else 1 + (steps.takeWhile fun step => pageSize ≤ step.page.size).length

/-- Pins the children of every inner page that will be split. -/
def pinForAdd : List (Tree.Step K I) → Pins → Paging K I Pins
  | [], pins => return pins
  | step :: steps, pins => do pinForAdd steps (← pin (K := K) (I := I) step.page.children pins)

/-- Adds an item whose key must be absent. -/
def add (item : I) : Updating K I Unit := do
  requireWritable
  let tree := (← get).tree
  let key := tree.keyOf item
  let values := tree.measures.ofItem item
  let (page, steps) ← paging (tree.path key)
  let found := (← Action.ofExcept page.asLeaf).seek key
  if found.isExact then
    Action.fail .duplicateKey
  let splits := splitCount tree.config.pageSize page steps
  let grows := splits = steps.length + 1
  -- pages are pinned and made before any page of the tree is changed
  let pins ← paging (pinForAdd (steps.take (splits - 1)) [])
  let reserved ← paging (reserve tree.measures (if grows then splits + 1 else splits) [])
  let (split, reserved) ← addToLeaf page.ref found.position (key, item) values reserved
  let (split, reserved) ← carryUp values steps split reserved pins
  if let some split := split then
    growRoot ((steps.getLast?.map (·.page.ref)).getD page.ref) split reserved
  modifyTree fun tree => { tree with len := tree.len + 1 }

end PagedIndex.Index
