import PagedIndex.Tree.Descent

/-!
# Indexes

An index is a tree together with the pager that holds its pages. A mutation has two phases. It first
resolves every page it may need, which may fail and leaves everything as it was; then it changes pages
in place, which calls the pager no more. The pages resolved ahead are *pinned*: the second phase looks
at no other page.
-/

namespace PagedIndex

/-- A tree and the pager of its pages. -/
structure Index (K I : Type) where
  tree : Tree K I
  pager : Pager K I

/-- A computation that changes an index. -/
abbrev Updating (K I α : Type) := Action IndexError (Index K I) α

/-- The names of the pages that a mutation has resolved ahead. -/
abbrev Pins := List PageRef

namespace Index

section

variable {K I α : Type}

/-- Calls the pager of an index. -/
def paging (x : Paging K I α) : Updating K I α :=
  Action.zoom (·.pager) (fun pager index => { index with pager }) x

/-- Changes the tree of an index. -/
def modifyTree (change : Tree K I → Tree K I) : Updating K I Unit :=
  modify fun index => { index with tree := change index.tree }

/-- Fails unless the pages of the index may change. -/
def requireWritable : Updating K I Unit := do
  if !(← get).pager.isWritable then
    Action.fail (.unsupported .mutation)

/-- The page of a name as it is now. -/
def held (ref : PageRef) : Updating K I (Page K I) := do
  match (← get).pager.page? ref with
  | some page => return page
  | none => Action.fail (.corruption ref .notPinned)

/-- The page of a name as it is now, if it is pinned. -/
def pinned (pins : Pins) (ref : PageRef) : Updating K I (Page K I) :=
  if ref ∈ pins then held ref else Action.fail (.corruption ref .notPinned)

/-- Puts another node into a page. -/
def setNode (ref : PageRef) (node : Node K I) : Updating K I Unit :=
  modify fun index =>
    { index with pager := index.pager.update ref fun page => { page with node } }

/-- Puts other values of the measures into a page. -/
def setMeasures (ref : PageRef) (measures : List Int64) : Updating K I Unit :=
  modify fun index =>
    { index with pager := index.pager.update ref fun page => { page with measures } }

/-- Adds the values of an item to those of a page. -/
def addMeasures (ref : PageRef) (values : List Int64) : Updating K I Unit := do
  let page ← held ref
  setMeasures ref ((← get).tree.measures.add page.measures values)

/-- The values of the measures over some pinned pages together. -/
def foldPinned (pins : Pins) (refs : List PageRef) : Updating K I (List Int64) := do
  let pages ← refs.mapM (pinned pins)
  return (← get).tree.measures.fold (pages.map (·.measures))

end

section

variable {K I : Type} [IndexKey K] [Codec I]

/-- Pins pages, resolving those that are not pinned yet. -/
def pin : List PageRef → Pins → Paging K I Pins
  | [], pins => return pins
  | ref :: refs, pins => do
    if ref ∈ pins then
      pin refs pins
    else
      let page ← Pager.resolve (K := K) (I := I) ref
      pin refs (page.ref :: pins)

end

end Index

end PagedIndex
