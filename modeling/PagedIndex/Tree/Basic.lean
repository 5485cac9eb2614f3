import PagedIndex.Config
import PagedIndex.Measure
import PagedIndex.Pager.Basic

/-!
# Trees

A tree is known by its root and its last leaf; its pages are with the pager. Everything that only reads
a tree is a computation on the pager, so that it cannot change the tree.
-/

namespace PagedIndex

/-- A B+ tree whose pages are with a pager. -/
structure Tree (K I : Type) where
  config : Config
  measures : MeasureSet I
  keyOf : I → K
  root : PageRef
  rightmost : PageRef
  len : Nat

namespace Tree

variable {K I : Type}

/-- Checks a configuration. -/
def requireValid (config : Config) : Paging K I Unit :=
  Action.mapError .invalidConfig (Action.ofExcept config.validate)

/-- A tree without items: a single leaf, made on a pager behind which nothing is stored. -/
def create (config : Config) (measures : MeasureSet I) (keyOf : I → K) : Paging K I (Tree K I) := do
  requireValid config
  if (← Pager.start).isSome then
    Action.fail (.invalidConfig .alreadyStored)
  let page ← Pager.create (.leaf .empty) measures.identity
  return { config, measures, keyOf, root := page.ref, rightmost := page.ref, len := 0 }

/-- The tree that is stored behind a pager. Page size and filter are as they were stored. -/
def openStored (config : Config) (measures : MeasureSet I) (keyOf : I → K) :
    Paging K I (Tree K I) := do
  match ← Pager.start with
  | none => Action.fail (.invalidConfig .nothingStored)
  | some descriptor =>
    if descriptor.measures.toNat ≠ measures.length then
      Action.fail (.invalidConfig (.measureCount descriptor.measures.toNat measures.length))
    -- what was stored takes the place of what was asked for, and is checked like that
    let config :=
      { config with pageSize := descriptor.pageSize.toNat, hasFilter := descriptor.hasFilter }
    requireValid config
    return {
      config, measures, keyOf
      root := descriptor.root
      rightmost := descriptor.rightmost
      len := descriptor.items.toNat }

/-- The tree as a listing of fields. -/
def text (tree : Tree K I) : String :=
  "Index \x7b root: " ++ tree.root.fieldText ++ ", rightmost: " ++ tree.rightmost.fieldText
    ++ ", len: " ++ toString tree.len ++ ", page_size: " ++ toString tree.config.pageSize
    ++ ", measures: " ++ tree.measures.text ++ " \x7d"

end Tree

end PagedIndex
