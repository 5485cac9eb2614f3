import PagedIndex.Tree.Descent

/-!
# Look-ups

Single items by their key, and what can be said of a tree as a whole.
-/

namespace PagedIndex.Tree

variable {K I : Type} [IndexKey K] [Codec I]

/-- Whether a key is present. -/
def contains (tree : Tree K I) (key : K) : Paging K I Bool := do
  if !(← Pager.mightContain key) then
    return false
  let leaf ← Action.ofExcept (← tree.leafFor key).asLeaf
  return (leaf.seek key).isExact

/-- The item under a key. -/
def find? (tree : Tree K I) (key : K) : Paging K I (Option I) := do
  if !(← Pager.mightContain key) then
    return none
  let leaf ← Action.ofExcept (← tree.leafFor key).asLeaf
  return leaf.find? key

/-- The item under a key that must be present. -/
protected def get (tree : Tree K I) (key : K) : Paging K I I := do
  match ← tree.find? key with
  | some item => return item
  | none => Action.fail .keyNotFound

/-- The number of levels; a single leaf is one. -/
def height (tree : Tree K I) : Paging K I Nat := do
  return (← descendFirst (← get).walkLimit tree.root).2

/-- The values of all measures over all items. -/
def measureValues (tree : Tree K I) : Paging K I (List Int64) := do
  return (← Pager.resolve tree.root).measures

/-- The value of the measure of a name; none if no measure has it. -/
def measure? (tree : Tree K I) (name : String) : Paging K I (Option Int64) := do
  match tree.measures.position? name with
  | none => return none
  | some position => return (← tree.measureValues)[position]?

end PagedIndex.Tree
