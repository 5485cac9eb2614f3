import PagedIndex.Index.Basic

/-!
# Clearing an index
-/

namespace PagedIndex.Index

variable {K I : Type}

/-- Removes every item: gives every page up and makes a new, empty leaf the root. -/
def clear : Updating K I Unit := do
  requireWritable
  paging Pager.clear
  -- if this call is refused, all pages are gone and the tree still names them
  let page ← paging (Pager.create (.leaf .empty) (← get).tree.measures.identity)
  modifyTree fun tree => { tree with root := page.ref, rightmost := page.ref, len := 0 }

end PagedIndex.Index
