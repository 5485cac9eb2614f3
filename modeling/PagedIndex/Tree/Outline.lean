import PagedIndex.Tree.Basic

/-!
# Outlines

The whole content of a tree, page by page, as far as its pages resolve.
-/

namespace PagedIndex

/-- A subtree written out. -/
inductive Outline (K I : Type) where
  | leaf (ref : PageRef) (measures : List Int64) (items : List I) (right : Option PageRef)
  | inner (ref : PageRef) (measures : List Int64) (keys : List K) (children : List (Outline K I))
  /-- A page that did not resolve. -/
  | failed (error : IndexError)
  /-- A page below the depth that was asked for. -/
  | tooDeep

namespace Tree

variable {K I : Type} [IndexKey K] [Codec I]

/-- Writes out `levels` levels below a page, every page before its children and these from left to
right. -/
def outlineBelow : Nat → PageRef → Paging K I (Outline K I)
  | 0, _ => return .tooDeep
  | levels + 1, ref => do
    match ← Action.attempt (Pager.resolve ref) with
    -- a page that cannot be had is part of the listing, and the others follow
    | .error e => return .failed e
    | .ok page =>
      match page.node with
      | .leaf leaf => return .leaf page.ref page.measures leaf.items leaf.right
      | .inner inner =>
        return .inner page.ref page.measures inner.keys (← inner.children.mapM (outlineBelow levels))

/-- Writes out the first `levels` levels of a tree. -/
def outline (tree : Tree K I) (levels : Nat) : Paging K I (Outline K I) :=
  outlineBelow levels tree.root

end Tree

end PagedIndex
