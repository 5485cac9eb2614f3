import PagedIndex.Error
import PagedIndex.Page.Inner

/-!
# Pages

A page has a name, the values of the measures over everything below it, and a node: a leaf or an inner
page.
-/

namespace PagedIndex

/-- What a page holds. -/
inductive Node (K I : Type) where
  | leaf (leaf : Leaf K I)
  | inner (inner : Inner K)
deriving DecidableEq, Repr

/-- A page of the tree. -/
structure Page (K I : Type) where
  ref : PageRef
  measures : List Int64
  node : Node K I
deriving DecidableEq

namespace Page

variable {K I : Type}

/-- How many slots are in use: entries of a leaf, separators of an inner page. -/
def size (page : Page K I) : Nat :=
  match page.node with
  | .leaf leaf => leaf.size
  | .inner inner => inner.size

/-- Whether the page is a leaf. -/
def isLeaf (page : Page K I) : Bool :=
  match page.node with
  | .leaf _ => true
  | .inner _ => false

/-- The leaf a page must be. -/
def asLeaf (page : Page K I) : Except IndexError (Leaf K I) :=
  match page.node with
  | .leaf leaf => .ok leaf
  | .inner _ => .error (.corruption page.ref .notLeaf)

/-- The inner page a page must be. -/
def asInner (page : Page K I) : Except IndexError (Inner K) :=
  match page.node with
  | .inner inner => .ok inner
  | .leaf _ => .error (.corruption page.ref .notInner)

/-- The children of a page; a leaf has none. -/
def children (page : Page K I) : List PageRef :=
  match page.node with
  | .leaf _ => []
  | .inner inner => inner.children

end Page

end PagedIndex
