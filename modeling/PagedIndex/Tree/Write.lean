import PagedIndex.Image.Writer
import PagedIndex.Tree.Descent

/-!
# Writing a tree to an image

The leaves come first, in key order, each with the offset of the next one as its link; then the inner
pages, every page behind its children, so that a child's offset is known when its parent is written;
then the descriptor and, if the index has one, a filter over all keys.
-/

namespace PagedIndex.Tree

variable {K I : Type} [IndexKey K] [Codec I]

/-- A computation that reads a tree and writes an image. -/
abbrev Writing (K I α : Type) := Action IndexError (Pager K I × ImageWriter) α

/-- Reads from the pager while an image is written. -/
def reading {α : Type} (x : Paging K I α) : Writing K I α :=
  Action.zoom Prod.fst (fun pager state => (pager, state.2)) x

/-- Writes to the image. -/
def writing {α : Type} (x : Action IndexError ImageWriter α) : Writing K I α :=
  Action.zoom Prod.snd (fun writer state => (state.1, writer)) x

/-- The leaves along the chain in stored form, and the filter with all their keys. -/
def storedLeaves :
    Nat → PageRef → Option BloomFilter → Paging K I (List (PageRef × StoredPage) × Option BloomFilter)
  | 0, _, _ => Action.circle
  | limit + 1, ref, filter => do
    let page ← Pager.resolve (K := K) (I := I) ref
    let leaf ← Action.ofExcept page.asLeaf
    let filter := filter.map fun filter => leaf.keys.foldl BloomFilter.insert filter
    let stored := StoredPage.ofNode page.node page.measures
    match leaf.right with
    | none => return ([(ref, stored)], filter)
    | some right =>
      let (others, filter) ← storedLeaves limit right filter
      return ((ref, stored) :: others, filter)

/-- Appends leaves from `position` on, each with the offset of the next one as its link; the offsets
they got. -/
def placeLeaves :
    List (PageRef × StoredPage) → Nat → Table PageRef PageRef →
      Action IndexError ImageWriter (Table PageRef PageRef)
  | [], _, offsets => return offsets
  | (ref, stored) :: leaves, position, offsets => do
    let next := position + stored.byteSize
    let right := if leaves.isEmpty then none else some (PageRef.ofNat next)
    let offset ← ImageWriter.append { stored with right }
    if offset ≠ PageRef.ofNat position then
      Action.fail (.corruption ref (.misplacedLeaf offset (PageRef.ofNat position)))
    placeLeaves leaves next (offsets.insert ref offset)

/-- Appends the inner pages below a page, children first; the offset of the page. -/
def placeInner (offsets : Table PageRef PageRef) : Nat → PageRef → Writing K I PageRef
  | 0, _ => Action.circle
  | limit + 1, ref => do
    let page ← reading (Pager.resolve ref)
    match page.node with
    | .leaf _ =>
      match offsets.get? ref with
      | some offset => return offset
      | none => Action.fail (.corruption ref .leafUnchained)
    | .inner inner =>
      let children ← inner.children.mapM (placeInner offsets limit)
      let moved ← Action.orAbort (Inner.ofParts? inner.keys children)
      let node : Node K I := .inner moved
      writing (ImageWriter.append (StoredPage.ofNode node page.measures))

/-- An empty filter of the right size for a tree, if its configuration asks for one. -/
def emptyFilter? (tree : Tree K I) : Option BloomFilter :=
  if tree.config.hasFilter then some (.forRate tree.len tree.config.filterRate) else none

/-- Writes a whole tree and seals the image. -/
def write (tree : Tree K I) : Writing K I Descriptor := do
  let limit := (← get).1.walkLimit
  let first ← reading tree.firstLeaf
  let (leaves, filter) ← reading (storedLeaves limit first.ref tree.emptyFilter?)
  let offsets ← writing (do placeLeaves leaves (← get).position ∅)
  let root ← placeInner offsets limit tree.root
  match offsets.get? tree.rightmost with
  | none => Action.fail (.corruption tree.rightmost .rightmostUnchained)
  | some rightmost =>
    let descriptor : Descriptor :=
      { pageSize := UInt32.ofNat tree.config.pageSize
        hasFilter := filter.isSome
        root, rightmost
        items := UInt64.ofNat tree.len
        measures := UInt16.ofNat tree.measures.length }
    let _ ← writing (ImageWriter.commit descriptor filter)
    return descriptor

end PagedIndex.Tree
