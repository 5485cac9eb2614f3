import PagedIndex.Tree.Descent

/-!
# Where a ray starts

An ascending ray starts at the smallest key that is not below its point, a descending ray at the
greatest key that is not above it. A ray without such a key starts outside: behind the last entry or
at the first slot.
-/

namespace PagedIndex.Tree

variable {K I : Type} [IndexKey K] [Codec I]

/-- The smallest key that is not below `key`. -/
def seekUp (tree : Tree K I) (key : K) : Paging K I (Found Cursor) := do
  let page ← tree.leafFor key
  let leaf ← Action.ofExcept page.asLeaf
  let found := leaf.seek key
  let here : Cursor := ⟨page.ref, found.position⟩
  if found.fit ≠ .outside then
    return ⟨found.fit, here⟩
  else if found.position > 0 then
    -- all keys of this leaf are below, and the next leaf starts above
    match leaf.right with
    | some right => return ⟨.nearest, ⟨right, 0⟩⟩
    | none => return ⟨.outside, here⟩
  else if leaf.entries.isEmpty then
    return ⟨.outside, here⟩
  else
    -- the first slot of a leaf fits only if its key is equal, yet it is the nearest
    return ⟨.nearest, here⟩

/-- The greatest key that is not above `key`. -/
def seekDown (tree : Tree K I) (key : K) : Paging K I (Found Cursor) := do
  let (page, left) ← tree.locate key
  let leaf ← Action.ofExcept page.asLeaf
  let found := leaf.seek key
  if found.isExact then
    return ⟨.exact, ⟨page.ref, found.position⟩⟩
  -- the key is absent, so what lies in front of its place is the greatest key below it
  match leaf.rank key false, left with
  | below + 1, _ => return ⟨.nearest, ⟨page.ref, below⟩⟩
  | 0, none => return ⟨.outside, ⟨page.ref, 0⟩⟩
  | 0, some subtree =>
    let before ← lastLeafBelow subtree
    let leaf ← Action.ofExcept before.asLeaf
    match leaf.size with
    | 0 => return ⟨.outside, ⟨page.ref, 0⟩⟩
    | last + 1 => return ⟨.nearest, ⟨before.ref, last⟩⟩

/-- Where a ray starts. -/
def seekRay (tree : Tree K I) (ray : Ray K) : Paging K I (Found Cursor) := do
  match ray.point, ray.direction with
  | .key key, .ascending => tree.seekUp key
  | .key key, .descending => tree.seekDown key
  | .bottom, .ascending =>
    let page ← tree.firstLeaf
    let leaf ← Action.ofExcept page.asLeaf
    return ⟨if leaf.entries.isEmpty then .outside else .nearest, ⟨page.ref, 0⟩⟩
  | .bottom, .descending =>
    let page ← tree.firstLeaf
    return ⟨.outside, ⟨page.ref, 0⟩⟩
  | .top, .ascending =>
    let page ← Pager.resolve tree.rightmost
    let leaf ← Action.ofExcept page.asLeaf
    return ⟨.outside, ⟨page.ref, leaf.size⟩⟩
  | .top, .descending =>
    let page ← Pager.resolve tree.rightmost
    let leaf ← Action.ofExcept page.asLeaf
    match leaf.size with
    | 0 => return ⟨.outside, ⟨page.ref, 0⟩⟩
    | last + 1 => return ⟨.nearest, ⟨page.ref, last⟩⟩

/-- Where a key is, or else the smallest key above it. -/
def seek (tree : Tree K I) (key : K) : Paging K I (Found Cursor) :=
  tree.seekRay ⟨.key key, .ascending⟩

end PagedIndex.Tree
