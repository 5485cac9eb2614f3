import PagedIndex.Tree.SeekRay

/-!
# Scans

A scan hands out the entries along a ray one by one and holds the entries of one leaf at a time. An
ascending scan follows the links between leaves; a descending one asks for the leaf before the one it
has just left. A failure is handed out once and ends the scan.
-/

namespace PagedIndex

/-- Where a scan finds its next leaf. -/
inductive Continuation (K : Type) where
  /-- At the end of a link. -/
  | linked (ref : PageRef)
  /-- In front of the leaf that starts with this key. -/
  | before (key : K)
  /-- Nowhere. -/
  | finished
deriving DecidableEq, Repr

/-- The rest of a scan. -/
structure Scan (K I : Type) where
  direction : Direction
  buffer : List (K × I)
  continuation : Continuation K

namespace Scan

variable {K I : Type} [IndexKey K] [Codec I]

/-- A scan that hands nothing out. -/
def nothing (direction : Direction) : Scan K I := ⟨direction, [], .finished⟩

/-- How a scan goes on behind a leaf. -/
def behind (direction : Direction) (leaf : Leaf K I) : Continuation K :=
  match direction with
  | .ascending => (leaf.right.map .linked).getD .finished
  | .descending => (leaf.firstKey?.map .before).getD .finished

/-- The scan that starts at a cursor. -/
def ofCursor (cursor : Cursor) (direction : Direction) : Paging K I (Scan K I) := do
  let leaf ← Action.ofExcept (← Pager.resolve cursor.page).asLeaf
  let buffer :=
    match direction with
    | .ascending => leaf.entries.drop cursor.slot
    | .descending => (leaf.entries.take (cursor.slot + 1)).reverse
  return ⟨direction, buffer, behind direction leaf⟩

/-- The scan along a ray. -/
def ofRay (tree : Tree K I) (ray : Ray K) : Paging K I (Scan K I) := do
  let found ← tree.seekRay ray
  -- an ascending ray without entries has its cursor behind the last one, where nothing follows
  if ray.direction = .descending ∧ found.fit = .outside then
    return nothing ray.direction
  else
    ofCursor found.position ray.direction

/-- The scan over the next leaf; none if there is no next leaf. -/
def nextLeaf? (tree : Tree K I) (scan : Scan K I) : Paging K I (Option (Scan K I)) := do
  match scan.continuation with
  | .finished => return none
  | .linked ref =>
    let leaf ← Action.ofExcept (← Pager.resolve ref).asLeaf
    return some ⟨scan.direction, leaf.entries, behind .ascending leaf⟩
  | .before key =>
    match ← tree.leafBefore? key with
    | none => return none
    | some page =>
      let leaf ← Action.ofExcept page.asLeaf
      return some ⟨scan.direction, leaf.entries.reverse, behind .descending leaf⟩

/-- The next entry or the failure to reach it, passing over at most `limit` leaves. -/
def advance (tree : Tree K I) :
    Nat → Scan K I → Paging K I (Option (Except IndexError (K × I)) × Scan K I)
  | _, ⟨direction, entry :: rest, continuation⟩ =>
    return (some (.ok entry), ⟨direction, rest, continuation⟩)
  | 0, _ => Action.circle
  | limit + 1, scan => do
    match ← Action.attempt (scan.nextLeaf? tree) with
    -- nothing is handed out behind a failure
    | .error e => return (some (.error e), nothing scan.direction)
    | .ok none => return (none, nothing scan.direction)
    | .ok (some scan) => scan.advance tree limit

/-- The next entry, or the failure to reach it; none at the end. -/
def next (tree : Tree K I) (scan : Scan K I) :
    Paging K I (Option (Except IndexError (K × I)) × Scan K I) := do
  scan.advance tree (← get).walkLimit

/-- The next `count` entries, fewer if the scan ends or fails. -/
def take (tree : Tree K I) :
    Nat → Scan K I → Paging K I (List (Except IndexError (K × I)) × Scan K I)
  | 0, scan => return ([], scan)
  | count + 1, scan => do
    match ← scan.next tree with
    | (none, scan) => return ([], scan)
    | (some outcome, scan) =>
      let (outcomes, scan) ← scan.take tree count
      return (outcome :: outcomes, scan)

end Scan

end PagedIndex
