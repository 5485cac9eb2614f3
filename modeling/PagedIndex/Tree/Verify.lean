import PagedIndex.Tree.Descent

/-!
# Verification

`Tree.verify` walks a whole tree and names the first page at which something is wrong: a name, a size,
the order or range of keys, a key that is not its item's own, stale measures, uneven depth, the number
of items, the last leaf, or the chain of leaves.
-/

namespace PagedIndex.Tree

variable {K I : Type} [IndexKey K] [Codec I]

/-- What a walk over leaves has seen: their depth, and their names from left to right. -/
structure Seen where
  depth : Option Nat
  leaves : List PageRef
deriving DecidableEq

/-- Whether every key is below the one after it. -/
def ascends : List K → Bool
  | a :: b :: rest => (compare a b).isLT && ascends (b :: rest)
  | _ => true

/-- Whether a key lies from `lower` up to, but not including, `upper`. -/
def inRange (lower upper : Option K) (key : K) : Bool :=
  (match lower with
    | some lower => (compare lower key).isLE
    | none => true) &&
  (match upper with
    | some upper => (compare key upper).isLT
    | none => true)

/-- Fails with a flaw of a page unless `sound` holds. -/
def demand (page : PageRef) (sound : Bool) (flaw : Flaw) : Paging K I Unit :=
  if sound then pure () else Action.fail (.corruption page flaw)

/-- Checks name and size of a page. -/
def checkSize (tree : Tree K I) (ref : PageRef) (page : Page K I) : Paging K I Unit := do
  demand ref (page.ref == ref) (.wrongName page.ref)
  demand ref (page.size ≤ tree.config.pageSize) (.overfull page.size)
  demand ref (ref == tree.root || tree.config.minFill ≤ page.size) (.underfull page.size)

/-- Checks the entries of a leaf and its measures. -/
def checkEntries (tree : Tree K I) (ref : PageRef) (measures : List Int64) (leaf : Leaf K I)
    (lower upper : Option K) : Paging K I Unit := do
  demand ref (ascends leaf.keys) .leafOrder
  if let some key := leaf.keys.find? fun key => !inRange lower upper key then
    Action.fail (.corruption ref (.keyRange (shown key)))
  if let some entry := leaf.entries.find? fun entry => compare (tree.keyOf entry.2) entry.1 != .eq then
    Action.fail (.corruption ref (.foreignKey (shown entry.1)))
  demand ref (tree.measures.ofItems leaf.items == measures) .staleLeaf

/-- Checks that a leaf lies as deep as those before it, and takes it to them. -/
def checkDepth (ref : PageRef) (depth : Nat) (seen : Seen) : Paging K I Seen := do
  if let some others := seen.depth then
    demand ref (depth == others) (.leafDepth depth others)
  return { depth := some depth, leaves := seen.leaves ++ [ref] }

/-- Checks the separators of an inner page. -/
def checkSeparators (tree : Tree K I) (ref : PageRef) (inner : Inner K) (lower upper : Option K) :
    Paging K I Unit := do
  demand ref (!(ref == tree.root && inner.keys.isEmpty)) .bareRoot
  demand ref (ascends inner.keys) .separatorOrder
  if let some key := inner.keys.find? fun key => !inRange lower upper key then
    Action.fail (.corruption ref (.separatorRange (shown key)))

/-- The measures of several pages together; all of them are resolved first. -/
def foldResolved (tree : Tree K I) (refs : List PageRef) : Paging K I (List Int64) := do
  let pages ← refs.mapM fun ref => Pager.resolve (I := I) ref
  return tree.measures.fold (pages.map (·.measures))

/-- Checks the children between `lower` and `upper`, of which `keys` separate each from the next; the
number of items below them. -/
def checkChildren (check : PageRef → Option K → Option K → Seen → Paging K I (Nat × Seen))
    (upper : Option K) : Option K → List K → List PageRef → Seen → Paging K I (Nat × Seen)
  | _, _, [], seen => return (0, seen)
  | lower, [], child :: children, seen => do
    let counted ← check child lower upper seen
    -- any further child would need a separator in front of it
    if children.isEmpty then return counted else Action.abort
  | lower, key :: keys, child :: children, seen => do
    let (items, seen) ← check child lower (some key) seen
    let (others, seen) ← checkChildren check upper (some key) keys children seen
    return (items + others, seen)

/-- Checks the subtree below a page that serves the keys between `lower` and `upper` at some depth; the
number of items in it. -/
def checkPage (tree : Tree K I) :
    Nat → Nat → PageRef → Option K → Option K → Seen → Paging K I (Nat × Seen)
  | 0, _, _, _, _, _ => Action.circle
  | limit + 1, depth, ref, lower, upper, seen => do
    let page ← Pager.resolve ref
    tree.checkSize ref page
    match page.node with
    | .leaf leaf =>
      tree.checkEntries ref page.measures leaf lower upper
      return (leaf.size, ← checkDepth ref depth seen)
    | .inner inner =>
      tree.checkSeparators ref inner lower upper
      demand ref ((← tree.foldResolved inner.children) == page.measures) .staleInner
      checkChildren (tree.checkPage limit (depth + 1)) upper lower inner.keys inner.children seen

/-- Checks that the links, from `next` on, lead through exactly these leaves. -/
def checkChain : List PageRef → Option PageRef → Paging K I Unit
  | [], none => pure ()
  | [], some extra => Action.fail (.corruption extra .chainContinues)
  | expected :: leaves, next => do
    demand expected (next == some expected) (.chainReached next)
    let leaf ← Action.ofExcept (← Pager.resolve expected).asLeaf
    checkChain leaves leaf.right

/-- Checks a whole tree. -/
def verify (tree : Tree K I) : Paging K I Unit := do
  let limit := 2 * (← get).walkLimit
  let (items, seen) ← tree.checkPage limit 1 tree.root none none { depth := none, leaves := [] }
  demand tree.root (items == tree.len) (.itemCount items tree.len)
  -- a walk that came to its end has seen a leaf, so there is a last one
  let last := seen.leaves.getLast?.getD tree.root
  demand tree.rightmost (last == tree.rightmost) (.rightmostIs last)
  let first ← tree.firstLeaf
  checkChain seen.leaves (some first.ref)

end PagedIndex.Tree
