import PagedIndex.Seek

/-!
# Leaves

A leaf holds entries in ascending order of their keys and a link to the next leaf. An operation on a
slot the leaf does not have gives none.
-/

namespace PagedIndex

/-- Entries in key order and the link to the next leaf. -/
structure Leaf (K I : Type) where
  entries : List (K × I)
  right : Option PageRef
deriving DecidableEq, Repr

/-- What became of two neighbours that were merged. -/
inductive Merged (K : Type) where
  /-- The left one took everything; the right one is empty. -/
  | absorbed
  /-- Both keep about half; `separator` now stands between them. -/
  | rebalanced (separator : K)
deriving DecidableEq, Repr

namespace Leaf

variable {K I : Type}

/-- A leaf without entries and without a next leaf. -/
def empty : Leaf K I := ⟨[], none⟩

/-- How many entries there are. -/
def size (leaf : Leaf K I) : Nat := leaf.entries.length

/-- The keys in order. -/
def keys (leaf : Leaf K I) : List K := leaf.entries.map Prod.fst

/-- The items in key order. -/
def items (leaf : Leaf K I) : List I := leaf.entries.map Prod.snd

/-- The smallest key. -/
def firstKey? (leaf : Leaf K I) : Option K := leaf.entries.head?.map Prod.fst

/-- Puts an entry at a slot and moves the entries from there on up. -/
def insertAt? (leaf : Leaf K I) (slot : Nat) (entry : K × I) : Option (Leaf K I) :=
  if slot ≤ leaf.size then
    some { leaf with entries := leaf.entries.take slot ++ entry :: leaf.entries.drop slot }
  else
    none

/-- Takes the entry out of a slot. -/
def removeAt? (leaf : Leaf K I) (slot : Nat) : Option ((K × I) × Leaf K I) :=
  leaf.entries[slot]?.map fun entry => (entry, { leaf with entries := leaf.entries.eraseIdx slot })

/-- Puts another item in a slot, under the same key. -/
def replaceAt? (leaf : Leaf K I) (slot : Nat) (item : I) : Option (I × Leaf K I) :=
  leaf.entries[slot]?.map fun entry =>
    (entry.2, { leaf with entries := leaf.entries.set slot (entry.1, item) })

/-- Cuts a leaf in two at a slot. Both halves keep the link. -/
def splitAt? (leaf : Leaf K I) (slot : Nat) : Option (Leaf K I × Leaf K I) :=
  if slot ≤ leaf.size then
    some ({ leaf with entries := leaf.entries.take slot }, { leaf with entries := leaf.entries.drop slot })
  else
    none

/-- Merges a leaf with the one to its right. If all entries fit into one page, the left leaf takes
them and the link; otherwise both get half of them, the right one the odd one. -/
def merge (left right : Leaf K I) (pageSize : Nat) : Merged K × Leaf K I × Leaf K I :=
  let entries := left.entries ++ right.entries
  let half := entries.length / 2
  if entries.length ≤ pageSize then
    (.absorbed, ⟨entries, right.right⟩, empty)
  else
    match entries.drop half with
    | [] => (.absorbed, ⟨entries, right.right⟩, empty)
    | entry :: rest =>
      (.rebalanced entry.1, { left with entries := entries.take half },
        { right with entries := entry :: rest })

section Order

variable [Ord K]

/-- How many entries have a key below `key`, or up to it if `inclusive`. -/
def rank (leaf : Leaf K I) (key : K) (inclusive : Bool) : Nat :=
  (leaf.entries.takeWhile fun entry =>
    let order := compare entry.1 key
    if inclusive then order.isLE else order.isLT).length

/-- Looks for a key: exact at its slot; nearest at the slot between two entries where it belongs;
outside at the first slot or behind the last one. -/
def seek (leaf : Leaf K I) (key : K) : Found Nat :=
  let slot := leaf.rank key false
  match leaf.entries[slot]? with
  | some entry =>
    if compare entry.1 key == .eq then ⟨.exact, slot⟩
    else if slot = 0 then ⟨.outside, slot⟩
    else ⟨.nearest, slot⟩
  | none => ⟨.outside, slot⟩

/-- The item under a key. -/
def find? (leaf : Leaf K I) (key : K) : Option I :=
  let found := leaf.seek key
  if found.isExact then leaf.entries[found.position]?.map Prod.snd else none

end Order

end Leaf

end PagedIndex
