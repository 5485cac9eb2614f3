import PagedIndex.Image.StoredPage
import PagedIndex.Page.Basic
import PagedIndex.Value.Codec

/-!
# Stored form of nodes

A payload starts with the number of measures in two bytes and their values in eight bytes each. A leaf
goes on with the number of its entries in four bytes and the entries; an inner page with the number of
its separators in four bytes, its first child, and every separator followed by the child behind it.
-/

namespace PagedIndex

namespace StoredPage

variable {K I : Type} [Codec K] [Codec I]

/-- The values of the measures at the start of a payload. -/
def encodeMeasures (measures : List Int64) : List UInt8 :=
  Bytes.LittleEndian.ofNat 2 measures.length ++ measures.flatMap Codec.encode

/-- The stored form of a node and the values of its measures. -/
def ofNode (node : Node K I) (measures : List Int64) : StoredPage :=
  match node with
  | .leaf leaf =>
    { kind := .leaf
      payload := encodeMeasures measures ++ Bytes.LittleEndian.ofNat 4 leaf.size
        ++ leaf.entries.flatMap Codec.encode
      right := leaf.right }
  | .inner inner =>
    { kind := .inner
      payload := encodeMeasures measures ++ Bytes.LittleEndian.ofNat 4 inner.size
        ++ (inner.children.take 1).flatMap (fun child => Bytes.ofWord64 child.id)
        ++ (inner.keys.zip (inner.children.drop 1)).flatMap
          (fun slot => Codec.encode slot.1 ++ Bytes.ofWord64 slot.2.id)
      right := none }

/-- Reads the values of the measures. -/
def decodeMeasures : Reader (List Int64) := do
  Reader.require 2
  let count ← Reader.number 2
  Reader.require (count * 8)
  Reader.many (do return (← Reader.word64).toInt64) count

/-- Reads the name of a child. -/
def decodeChild : Reader PageRef := do return ⟨UInt64.ofNat (← Codec.number 8)⟩

/-- Reads a separator and the child behind it. -/
def decodeSlot : Reader (K × PageRef) := do
  let key ← Codec.decode
  let child ← decodeChild
  return (key, child)

/-- Reads the node of a page of some kind. -/
def decodeBody (kind : PageKind) (right : Option PageRef) : Reader (Node K I) := do
  match kind with
  | .leaf =>
    let count ← Codec.number 4
    let entries ← Reader.many Codec.decode count
    return .leaf ⟨entries, right⟩
  | .inner =>
    let count ← Codec.number 4
    let first ← decodeChild
    let slots : List (K × PageRef) ← Reader.many decodeSlot count
    -- the first child makes one more than there are separators
    let inner ← Action.orAbort (Inner.ofParts? (slots.map Prod.fst) (first :: slots.map Prod.snd))
    return .inner inner
  | found => Action.fail (.notTreePage found)

/-- Reads a payload to its end. -/
def decodePayload (kind : PageKind) (right : Option PageRef) : Reader (Node K I × List Int64) := do
  let measures ← decodeMeasures
  let node ← decodeBody kind right
  let left ← Reader.left
  if left ≠ 0 then
    Action.fail (.trailingBytes left)
  return (node, measures)

/-- The node that a stored page holds, and the values of its measures. -/
def decode (page : StoredPage) : Except (Halt IoError) (Node K I × List Int64) :=
  (decodePayload page.kind page.right).run page.payload

end StoredPage

end PagedIndex
