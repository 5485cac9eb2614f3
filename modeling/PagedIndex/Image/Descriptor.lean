import PagedIndex.Image.StoredPage

/-!
# Descriptors

What an image says about its index: the page size, whether a filter follows, where the tree starts and
its last leaf lies, and how many items and measures there are. Thirty-five bytes, the first two of
which name the version of the format and the last two of which are unused.
-/

namespace PagedIndex

/-- What an image says about its index. -/
structure Descriptor where
  pageSize : UInt32
  hasFilter : Bool
  root : PageRef
  rightmost : PageRef
  items : UInt64
  measures : UInt16
deriving DecidableEq, Repr

namespace Descriptor

/-- The version of the format. -/
def version : UInt16 := 1

/-- The length of a stored descriptor. -/
def byteSize : Nat := 35

/-- The stored form. -/
def encode (d : Descriptor) : List UInt8 :=
  Bytes.ofWord16 version ++ Bytes.ofWord32 d.pageSize ++ [if d.hasFilter then 1 else 0]
    ++ Bytes.ofWord64 d.root.id ++ Bytes.ofWord64 d.rightmost.id ++ Bytes.ofWord64 d.items
    ++ Bytes.ofWord16 d.measures ++ Bytes.ofWord16 0

/-- Reads a descriptor. Any byte but zero announces a filter. -/
def decode : Reader Descriptor := do
  Reader.require byteSize
  let found ← Reader.word16
  if found ≠ version then
    Action.fail (.unknownVersion found.toNat)
  let pageSize ← Reader.word32
  let flag ← Reader.byte
  let root ← Reader.word64
  let rightmost ← Reader.word64
  let items ← Reader.word64
  let measures ← Reader.word16
  let _ ← Reader.word16
  return {
    pageSize
    hasFilter := flag != 0
    root := ⟨root⟩
    rightmost := ⟨rightmost⟩
    items, measures }

/-- The descriptor as a page. -/
def toStored (d : Descriptor) : StoredPage :=
  { kind := .descriptor, payload := d.encode, right := none }

theorem length_encode (d : Descriptor) : d.encode.length = byteSize := by
  simp [encode, Bytes.ofWord16, Bytes.ofWord32, Bytes.ofWord64, byteSize]

end Descriptor

end PagedIndex
