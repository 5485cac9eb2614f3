import PagedIndex.Image.Header
import PagedIndex.PageRef

/-!
# Stored pages

A page as it lies in an image: header, payload and, for a leaf, the link to the next leaf in eight
bytes.
-/

namespace PagedIndex

/-- A page in stored form. Only a leaf stores its link. -/
structure StoredPage where
  kind : PageKind
  payload : List UInt8
  right : Option PageRef
deriving DecidableEq, Repr

namespace StoredPage

/-- The length of a stored link or offset. -/
def linkSize : Nat := 8

/-- How many bytes the page takes up. -/
def byteSize (page : StoredPage) : Nat :=
  Header.byteSize + page.payload.length + (if page.kind = .leaf then linkSize else 0)

/-- The fields of the page, each of which is written at once. -/
def fields (page : StoredPage) : List (List UInt8) :=
  (Header.ofPayload page.kind page.payload).encode :: page.payload ::
    (if page.kind = .leaf then [Bytes.ofWord64 (PageRef.toLink page.right)] else [])

/-- All bytes of the page. -/
def toBytes (page : StoredPage) : List UInt8 := page.fields.flatten

theorem length_toBytes (page : StoredPage) : page.toBytes.length = page.byteSize := by
  by_cases h : page.kind = .leaf <;>
    simp [toBytes, fields, byteSize, h, Header.length_encode, Bytes.ofWord64, linkSize]
  omega

end StoredPage

end PagedIndex
