import PagedIndex.Error
import PagedIndex.Image.Basic
import PagedIndex.Table

/-!
# Shelves

Images under names. A name is given once: the file exists from then on, whether or not the image was
written to its end.
-/

namespace PagedIndex

/-- Images under names. -/
structure Shelf where
  files : Table String Image

namespace Shelf

/-- A shelf without files. -/
def empty : Shelf := ⟨∅⟩

/-- Checks that a name is still free. -/
def reserve (shelf : Shelf) (name : String) : Except IndexError Unit :=
  if shelf.files.contains name then .error (.io .fileExists) else .ok ()

/-- Puts an image under a name. -/
def put (shelf : Shelf) (name : String) (image : Image) : Shelf :=
  ⟨shelf.files.insert name image⟩

/-- The image under a name. -/
def find (shelf : Shelf) (name : String) : Except IndexError Image :=
  match shelf.files.get? name with
  | some image => .ok image
  | none => .error (.io .fileMissing)

end Shelf

end PagedIndex
