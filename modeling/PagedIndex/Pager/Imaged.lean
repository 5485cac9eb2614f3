import PagedIndex.Cache.Basic
import PagedIndex.Image.Basic
import PagedIndex.Image.NodeFormat
import PagedIndex.Pager.Lifecycle

/-!
# Pages of an image

Pages that lie in an image are read when they are asked for and kept in a cache. They do not change.
The filter of the image is loaded once, at the start.
-/

namespace PagedIndex

/-- The pages of an image; without an image once it is disposed of. -/
structure Imaged (K I : Type) where
  image : Option Image
  cache : PageCache (Page K I)
  filter : Option BloomFilter
  life : Lifecycle

namespace Imaged

variable {K I : Type}

/-- The pages of an image behind a cache, not started. -/
def ofImage (image : Image) (capacity : Nat) : Imaged K I :=
  { image := some image, cache := .ofCapacity capacity, filter := none, life := .fresh }

/-- The bytes behind the pages. -/
def source : Action IndexError (Imaged K I) Image := do
  match (← get).image with
  | some image => return image
  | none => Action.fail .disposed

/-- What was read for a page, or the failure with the page's name. -/
def reading {α : Type} (ref : PageRef) (result : Except (Halt IoError) α) :
    Action IndexError (Imaged K I) α :=
  Action.mapError (.persistence ref) (Action.ofOutcome result)

/-- Starts serving and reads the descriptor. -/
def start : Action IndexError (Imaged K I) Descriptor := do
  let life ← Action.ofExcept (← get).life.start
  let image ← source
  let (descriptor, filter) ← reading .descriptor image.descriptor
  -- the stage changes only once everything has been read
  modify fun store => { store with filter, life }
  return descriptor

/-- Whether a page is in the cache. -/
def isCached (store : Imaged K I) (ref : PageRef) : Bool := store.cache.contains ref

/-- Reads the page at an offset and takes it into the cache. -/
def load [Codec K] [Codec I] (ref : PageRef) : Action IndexError (Imaged K I) (Page K I) := do
  let image ← source
  let stored ← reading ref (image.page ref.id)
  -- a page counts as read even if its payload cannot be decoded
  modify fun store =>
    { store with cache := { store.cache with counters := store.cache.counters.countRead } }
  let (node, measures) ← reading ref stored.decode
  let store ← get
  let (page, _, cache) := store.cache.insert ref { ref, measures, node }
  set { store with cache }
  return page

/-- The page of a name. -/
def resolve [Codec K] [Codec I] (ref : PageRef) : Action IndexError (Imaged K I) (Page K I) := do
  let store ← get
  Action.ofExcept store.life.requireReady
  if !ref.isDefined then
    Action.fail (.corruption ref .reservedRef)
  let (found, cache) := store.cache.get ref
  set { store with cache }
  match found with
  | some page => return page
  | none => load ref

/-- False only for a key that the image's filter denies. -/
def mightContain [HashInput K] (key : K) : Action IndexError (Imaged K I) Bool := do
  let store ← get
  match store.filter with
  | none => return true
  | some filter =>
    if filter.contains key then
      return true
    else
      set { store with cache := { store.cache with counters := store.cache.counters.countRejection } }
      return false

/-- Lets the image go and stops serving. -/
def dispose (store : Imaged K I) : Imaged K I :=
  { store with image := none, cache := store.cache.clear, filter := none, life := .disposed }

end Imaged

end PagedIndex
