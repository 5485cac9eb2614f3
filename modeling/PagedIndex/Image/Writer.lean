import PagedIndex.BloomFilter
import PagedIndex.Image.Descriptor
import PagedIndex.Image.Sink

/-!
# Writing images

A writer appends pages and names each by the offset it lies at. `commit` seals the image: descriptor,
filter, and the offset of the descriptor in the last eight bytes. The position advances only over
what was written completely.
-/

namespace PagedIndex

/-- An image being written. A writer reports each page `shift` bytes behind the offset it lies at;
only a writer whose shift is zero can be trusted with links. -/
structure ImageWriter where
  sink : Sink
  position : Nat
  shift : UInt64

namespace ImageWriter

/-- A writer at the start of an empty sink. -/
def ofSink (sink : Sink) : ImageWriter := { sink, position := 0, shift := 0 }

/-- Runs a write on the sink and names the page at which it failed. -/
def writeTo (page : PageRef) (write : Action IoError Sink Unit) : Action IndexError ImageWriter Unit :=
  Action.mapError (.persistence page)
    (Action.zoom (·.sink) (fun sink writer => { writer with sink }) write)

/-- Appends a page and names the offset at which it lies. -/
def append (page : StoredPage) : Action IndexError ImageWriter PageRef := do
  let writer ← get
  let ref := PageRef.ofNat writer.position
  writeTo ref (Sink.writeAll page.fields)
  -- after a refusal the position stays, and nothing is ever named that was written in part
  modify fun writer => { writer with position := writer.position + page.byteSize }
  return ⟨ref.id + writer.shift⟩

/-- The bytes of the filter behind the descriptor, if there is one. -/
def filterFields : Option BloomFilter → List (List UInt8)
  | some filter => [filter.encode]
  | none => []

/-- Seals the image and names the offset of its descriptor. -/
def commit (descriptor : Descriptor) (filter : Option BloomFilter) :
    Action IndexError ImageWriter PageRef := do
  let writer ← get
  let ref := PageRef.ofNat writer.position
  let fields := descriptor.toStored.fields ++ filterFields filter ++ [Bytes.ofWord64 ref.id]
  writeTo .descriptor (Sink.writeAll fields)
  modify fun writer => { writer with position := writer.position + fields.flatten.length }
  return ref

end ImageWriter

end PagedIndex
