import PagedIndex.BloomFilter
import PagedIndex.Image.Descriptor

/-!
# Reading images

An image is a list of bytes that may come from anywhere. Pages are found by their offset; the
descriptor is found by the offset in the last eight bytes. Offsets and lengths are 64-bit words, as
they are in the image itself, so that a theorem can say that they never wrap.
-/

namespace PagedIndex

/-- The bytes of a written index. -/
structure Image where
  bytes : List UInt8
deriving DecidableEq

namespace Image

/-- The length of an image. -/
def size (image : Image) : UInt64 := UInt64.ofNat image.bytes.length

/-- The sum of two words, or the largest word if the sum does not fit. -/
def saturatingAdd (a b : UInt64) : UInt64 :=
  if a + b < a then 0xFFFFFFFFFFFFFFFF else a + b

/-- Reads from an offset on. -/
def readAt {α : Type} (image : Image) (offset : UInt64) (read : Reader α) : Except (Halt IoError) α :=
  read.run (image.bytes.drop offset.toNat)

/-- Reads the header and the payload of the page at `offset`, the reader standing there. -/
def headed (image : Image) (offset : UInt64) : Reader (Header × List UInt8) := do
  -- the offset may be any word, so that the sum must not wrap
  if saturatingAdd offset (UInt64.ofNat Header.byteSize) > image.size then
    Action.fail (.pageStart offset.toNat image.size.toNat)
  let header ← Header.decode
  if offset + UInt64.ofNat Header.byteSize + header.length.toUInt64 > image.size then
    Action.fail (.pageBody offset.toNat)
  let payload ← Reader.exactly header.length.toNat
  if !header.accepts payload then
    Action.fail (.checksum offset.toNat)
  return (header, payload)

/-- Reads a leaf's link; other pages have none. -/
def link (kind : PageKind) : Reader (Option PageRef) :=
  if kind = .leaf then do
    let raw ← Reader.exactly StoredPage.linkSize
    return PageRef.ofLink (UInt64.ofNat (Bytes.LittleEndian.toNat raw))
  else
    pure none

/-- The page that lies at an offset. -/
def page (image : Image) (offset : UInt64) : Except (Halt IoError) StoredPage :=
  image.readAt offset do
    let (header, payload) ← image.headed offset
    let right ← link header.kind
    return { kind := header.kind, payload, right }

/-- The filter between the descriptor that ends at `start` and the trailer. -/
def filter (image : Image) (start trailer : UInt64) : Except (Halt IoError) BloomFilter := do
  -- behind a descriptor that reaches into the trailer there is no room for a filter
  let length := if start ≤ trailer then trailer - start else 0
  let bytes ← image.readAt start (Reader.exactly length.toNat)
  BloomFilter.decode.run bytes

/-- The descriptor, and the filter if it announces one. -/
def descriptor (image : Image) : Except (Halt IoError) (Descriptor × Option BloomFilter) := do
  if image.size < 8 then
    throw (.failed .noTrailer)
  -- the last eight bytes tell where the descriptor lies
  let trailer := image.size - 8
  let raw ← image.readAt trailer (Reader.exactly StoredPage.linkSize)
  let offset := UInt64.ofNat (Bytes.LittleEndian.toNat raw)
  let (header, payload) ← image.readAt offset (image.headed offset)
  if header.kind ≠ .descriptor then
    throw (.failed (.notDescriptor offset.toNat header.kind))
  let descriptor ← Descriptor.decode.run payload
  if descriptor.hasFilter then
    let start := offset + UInt64.ofNat (Header.byteSize + payload.length)
    return (descriptor, some (← image.filter start trailer))
  else
    return (descriptor, none)

end Image

end PagedIndex
