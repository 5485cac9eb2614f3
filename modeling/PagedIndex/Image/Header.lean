import PagedIndex.Bytes.Reader
import PagedIndex.Hash.Crc32
import PagedIndex.Image.PageKind

/-!
# Page headers

Nine bytes in front of every stored page: its kind, the CRC-32 of its payload and the length of the
payload, the last two in four bytes each.
-/

namespace PagedIndex

/-- What is stored in front of a payload. -/
structure Header where
  kind : PageKind
  checksum : UInt32
  length : UInt32
deriving DecidableEq, Repr

namespace Header

/-- The length of a stored header. -/
def byteSize : Nat := 9

/-- The header of a payload. -/
def ofPayload (kind : PageKind) (payload : List UInt8) : Header :=
  { kind, checksum := Crc32.checksum payload, length := UInt32.ofNat payload.length }

/-- Whether the payload is the one that the checksum was made for. -/
def accepts (header : Header) (payload : List UInt8) : Bool :=
  header.checksum == Crc32.checksum payload

/-- The stored form. -/
def encode (header : Header) : List UInt8 :=
  header.kind.toByte :: Bytes.ofWord32 header.checksum ++ Bytes.ofWord32 header.length

/-- Reads a header. -/
def decode : Reader Header := do
  Reader.require byteSize
  let kind ← Reader.byte
  let checksum ← Reader.word32
  let length ← Reader.word32
  return { kind := .ofByte kind, checksum, length }

theorem length_encode (header : Header) : header.encode.length = byteSize := by
  simp [encode, Bytes.ofWord32, byteSize]

end Header

end PagedIndex
