import PagedIndex.Bytes.Reader
import PagedIndex.Text.Utf8

/-!
# Stored form of keys and items

Numbers are stored in their own width, lowest byte first; texts and byte strings follow their length
in four bytes; the parts of a pair follow one another.
-/

namespace PagedIndex

/-- A type whose values can be stored in a page. -/
class Codec (α : Type) where
  /-- The bytes of a value. -/
  encode : α → List UInt8
  /-- Reads a value from the front of some bytes. -/
  decode : Reader α

namespace Codec

/-- The number in the next `width` bytes; fails if fewer are left. -/
def number (width : Nat) : Reader Nat := do
  Reader.require width
  Reader.number width

instance : Codec UInt8 where
  encode n := Bytes.LittleEndian.ofNat 1 n.toNat
  decode := do return UInt8.ofNat (← number 1)

instance : Codec UInt16 where
  encode n := Bytes.ofWord16 n
  decode := do return UInt16.ofNat (← number 2)

instance : Codec UInt32 where
  encode n := Bytes.ofWord32 n
  decode := do return UInt32.ofNat (← number 4)

instance : Codec UInt64 where
  encode n := Bytes.ofWord64 n
  decode := do return UInt64.ofNat (← number 8)

instance : Codec Int8 where
  encode n := encode n.toUInt8
  decode := do return UInt8.toInt8 (← decode)

instance : Codec Int16 where
  encode n := encode n.toUInt16
  decode := do return UInt16.toInt16 (← decode)

instance : Codec Int32 where
  encode n := encode n.toUInt32
  decode := do return UInt32.toInt32 (← decode)

instance : Codec Int64 where
  encode n := encode n.toUInt64
  decode := do return UInt64.toInt64 (← decode)

instance : Codec Bool where
  encode b := [if b then 1 else 0]
  decode := do
    let byte : UInt8 ← decode
    if byte = 0 then return false
    else if byte = 1 then return true
    else Action.fail (.invalidBool byte)

instance : Codec (List UInt8) where
  encode bytes := Bytes.LittleEndian.ofNat 4 bytes.length ++ bytes
  decode := do
    let length ← number 4
    Reader.require length
    Reader.take length

instance : Codec String where
  encode s := encode (Text.Utf8.encode s)
  decode := do
    let bytes : List UInt8 ← decode
    match Text.Utf8.decode? bytes with
    | some s => return s
    | none =>
      let (start, length) := Text.Utf8.fault bytes
      Action.fail (.illFormedText start length)

instance {α β : Type} [Codec α] [Codec β] : Codec (α × β) where
  encode v := encode v.1 ++ encode v.2
  decode := do
    let first ← decode
    let second ← decode
    return (first, second)

end Codec

end PagedIndex
