import PagedIndex.Value.Key

/-!
# Shapes of values

A shape describes the type of a key or of an item: a number of some width, a truth value, a text, a
byte string, or a pair of such. Everything that a key provides is defined by recursion on the shape.
-/

namespace PagedIndex

/-- The shape of a value. -/
inductive Shape where
  | u8
  | i8
  | u16
  | i16
  | u32
  | i32
  | u64
  | i64
  | bool
  | str
  | bytes
  | pair (first second : Shape)
deriving DecidableEq, Repr

namespace Shape

/-- The values of a shape. -/
def Value : Shape → Type
  | u8 => UInt8
  | i8 => Int8
  | u16 => UInt16
  | i16 => Int16
  | u32 => UInt32
  | i32 => Int32
  | u64 => UInt64
  | i64 => Int64
  | bool => Bool
  | str => String
  | bytes => List UInt8
  | pair first second => first.Value × second.Value

/-- What the values of a shape provide as keys. -/
instance indexKey : (s : Shape) → IndexKey s.Value
  | u8 => inferInstanceAs (IndexKey UInt8)
  | i8 => inferInstanceAs (IndexKey Int8)
  | u16 => inferInstanceAs (IndexKey UInt16)
  | i16 => inferInstanceAs (IndexKey Int16)
  | u32 => inferInstanceAs (IndexKey UInt32)
  | i32 => inferInstanceAs (IndexKey Int32)
  | u64 => inferInstanceAs (IndexKey UInt64)
  | i64 => inferInstanceAs (IndexKey Int64)
  | bool => inferInstanceAs (IndexKey Bool)
  | str => inferInstanceAs (IndexKey String)
  | bytes => inferInstanceAs (IndexKey (List UInt8))
  | pair first second =>
    have := first.indexKey
    have := second.indexKey
    inferInstanceAs (IndexKey (first.Value × second.Value))

/-- The number a measure sees of a value: a number is itself in 64 bits, a truth value one or zero, a
text or byte string its length in bytes, and a pair the sum of its parts. -/
def weight : (s : Shape) → s.Value → Int64
  | u8, n => UInt64.toInt64 (UInt8.toUInt64 n)
  | i8, n => Int8.toInt64 n
  | u16, n => UInt64.toInt64 (UInt16.toUInt64 n)
  | i16, n => Int16.toInt64 n
  | u32, n => UInt64.toInt64 (UInt32.toUInt64 n)
  | i32, n => Int32.toInt64 n
  | u64, n => UInt64.toInt64 n
  | i64, n => n
  | bool, b => bif b then 1 else 0
  | str, s => Int64.ofNat (Text.Utf8.encode s).length
  | bytes, bs => Int64.ofNat ((show List UInt8 from bs).length)
  | pair first second, v => first.weight v.1 + second.weight v.2

end Shape

end PagedIndex
