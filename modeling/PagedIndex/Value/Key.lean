import PagedIndex.Text.Quoted
import PagedIndex.Value.Codec

/-!
# What a key type provides

Keys are ordered and stored; a filter hashes them, and messages show them.
-/

namespace PagedIndex

/-- A type whose values can be hashed: equal values, and only those, have equal bytes to hash. -/
class HashInput (α : Type) where
  /-- The bytes a hash of the value runs over. -/
  hashInput : α → List UInt8

/-- A type whose values messages can show. -/
class Shown (α : Type) where
  /-- The value as a message shows it. -/
  shown : α → String

export HashInput (hashInput)

export Shown (shown)

/-- A type of keys. -/
class IndexKey (K : Type) extends Ord K, Codec K, HashInput K, Shown K

/-- Numbers hash by their stored form. -/
@[reducible]
def hashStored {α : Type} [Codec α] : HashInput α := ⟨Codec.encode⟩

instance : IndexKey UInt8 := { toHashInput := hashStored, shown := fun n => toString n.toNat }

instance : IndexKey UInt16 := { toHashInput := hashStored, shown := fun n => toString n.toNat }

instance : IndexKey UInt32 := { toHashInput := hashStored, shown := fun n => toString n.toNat }

instance : IndexKey UInt64 := { toHashInput := hashStored, shown := fun n => toString n.toNat }

instance : IndexKey Int8 := { toHashInput := hashStored, shown := fun n => toString n.toInt }

instance : IndexKey Int16 := { toHashInput := hashStored, shown := fun n => toString n.toInt }

instance : IndexKey Int32 := { toHashInput := hashStored, shown := fun n => toString n.toInt }

instance : IndexKey Int64 := { toHashInput := hashStored, shown := fun n => toString n.toInt }

instance : IndexKey Bool :=
  { toHashInput := hashStored, shown := fun b => if b then "true" else "false" }

/-- A text hashes its bytes and a byte that occurs in no text. Its order is that of its code points,
which is also that of its bytes. -/
instance : IndexKey String where
  hashInput s := Text.Utf8.encode s ++ [0xFF]
  shown := Text.Quoted.encode

/-- A byte string hashes its length in eight bytes, then itself. -/
instance : IndexKey (List UInt8) where
  hashInput bytes := Bytes.LittleEndian.ofNat 8 bytes.length ++ bytes
  shown bytes := "[" ++ ", ".intercalate (bytes.map fun b => toString b.toNat) ++ "]"

/-- Pairs are ordered by their first part, then by their second. -/
instance {α β : Type} [IndexKey α] [IndexKey β] : IndexKey (α × β) where
  toOrd := lexOrd
  hashInput v := hashInput v.1 ++ hashInput v.2
  shown v := "(" ++ shown v.1 ++ ", " ++ shown v.2 ++ ")"

end PagedIndex
