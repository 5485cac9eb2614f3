import PagedIndex.Bytes.LittleEndian
import PagedIndex.Error
import PagedIndex.Halt

/-!
# Reading bytes

A reader takes values from the front of a list of bytes. What it has not taken stays, also when it
stops early. Taking more bytes than there are is an abort, not an error: a reader of untrusted bytes
has to ask first.
-/

namespace PagedIndex

/-- A computation that consumes bytes. -/
abbrev Reader (α : Type) := Action IoError (List UInt8) α

namespace Reader

/-- How many bytes are left. -/
def left : Reader Nat := do return (← get).length

/-- Fails unless `needed` bytes are left. -/
def require (needed : Nat) : Reader Unit := do
  let left ← left
  if left < needed then
    Action.fail (.truncated left needed)

/-- The next `count` bytes; an abort if there are fewer. -/
def take (count : Nat) : Reader (List UInt8) := do
  let bytes ← get
  if bytes.length < count then
    Action.abort
  else
    set (bytes.drop count)
    return bytes.take count

/-- The next `count` bytes; a short read if there are fewer. -/
def exactly (count : Nat) : Reader (List UInt8) := do
  if (← left) < count then
    Action.fail .shortRead
  else
    take count

/-- The number in the next `width` bytes. -/
def number (width : Nat) : Reader Nat := do
  return Bytes.LittleEndian.toNat (← take width)

/-- The 8-bit number in the next byte. -/
def byte : Reader UInt8 := do return UInt8.ofNat (← number 1)

/-- The 16-bit number in the next two bytes. -/
def word16 : Reader UInt16 := do return UInt16.ofNat (← number 2)

/-- The 32-bit number in the next four bytes. -/
def word32 : Reader UInt32 := do return UInt32.ofNat (← number 4)

/-- The 64-bit number in the next eight bytes. -/
def word64 : Reader UInt64 := do return UInt64.ofNat (← number 8)

/-- The values of `count` readings, in order. -/
def many {α : Type} (read : Reader α) : Nat → Reader (List α)
  | 0 => pure []
  | count + 1 => do
    let first ← read
    let others ← many read count
    return first :: others

/-- What a reader makes of some bytes; what it leaves over is dropped. -/
def run {α : Type} (read : Reader α) (bytes : List UInt8) : Except (Halt IoError) α :=
  match read bytes with
  | .ok a _ => .ok a
  | .error h _ => .error h

end Reader

namespace Bytes

/-- A 16-bit number in two bytes. -/
def ofWord16 (n : UInt16) : List UInt8 := LittleEndian.ofNat 2 n.toNat

/-- A 32-bit number in four bytes. -/
def ofWord32 (n : UInt32) : List UInt8 := LittleEndian.ofNat 4 n.toNat

/-- A 64-bit number in eight bytes. -/
def ofWord64 (n : UInt64) : List UInt8 := LittleEndian.ofNat 8 n.toNat

end Bytes

end PagedIndex
