/-!
# UTF-8

Which byte lists are texts is settled by the string type itself. This module says where the others go
wrong: at which byte the text stops being well-formed, and how long the ill-formed sequence there is.
-/

namespace PagedIndex.Text.Utf8

/-- The bytes of a text. -/
def encode (s : String) : List UInt8 := s.toUTF8.data.toList

/-- What may follow a leading byte: the range of the second byte and the number of bytes after it. -/
def followers? (lead : UInt8) : Option (UInt8 × UInt8 × Nat) :=
  if lead < 0xC2 then none
  else if lead < 0xE0 then some (0x80, 0xBF, 0)
  else if lead = 0xE0 then some (0xA0, 0xBF, 1)
  else if lead = 0xED then some (0x80, 0x9F, 1)
  else if lead < 0xF0 then some (0x80, 0xBF, 1)
  else if lead = 0xF0 then some (0x90, 0xBF, 2)
  else if lead < 0xF4 then some (0x80, 0xBF, 2)
  else if lead = 0xF4 then some (0x80, 0x8F, 2)
  else none

/-- Checks `more` continuation bytes; the length of the ill-formed sequence if one is wrong, and none
if the bytes end first. -/
def continuation (length : Nat) : Nat → List UInt8 → Except (Option Nat) Unit
  | 0, _ => .ok ()
  | _ + 1, [] => .error none
  | more + 1, b :: rest =>
    if 0x80 ≤ b ∧ b ≤ 0xBF then continuation (length + 1) more rest else .error (some length)

/-- The length of the character at the front of `lead :: rest`; else the length of the ill-formed
sequence there, or none if the bytes end inside it. -/
def character (lead : UInt8) (rest : List UInt8) : Except (Option Nat) Nat :=
  if lead < 0x80 then .ok 1
  else
    match followers? lead, rest with
    | none, _ => .error (some 1)
    | some _, [] => .error none
    | some (low, high, more), second :: rest =>
      if low ≤ second ∧ second ≤ high then
        (continuation 2 more rest).map fun _ => more + 2
      else
        .error (some 1)

/-- Where the bytes stop being a text, and how long the ill-formed sequence is, `skip` bytes of the
current character and `start` bytes in all being behind; the end itself if nothing is wrong. -/
def faultFrom : Nat → Nat → List UInt8 → Nat × Option Nat
  | start, _, [] => (start, none)
  | start, skip + 1, _ :: rest => faultFrom (start + 1) skip rest
  | start, 0, lead :: rest =>
    match character lead rest with
    | .ok length => faultFrom (start + 1) (length - 1) rest
    | .error length => (start, length)

/-- Where a list of bytes stops being a text. -/
def fault (bytes : List UInt8) : Nat × Option Nat := faultFrom 0 0 bytes

/-- The text of a list of bytes, if it is one. -/
def decode? (bytes : List UInt8) : Option String := String.fromUTF8? bytes.toByteArray

end PagedIndex.Text.Utf8
