import PagedIndex.Error
import PagedIndex.Halt

/-!
# Sinks

Where the bytes of an image go. A sink may have room for a limited number of bytes; it then refuses a
write that does not fit and takes none of it.
-/

namespace PagedIndex

/-- The bytes taken so far, and the room that is left if it is limited. -/
structure Sink where
  written : List UInt8
  room : Option Nat
deriving DecidableEq

namespace Sink

/-- A sink that takes everything. -/
def unlimited : Sink := ⟨[], none⟩

/-- A sink that takes `room` bytes in all. -/
def limited (room : Nat) : Sink := ⟨[], some room⟩

/-- Writes some bytes, all or none. -/
def write (bytes : List UInt8) : Action IoError Sink Unit := do
  let sink ← get
  match sink.room with
  | none => set { sink with written := sink.written ++ bytes }
  | some room =>
    if bytes.length ≤ room then
      set { sink with written := sink.written ++ bytes, room := some (room - bytes.length) }
    else
      Action.fail .writeRefused

/-- Writes several fields, one after the other, up to the first that is refused. -/
def writeAll : List (List UInt8) → Action IoError Sink Unit
  | [] => pure ()
  | field :: fields => do
    write field
    writeAll fields

end Sink

end PagedIndex
