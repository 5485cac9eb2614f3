import PagedIndex.Proofs.Image.Sealed

/-!
# Sinks that may run out of room

A sink takes a run of fields as a whole, or up to the first for which it has no room; of that one it takes nothing. So
a writer finishes a block, or stops inside it and names it (`ImageWriter.append_outcome`,
`ImageWriter.commit_outcome`): its position stays where that block begins, and what went into the sink is whole blocks
and, behind them, some fields of the one that does not fit (`ImageWriter.Stopped`).
-/

namespace PagedIndex

open PagedIndex.Action

namespace Sink

variable {room : Option Nat} {n : Nat} {bytes field taken : List UInt8} {fields : List (List UInt8)}

/-- A sink that had room for so many bytes, or for any number of them, and took these. -/
def filled (room : Option Nat) (bytes : List UInt8) : Sink := ⟨bytes, room.map (· - bytes.length)⟩

/-- There is room for these bytes. -/
def Fits (room : Option Nat) (bytes : List UInt8) : Prop := ∀ n ∈ room, bytes.length ≤ n

theorem fits_none (bytes : List UInt8) : Fits none bytes := fun _ h => absurd h (Option.not_mem_none _)

theorem fits_nil (room : Option Nat) : Fits room [] := fun _ _ => Nat.zero_le _

theorem fits_some : Fits (some n) bytes ↔ bytes.length ≤ n :=
  ⟨fun h => h n rfl, fun h _ hn => Option.some.inj hn ▸ h⟩

/-- Of some fields those in front of the first one that does not fit went into a sink with room for `n` bytes in all.
It held `before`, and it holds `taken` then. -/
def Cut (n : Nat) (before : List UInt8) (fields : List (List UInt8)) (taken : List UInt8) : Prop :=
  ∃ done field rest, fields = done ++ field :: rest ∧ taken = before ++ done.flatten ∧ taken.length ≤ n
    ∧ n < (taken ++ field).length

theorem Cut.prefix (h : Cut n bytes fields taken) : bytes <+: taken ∧ taken <+: bytes ++ fields.flatten := by
  obtain ⟨done, field, rest, rfl, rfl, -, -⟩ := h
  rw [List.flatten_append, ← List.append_assoc]
  exact ⟨List.prefix_append _ _, List.prefix_append _ _⟩

theorem Cut.length_le (h : Cut n bytes fields taken) : taken.length ≤ n := by
  obtain ⟨_, _, _, -, -, hle, -⟩ := h
  exact hle

/-- What was cut does not fit. -/
theorem Cut.lt (h : Cut n bytes fields taken) : n < (bytes ++ fields.flatten).length := by
  obtain ⟨done, field, rest, rfl, rfl, -, hlt⟩ := h
  rw [List.flatten_append, List.flatten_cons, ← List.append_assoc, ← List.append_assoc]
  exact Nat.lt_of_lt_of_le hlt (List.prefix_append _ _).length_le

theorem write_runs (h : Fits room (bytes ++ field)) :
    Runs (write field) (filled room bytes) () (filled room (bytes ++ field)) := by
  cases room with
  | none => exact (runs_get _).bind (runs_set _ _)
  | some n =>
    rw [fits_some, List.length_append] at h
    refine (runs_get _).bind ?_
    dsimp only [filled, Option.map_some]
    rw [if_pos (Nat.le_sub_of_add_le' h), List.length_append, Nat.sub_add_eq]
    exact runs_set _ _

theorem write_fails (hle : bytes.length ≤ n) (h : n < (bytes ++ field).length) :
    Fails (write field) (filled (some n) bytes) .writeRefused (filled (some n) bytes) := by
  rw [List.length_append] at h
  refine (runs_get _).fails ?_
  dsimp only [filled, Option.map_some]
  rw [if_neg (by omega)]
  exact fails_fail _ _

/-- All fields are taken, or those in front of the first one for which there is no room. -/
theorem writeAll_outcome (h : Fits room bytes) (fields : List (List UInt8)) :
    Fits room (bytes ++ fields.flatten)
        ∧ Runs (writeAll fields) (filled room bytes) () (filled room (bytes ++ fields.flatten))
      ∨ ∃ n taken, room = some n ∧ Cut n bytes fields taken
        ∧ Fails (writeAll fields) (filled room bytes) .writeRefused (filled room taken) := by
  induction fields generalizing bytes with
  | nil =>
    rw [List.flatten_nil, List.append_nil]
    exact .inl ⟨h, runs_pure _ _⟩
  | cons field fields ih =>
    by_cases hfield : Fits room (bytes ++ field)
    · have hwrite := write_runs hfield
      rw [List.flatten_cons, ← List.append_assoc]
      rcases ih hfield with ⟨hfits, hruns⟩ | ⟨n, taken, rfl, ⟨done, last, rest, rfl, rfl, hle, hlt⟩, hfails⟩
      · exact .inl ⟨hfits, hwrite.bind hruns⟩
      · refine .inr ⟨n, _, rfl, ⟨field :: done, last, rest, rfl, ?_, hle, hlt⟩, hwrite.fails hfails⟩
        rw [List.flatten_cons, List.append_assoc]
    · -- only a sink with limited room has none for a field
      unfold Fits at hfield
      push Not at hfield
      obtain ⟨n, hn, hlt⟩ := hfield
      obtain rfl := Option.mem_def.mp hn
      refine .inr ⟨n, bytes, rfl, ⟨[], field, fields, rfl, (List.append_nil _).symm, fits_some.mp h, hlt⟩, ?_⟩
      exact (write_fails (fits_some.mp h) hlt).bind _

/-- A sink that takes everything takes all fields. -/
theorem writeAll_runs (fields : List (List UInt8)) :
    Runs (writeAll fields) .unlimited () (filled none fields.flatten) := by
  rcases writeAll_outcome (fits_none []) fields with ⟨-, hruns⟩ | ⟨_, _, hnone, -⟩
  · exact hruns
  · exact absurd hnone (by simp)

end Sink

/-- What is written at once, in several fields, and reported under one name if it does not fit. -/
structure Block where
  name : PageRef
  fields : List (List UInt8)

/-- The bytes of some blocks, one behind the other. -/
def Block.bytes (blocks : List Block) : List UInt8 := blocks.flatMap fun block => block.fields.flatten

theorem Block.bytes_nil : Block.bytes [] = [] := rfl

theorem Block.bytes_cons (block : Block) (blocks : List Block) :
    Block.bytes (block :: blocks) = block.fields.flatten ++ Block.bytes blocks := List.flatMap_cons

theorem Block.bytes_singleton (block : Block) : Block.bytes [block] = block.fields.flatten := List.flatMap_singleton _ _

@[simp]
theorem Block.bytes_append (as bs : List Block) : Block.bytes (as ++ bs) = Block.bytes as ++ Block.bytes bs :=
  List.flatMap_append

namespace ImageWriter

open Sink

variable {room : Option Nat} {bytes : List UInt8} {as bs : List Block} {e : IndexError} {writer : ImageWriter}

/-- A writer that wrote these bytes, all of them belonging to whole blocks, into a sink with so much room. -/
def filled (room : Option Nat) (bytes : List UInt8) : ImageWriter := ⟨Sink.filled room bytes, bytes.length, 0⟩

/-- The writer, which had written `bytes`, wrote of these blocks as many as there was room for and stopped inside the
next one, which it names. -/
inductive Stopped (room : Option Nat) (bytes : List UInt8) (blocks : List Block) : IndexError → ImageWriter → Prop
  | inside {n : Nat} {before after : List Block} {block : Block} {taken : List UInt8} (hroom : room = some n)
    (hblocks : blocks = before ++ block :: after)
    (hcut : Cut n (bytes ++ Block.bytes before) block.fields taken) :
    Stopped room bytes blocks (.persistence block.name .writeRefused)
      ⟨.filled room taken, (bytes ++ Block.bytes before).length, 0⟩

theorem Stopped.left (h : Stopped room bytes as e writer) (bs : List Block) :
    Stopped room bytes (as ++ bs) e writer := by
  obtain ⟨hroom, rfl, hcut⟩ := h
  exact .inside hroom (by rw [List.append_assoc, List.cons_append]) hcut

theorem Stopped.right (h : Stopped room (bytes ++ Block.bytes as) bs e writer) :
    Stopped room bytes (as ++ bs) e writer := by
  obtain ⟨hroom, rfl, hcut⟩ := h
  rw [List.append_assoc, ← Block.bytes_append] at hcut ⊢
  exact .inside hroom (List.append_assoc _ _ _).symm hcut

/-- A writer stops only where there is not room for all blocks. -/
theorem Stopped.lt {n : Nat} (h : Stopped (some n) bytes as e writer) : n < (bytes ++ Block.bytes as).length := by
  obtain ⟨hroom, rfl, hcut⟩ := h
  obtain rfl := Option.some.inj hroom
  refine Nat.lt_of_lt_of_le hcut.lt ?_
  rw [Block.bytes_append, Block.bytes_cons, ← List.append_assoc, ← List.append_assoc]
  exact (List.prefix_append _ _).length_le

theorem not_stopped_none : ¬ Stopped none bytes as e writer := by
  rintro ⟨hroom, -, -⟩
  exact absurd hroom (by simp)

theorem writeTo_runs {write : Action IoError Sink Unit} {sink : Sink} (page : PageRef)
    (h : Runs write writer.sink () sink) : Runs (writeTo page write) writer () { writer with sink } := by
  unfold writeTo
  refine Runs.mapError ?_ _
  exact Runs.zoom h

/-- Whatever fails while a block is written is reported with its name. -/
theorem writeTo_fails {write : Action IoError Sink Unit} {sink : Sink} {e : IoError} (page : PageRef)
    (h : Fails write writer.sink e sink) :
    Fails (writeTo page write) writer (.persistence page e) { writer with sink } := by
  unfold writeTo
  refine Fails.mapError ?_ _
  exact Fails.zoom h

/-- A block is written, or the writer stops inside it. -/
theorem writeTo_outcome (h : Fits room bytes) (block : Block) :
    Fits room (bytes ++ Block.bytes [block])
        ∧ Runs (writeTo block.name (Sink.writeAll block.fields)) (filled room bytes) ()
          ⟨.filled room (bytes ++ Block.bytes [block]), bytes.length, 0⟩
      ∨ ∃ e writer, Stopped room bytes [block] e writer
        ∧ Fails (writeTo block.name (Sink.writeAll block.fields)) (filled room bytes) e writer := by
  rcases Sink.writeAll_outcome h block.fields with ⟨hfits, hruns⟩ | ⟨n, taken, rfl, hcut, hfails⟩
  · rw [Block.bytes_singleton]
    exact .inl ⟨hfits, writeTo_runs _ hruns⟩
  · -- it stops inside the only block, with none in front of it
    have hcut' : Cut n (bytes ++ Block.bytes []) block.fields taken := by
      rwa [Block.bytes_nil, List.append_nil]
    have hstopped : Stopped (some n) bytes [block] _ _ := .inside rfl rfl hcut'
    rw [Block.bytes_nil, List.append_nil] at hstopped
    exact .inr ⟨_, _, hstopped, writeTo_fails _ hfails⟩

/-- A page is appended behind what is there, and named by its offset; or the writer stops inside the page. -/
theorem append_outcome (h : Fits room bytes) (page : StoredPage) :
    Fits room (bytes ++ page.toBytes)
        ∧ Runs (append page) (filled room bytes) (.ofNat bytes.length) (filled room (bytes ++ page.toBytes))
      ∨ ∃ e writer, Stopped room bytes [⟨.ofNat bytes.length, page.fields⟩] e writer
        ∧ Fails (append page) (filled room bytes) e writer := by
  rcases writeTo_outcome h ⟨.ofNat bytes.length, page.fields⟩ with
    ⟨hfits, hruns⟩ | ⟨e, writer, hstopped, hfails⟩
  · rw [Block.bytes_singleton] at hfits hruns
    refine .inl ⟨hfits, ?_⟩
    unfold append
    refine (runs_get _).bind ?_
    refine hruns.bind ?_
    refine (runs_modify _ _).bind ?_
    -- the writer advances only now, behind the page
    have hwritten : filled room (bytes ++ page.toBytes)
        = ⟨.filled room (bytes ++ page.toBytes), bytes.length + page.byteSize, 0⟩ := by
      rw [filled, List.length_append, StoredPage.length_toBytes]
    rw [hwritten]
    show Runs (pure (⟨UInt64.ofNat bytes.length + 0⟩ : PageRef)) _ (⟨UInt64.ofNat bytes.length⟩ : PageRef) _
    rw [UInt64.add_zero]
    exact runs_pure _ _
  · refine .inr ⟨e, writer, hstopped, ?_⟩
    unfold append
    exact (runs_get _).fails (hfails.bind _)

/-- Descriptor, filter and trailer go behind what is there; or the writer stops inside them, which is reported under
the name of the descriptor. -/
theorem commit_outcome (h : Fits room bytes) (d : Descriptor) (filter : Option BloomFilter) :
    Fits room (Image.ofSealed bytes d filter).bytes
        ∧ Runs (commit d filter) (filled room bytes) (.ofNat bytes.length)
          (filled room (Image.ofSealed bytes d filter).bytes)
      ∨ ∃ e writer, Stopped room bytes [⟨.descriptor, Image.sealing bytes.length d filter⟩] e writer
        ∧ Fails (commit d filter) (filled room bytes) e writer := by
  rcases writeTo_outcome h ⟨.descriptor, Image.sealing bytes.length d filter⟩ with
    ⟨hfits, hruns⟩ | ⟨e, writer, hstopped, hfails⟩
  · rw [Block.bytes_singleton] at hfits hruns
    refine .inl ⟨hfits, ?_⟩
    unfold commit
    refine (runs_get _).bind ?_
    refine hruns.bind ?_
    have hwritten : filled room (Image.ofSealed bytes d filter).bytes
        = ⟨.filled room (Image.ofSealed bytes d filter).bytes,
          bytes.length + (Image.sealing bytes.length d filter).flatten.length, 0⟩ := by
      rw [filled, Image.ofSealed, List.length_append]
    rw [hwritten]
    exact (runs_modify _ _).bind (runs_pure _ _)
  · refine .inr ⟨e, writer, hstopped, ?_⟩
    unfold commit
    exact (runs_get _).fails (hfails.bind _)

end ImageWriter

end PagedIndex
