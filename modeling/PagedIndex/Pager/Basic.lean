import PagedIndex.Pager.Gate
import PagedIndex.Pager.Imaged
import PagedIndex.Pager.Resident

/-!
# Pagers

A pager serves the pages of a tree by name, whether they stay in memory or lie in an image. Every call
passes its gate first. Pages in memory can also be changed in place, which is no call and cannot be
refused.
-/

namespace PagedIndex

/-- Where the pages of a pager are. -/
inductive Backing (K I : Type) where
  | resident (store : Resident K I)
  | imaged (store : Imaged K I)

/-- A source of pages behind a gate. A pager with a `preset` descriptor answers every start with it. -/
structure Pager (K I : Type) where
  backing : Backing K I
  gate : Gate
  preset : Option Descriptor

/-- A computation that calls a pager. -/
abbrev Paging (K I α : Type) := Action IndexError (Pager K I) α

namespace Pager

variable {K I α : Type}

/-- A pager over fresh pages in memory, behind a gate. -/
def inMemory (gate : Gate) : Pager K I :=
  { backing := .resident .fresh, gate, preset := none }

/-- A pager over ready-made pages in memory that hands out `descriptor` whenever it is started. -/
def ofNodes (nodes : List (Node K I × List Int64)) (descriptor : Descriptor) : Pager K I :=
  { backing := .resident (.ofNodes nodes), gate := .wide, preset := some descriptor }

/-- A pager over the pages of an image, behind a wide gate. -/
def ofImage (image : Image) (capacity : Nat) : Pager K I :=
  { backing := .imaged (.ofImage image capacity), gate := .wide, preset := none }

/-- Follows another schedule for a kind of call from now on. -/
def schedule (pager : Pager K I) (call : Call) (schedule : Schedule) : Pager K I :=
  { pager with gate := pager.gate.setSchedule call schedule }

/-- Passes a call through the gate. -/
def pass (call : Call) : Paging K I Unit :=
  Action.zoom (·.gate) (fun gate pager => { pager with gate }) (Gate.pass call)

/-- Answers a call from the pages, wherever they are. -/
def serve (resident : Action IndexError (Resident K I) α) (imaged : Action IndexError (Imaged K I) α) :
    Paging K I α := fun pager =>
  match pager.backing with
  | .resident store =>
    match resident store with
    | .ok a store => .ok a { pager with backing := .resident store }
    | .error h store => .error h { pager with backing := .resident store }
  | .imaged store =>
    match imaged store with
    | .ok a store => .ok a { pager with backing := .imaged store }
    | .error h store => .error h { pager with backing := .imaged store }

/-- Refuses a call because the pages do not change. -/
def readOnly (call : Call) : Action IndexError (Imaged K I) α :=
  Action.fail (.unsupported (.readOnly call))

/-- Whether pages may be created, changed and released. -/
def isWritable (pager : Pager K I) : Bool :=
  match pager.backing with
  | .resident _ => true
  | .imaged _ => false

/-- Starts the pager and returns the descriptor of the index that is stored behind it, if any. -/
def start : Paging K I (Option Descriptor) := do
  -- ready-made pages are served from the outset
  match (← get).preset with
  | some descriptor => return some descriptor
  | none => serve (do Resident.start; return none) (do return some (← Imaged.start))

/-- The page of a name. -/
def resolve [Codec K] [Codec I] (ref : PageRef) : Paging K I (Page K I) := do
  pass .resolve
  serve (Resident.resolve ref) (Imaged.resolve ref)

/-- A new page. -/
def create (node : Node K I) (measures : List Int64) : Paging K I (Page K I) := do
  pass .create
  serve (Resident.create node measures) (readOnly .create)

/-- Gives a page up. -/
def release (ref : PageRef) : Paging K I Unit := do
  pass .release
  serve (Resident.release ref) (readOnly .release)

/-- Gives every page of a list up. Each is tried; the first failure is the answer. -/
def releaseAll : List PageRef → Paging K I Unit
  | [] => pure ()
  | ref :: refs => do
    let first ← Action.attempt (release ref)
    let others ← Action.attempt (releaseAll refs)
    Action.ofExcept first
    Action.ofExcept others

/-- Makes changes durable. -/
def flush : Paging K I Unit := do
  pass .flush
  serve Resident.requireReady (readOnly .flush)

/-- Gives every page up. -/
def clear : Paging K I Unit := do
  pass .clear
  serve Resident.clear (readOnly .clear)

/-- Lets the pages go; every later call fails. -/
def dispose (pager : Pager K I) : Pager K I :=
  match pager.backing with
  | .resident store => { pager with backing := .resident store.dispose }
  | .imaged store => { pager with backing := .imaged store.dispose }

/-- False only for a key that is certainly absent. -/
def mightContain [HashInput K] (key : K) : Paging K I Bool :=
  serve (pure true) (Imaged.mightContain key)

/-- What the pager counted. -/
def counters (pager : Pager K I) : Counters :=
  match pager.backing with
  | .resident store => store.counters
  | .imaged store => store.cache.counters

/-- The page of a name as it is in memory; this is no call. -/
def page? (pager : Pager K I) (ref : PageRef) : Option (Page K I) :=
  match pager.backing with
  | .resident store => store.pages.get? ref
  | .imaged _ => none

/-- Whether a page that was just resolved would be found without reading it again. -/
def holds (pager : Pager K I) (ref : PageRef) : Bool :=
  match pager.backing with
  | .resident store => store.pages.contains ref
  | .imaged store => store.isCached ref

/-- Changes the page of a name in place. -/
def update (pager : Pager K I) (ref : PageRef) (change : Page K I → Page K I) : Pager K I :=
  match pager.backing with
  | .resident store => { pager with backing := .resident (store.update ref change) }
  | .imaged _ => pager

/-- How many pages are in memory. -/
def pageCount (pager : Pager K I) : Nat :=
  match pager.backing with
  | .resident store => store.pages.size
  | .imaged store => store.cache.size

/-- No walk that always goes on to another page resolves more pages than this: there are at most as
many pages as there are in memory, or bytes in the image. The refusals still scheduled are added, so
that a walk in a circle still meets them. -/
def walkLimit (pager : Pager K I) : Nat :=
  let pages :=
    match pager.backing with
    | .resident store => store.pages.size
    | .imaged store => (store.image.map fun image => image.bytes.length).getD 0
  pages + pager.gate.resolve.length + 2

end Pager

end PagedIndex
