import PagedIndex.Cache.Counters
import PagedIndex.Halt
import PagedIndex.Page.Basic
import PagedIndex.Pager.Lifecycle
import PagedIndex.Table

/-!
# Resident pages

Pages that all stay in memory and may be changed. New pages are numbered from zero; the numbers start
again when everything is cleared.
-/

namespace PagedIndex

/-- Pages in memory. -/
structure Resident (K I : Type) where
  pages : Table PageRef (Page K I)
  next : UInt64
  life : Lifecycle
  counters : Counters

namespace Resident

variable {K I : Type}

/-- No pages, not started. -/
def fresh : Resident K I := { pages := ∅, next := 0, life := .fresh, counters := .zero }

/-- Fails unless the pages are served. -/
def requireReady : Action IndexError (Resident K I) Unit := do
  Action.ofExcept (← get).life.requireReady

/-- Starts serving. -/
def start : Action IndexError (Resident K I) Unit := do
  let life ← Action.ofExcept (← get).life.start
  modify fun store => { store with life }

/-- The page of a name. -/
def resolve (ref : PageRef) : Action IndexError (Resident K I) (Page K I) := do
  requireReady
  if !ref.isDefined then
    Action.fail (.corruption ref .reservedRef)
  let store ← get
  match store.pages.get? ref with
  | some page =>
    set { store with counters := store.counters.countHit }
    return page
  | none => Action.fail (.corruption ref .unknownPage)

/-- The page that is created next. -/
def nextPage (store : Resident K I) (node : Node K I) (measures : List Int64) : Page K I :=
  { ref := ⟨store.next⟩, measures, node }

/-- Adds the page that is created next. -/
def addNext (store : Resident K I) (node : Node K I) (measures : List Int64) : Resident K I :=
  let page := store.nextPage node measures
  { store with pages := store.pages.insert page.ref page, next := store.next + 1 }

/-- Adds a page under the next number. -/
def create (node : Node K I) (measures : List Int64) : Action IndexError (Resident K I) (Page K I) := do
  requireReady
  let store ← get
  set (store.addNext node measures)
  return store.nextPage node measures

/-- Pages in memory with the given nodes and values, numbered from zero and served at once. -/
def ofNodes (nodes : List (Node K I × List Int64)) : Resident K I :=
  let ready : Resident K I := { (fresh : Resident K I) with life := .ready }
  nodes.foldl (fun store node => store.addNext node.1 node.2) ready

/-- Forgets a page. -/
def release (ref : PageRef) : Action IndexError (Resident K I) Unit := do
  requireReady
  modify fun store => { store with pages := store.pages.erase ref }

/-- Forgets every page. -/
def clear : Action IndexError (Resident K I) Unit := do
  requireReady
  modify fun store => { store with pages := ∅, next := 0 }

/-- Forgets every page and stops serving. -/
def dispose (store : Resident K I) : Resident K I :=
  { store with pages := ∅, life := .disposed }

/-- Changes the page of a name in place; this is no call and counts nothing. -/
def update (store : Resident K I) (ref : PageRef) (change : Page K I → Page K I) : Resident K I :=
  match store.pages.get? ref with
  | some page => { store with pages := store.pages.insert ref (change page) }
  | none => store

end Resident

end PagedIndex
