import PagedIndex.Cache.Counters
import PagedIndex.Cache.Fifo
import PagedIndex.PageRef
import PagedIndex.Table

/-!
# Page caches

A cache keeps at most `capacity` values under the names of their pages. When it is full, a value that
comes in drives out the one that came in first; a value that is there already stays. A cache without
capacity keeps nothing.
-/

namespace PagedIndex

/-- Values under page names, and the order in which they leave. -/
structure PageCache (V : Type) where
  capacity : Nat
  entries : Table PageRef V
  order : Fifo PageRef
  counters : Counters

namespace PageCache

variable {V : Type}

/-- A cache without entries. -/
def ofCapacity (capacity : Nat) : PageCache V :=
  { capacity, entries := ∅, order := .empty, counters := .zero }

/-- How many values there are. -/
def size (cache : PageCache V) : Nat := cache.entries.size

/-- Whether there is a value under a name; this counts nothing. -/
def contains (cache : PageCache V) (ref : PageRef) : Bool := cache.entries.contains ref

/-- The value under a name, counted as a hit or a miss. -/
protected def get (cache : PageCache V) (ref : PageRef) : Option V × PageCache V :=
  match cache.entries.get? ref with
  | some value => (some value, { cache with counters := cache.counters.countHit })
  | none => (none, { cache with counters := cache.counters.countMiss })

/-- Drives residents out, the oldest one first, while the cache is full; returns those that had a
value. -/
def makeRoom (cache : PageCache V) : List (PageRef × V) × PageCache V :=
  if cache.capacity ≤ cache.entries.size then
    match _hout : cache.order.evict? with
    | none => ([], cache)
    | some (victim, order) =>
      let gone := (cache.entries.get? victim).toList.map fun value => (victim, value)
      let smaller : PageCache V :=
        { cache with
          entries := cache.entries.erase victim
          order
          counters := cache.counters.countEviction }
      let (others, cache) := smaller.makeRoom
      (gone ++ others, cache)
  else
    ([], cache)
termination_by cache.order.queue.length
decreasing_by exact Fifo.length_of_evict? _hout

/-- Takes a value in. The answer is the value that is now under the name, the entries that were driven
out, and the cache. -/
def insert (cache : PageCache V) (ref : PageRef) (value : V) : V × List (PageRef × V) × PageCache V :=
  if cache.capacity = 0 then
    (value, [], cache)
  else
    match cache.entries.get? ref with
    -- the value that came first is the one that is shared
    | some present => (present, [], cache)
    | none =>
      let (gone, cache) := cache.makeRoom
      (value, gone,
        { cache with entries := cache.entries.insert ref value, order := cache.order.touch ref })

/-- Drops every entry; the counters stay. -/
def clear (cache : PageCache V) : PageCache V :=
  { cache with entries := ∅, order := .empty }

end PageCache

end PagedIndex
