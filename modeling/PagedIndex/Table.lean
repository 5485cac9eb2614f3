/-!
# Tables

A small finite map: a list of bindings, at most one for each key as long as it is built by `insert`
and `erase`. A key that is bound anew keeps its place; a new key goes to the end.
-/

namespace PagedIndex

/-- A finite map from `α` to `β`. -/
structure Table (α β : Type) where
  bindings : List (α × β)
deriving DecidableEq

namespace Table

variable {α β : Type}

/-- The table without bindings. -/
def empty : Table α β := ⟨[]⟩

instance : EmptyCollection (Table α β) := ⟨empty⟩

instance : Inhabited (Table α β) := ⟨empty⟩

/-- How many bindings there are. -/
def size (t : Table α β) : Nat := t.bindings.length

/-- The bound keys, in order. -/
def keys (t : Table α β) : List α := t.bindings.map Prod.fst

section Lookup

variable [DecidableEq α]

/-- The value bound to a key in a list of bindings. -/
def lookup (a : α) : List (α × β) → Option β
  | [] => none
  | (a', b) :: rest => if a' = a then some b else lookup a rest

/-- The value bound to a key. -/
def get? (t : Table α β) (a : α) : Option β := lookup a t.bindings

/-- Whether a key is bound. -/
def contains (t : Table α β) (a : α) : Bool := (t.get? a).isSome

/-- Binds a key in a list of bindings. -/
def bind (a : α) (b : β) : List (α × β) → List (α × β)
  | [] => [(a, b)]
  | (a', b') :: rest => if a' = a then (a, b) :: rest else (a', b') :: bind a b rest

/-- Binds a key, anew if it was bound. -/
def insert (t : Table α β) (a : α) (b : β) : Table α β := ⟨bind a b t.bindings⟩

/-- Takes every binding of a key out. -/
def erase (t : Table α β) (a : α) : Table α β :=
  ⟨t.bindings.filter fun binding => !decide (binding.1 = a)⟩

@[simp]
theorem get?_empty (a : α) : (empty : Table α β).get? a = none := rfl

theorem lookup_bind (l : List (α × β)) (a a' : α) (b : β) :
    lookup a' (bind a b l) = if a = a' then some b else lookup a' l := by
  induction l with
  | nil => simp [bind, lookup]
  | cons binding rest ih =>
    by_cases h : binding.1 = a
    · by_cases h' : a = a' <;> simp_all [bind, lookup]
    · by_cases h' : a = a'
      · subst h'; simp_all [bind, lookup]
      · simp_all [bind, lookup]

@[simp]
theorem get?_insert (t : Table α β) (a a' : α) (b : β) :
    (t.insert a b).get? a' = if a = a' then some b else t.get? a' :=
  lookup_bind t.bindings a a' b

theorem lookup_filter (l : List (α × β)) (a a' : α) :
    lookup a' (l.filter fun binding => !decide (binding.1 = a))
      = if a = a' then none else lookup a' l := by
  induction l with
  | nil => simp [lookup]
  | cons binding rest ih =>
    by_cases h : binding.1 = a <;> by_cases h' : a = a' <;> simp_all [lookup]

@[simp]
theorem get?_erase (t : Table α β) (a a' : α) :
    (t.erase a).get? a' = if a = a' then none else t.get? a' :=
  lookup_filter t.bindings a a'

end Lookup

end Table

end PagedIndex
