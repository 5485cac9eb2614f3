import PagedIndex.Proofs.Subtree.Links

/-!
# Rows

What stands in the place of a child while its page changes is not always one subtree: a page that was cut
in two leaves two of them, with a separator between, and two neighbours that are merged are two before
and one or two afterwards. A `Row` is any number of neighbouring subtrees with the separators between them,
and what an inner page has below it is a row.
-/

namespace PagedIndex

/-- Neighbouring subtrees and the separators between them. -/
structure Row (K I : Type) where
  keys : List K
  trees : List (Subtree K I)

namespace Row

variable {K I : Type}

/-- A row of one. -/
def single (t : Subtree K I) : Row K I := ⟨[], [t]⟩

/-- A row of two. -/
def pair (t : Subtree K I) (key : K) (u : Subtree K I) : Row K I := ⟨[key], [t, u]⟩

/-- What a walk through the row meets. -/
def walk (row : Row K I) : List (Stop K I) := weave row.keys (row.trees.map Subtree.walk)

/-- The leaves of the row, from left to right. -/
def leaves (row : Row K I) : List (PageRef × Leaf K I) := row.trees.flatMap Subtree.leaves

/-- The entries of the row, from left to right. -/
def entries (row : Row K I) : List (K × I) := row.trees.flatMap Subtree.entries

/-- The names of all pages of the row. -/
def refs (row : Row K I) : List PageRef := row.trees.flatMap Subtree.refs

/-- Every page of the row is what the store has under its name. -/
def StoredIn (view : PageRef → Option (Page K I)) (row : Row K I) : Prop :=
  ∀ t ∈ row.trees, t.StoredIn view

/-- The row is what a regular tree may have below a page: filled pages of depth `d`, one more than
separators. -/
structure Fits (pageSize d : Nat) (row : Row K I) : Prop where
  length : row.trees.length = row.keys.length + 1
  regular : ∀ t ∈ row.trees, t.Regular pageSize d
  filled : ∀ t ∈ row.trees, t.Filled pageSize

@[simp]
theorem walk_single (t : Subtree K I) : (single t).walk = t.walk := List.append_nil _

@[simp]
theorem leaves_single (t : Subtree K I) : (single t).leaves = t.leaves := List.append_nil _

@[simp]
theorem entries_single (t : Subtree K I) : (single t).entries = t.entries := List.append_nil _

@[simp]
theorem refs_single (t : Subtree K I) : (single t).refs = t.refs := List.append_nil _

@[simp]
theorem walk_pair (t : Subtree K I) (key : K) (u : Subtree K I) :
    (pair t key u).walk = t.walk ++ .separator key :: u.walk := by
  show t.walk ++ .separator key :: (u.walk ++ []) = _
  rw [List.append_nil]

@[simp]
theorem leaves_pair (t : Subtree K I) (key : K) (u : Subtree K I) :
    (pair t key u).leaves = t.leaves ++ u.leaves := by
  show t.leaves ++ (u.leaves ++ []) = _
  rw [List.append_nil]

@[simp]
theorem entries_pair (t : Subtree K I) (key : K) (u : Subtree K I) :
    (pair t key u).entries = t.entries ++ u.entries := by
  show t.entries ++ (u.entries ++ []) = _
  rw [List.append_nil]

@[simp]
theorem refs_pair (t : Subtree K I) (key : K) (u : Subtree K I) :
    (pair t key u).refs = t.refs ++ u.refs := by
  show t.refs ++ (u.refs ++ []) = _
  rw [List.append_nil]

theorem storedIn_single {view : PageRef → Option (Page K I)} {t : Subtree K I} :
    (single t).StoredIn view ↔ t.StoredIn view := List.forall_mem_singleton

theorem storedIn_pair {view : PageRef → Option (Page K I)} {t u : Subtree K I} {key : K} :
    (pair t key u).StoredIn view ↔ t.StoredIn view ∧ u.StoredIn view := by
  unfold StoredIn pair
  rw [List.forall_mem_cons, List.forall_mem_singleton]

/-- A row stays stored as long as nobody touches its pages. -/
theorem StoredIn.congr {view view' : PageRef → Option (Page K I)} {row : Row K I}
    (h : row.StoredIn view) (hv : ∀ r ∈ row.refs, view' r = view r) : row.StoredIn view' :=
  fun t ht => (h t ht).congr fun r hr => hv r (List.mem_flatMap.mpr ⟨t, ht, hr⟩)

variable {pageSize d : Nat}

theorem fits_single {t : Subtree K I} :
    (single t).Fits pageSize d ↔ t.Regular pageSize d ∧ t.Filled pageSize := by
  constructor
  · exact fun h => ⟨h.regular t List.mem_cons_self, h.filled t List.mem_cons_self⟩
  · rintro ⟨hr, hf⟩
    exact ⟨rfl, List.forall_mem_singleton.mpr hr, List.forall_mem_singleton.mpr hf⟩

theorem fits_pair {t u : Subtree K I} {key : K} : (pair t key u).Fits pageSize d
    ↔ (t.Regular pageSize d ∧ t.Filled pageSize) ∧ u.Regular pageSize d ∧ u.Filled pageSize := by
  constructor
  · intro h
    have hu : u ∈ (pair t key u).trees := List.mem_cons_of_mem t List.mem_cons_self
    exact ⟨⟨h.regular t List.mem_cons_self, h.filled t List.mem_cons_self⟩, h.regular u hu, h.filled u hu⟩
  · rintro ⟨⟨ht, hft⟩, hu, hfu⟩
    refine ⟨rfl, ?_, ?_⟩
    · exact List.forall_mem_cons.mpr ⟨ht, List.forall_mem_singleton.mpr hu⟩
    · exact List.forall_mem_cons.mpr ⟨hft, List.forall_mem_singleton.mpr hfu⟩

/-- Two inner pages with a separator between them are walked like one page that has everything. -/
theorem walk_pair_inner {r r' : PageRef} {m m' : List Int64} {ks : List K} {cs : List (Subtree K I)}
    (h : cs.length = ks.length + 1) (key : K) (ks' : List K) (cs' : List (Subtree K I)) :
    (pair (.inner r m ks cs) key (.inner r' m' ks' cs')).walk
      = weave (ks ++ key :: ks') ((cs ++ cs').map Subtree.walk) := by
  rw [walk_pair, Subtree.walk_inner, Subtree.walk_inner, List.map_append,
    weave_append_trail (by rwa [List.length_map])]
  rfl

theorem entries_eq (row : Row K I) : row.entries = row.leaves.flatMap fun leaf => leaf.2.entries := by
  rw [entries, leaves, List.flatMap_assoc]
  rfl

/-! ## Rows of leaves -/

/-- The row is one leaf or two with these entries; two are separated by the first key of the second. -/
inductive Holds (es : List (K × I)) : Row K I → Prop where
  | single {r : PageRef} {m : List Int64} {l : Leaf K I} :
    l.entries = es → Holds es (single (.leaf r m l))
  | pair {r r' : PageRef} {m m' : List Int64} {l l' : Leaf K I} {key : K} :
    l.entries ++ l'.entries = es → l'.firstKey? = some key →
    Holds es (pair (.leaf r m l) key (.leaf r' m' l'))

theorem Holds.entries_eq {es : List (K × I)} {row : Row K I} (h : row.Holds es) : row.entries = es := by
  cases h with
  | single h => rw [entries_single, Subtree.entries_leaf, h]
  | pair h _ => rw [entries_pair, Subtree.entries_leaf, Subtree.entries_leaf, h]

/-- Where the entries fit into a walk, the row does. -/
theorem Holds.ascending [Ord K] [Std.TransOrd K] {es : List (K × I)} {row : Row K I} (h : row.Holds es)
    {u v : List (Stop K I)} (ha : Ascending (u ++ es.map .entry ++ v)) :
    Ascending (u ++ row.walk ++ v) := by
  cases h with
  | single h => rwa [walk_single, Subtree.walk_leaf, h]
  | @pair r r' m m' l l' key h hk =>
    rw [walk_pair, Subtree.walk_leaf, Subtree.walk_leaf]
    obtain ⟨e, rest, he, rfl⟩ : ∃ e rest, l'.entries = e :: rest ∧ e.1 = key := by
      unfold Leaf.firstKey? at hk
      cases hes : l'.entries with
      | nil => rw [hes] at hk; exact absurd hk (by simp)
      | cons e rest => rw [hes] at hk; exact ⟨e, rest, rfl, Option.some.inj hk⟩
    rw [← h, he, List.map_append, List.map_cons, ← List.append_assoc, List.append_assoc,
      List.cons_append] at ha
    have := ha.separate
    rwa [he, List.map_cons, ← List.append_assoc, List.append_assoc (u ++ _), List.cons_append,
      List.cons_append]

end Row

end PagedIndex
