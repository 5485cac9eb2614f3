import PagedIndex.Proofs.Subtree.Walk
import PagedIndex.Config

/-!
# The shape of a tree

A tree is `Regular` when its leaves lie equally deep, every inner page has one more child than separators,
and every page but the one at the top is filled: at least half of its slots are in use, and not more than
there are. The page at the top is left open, because that is where a change is at work: a page that has
just lost a slot, or is about to be cut in two, is still the top of a regular tree.
-/

namespace PagedIndex

namespace Subtree

variable {K I : Type}

/-- At least half of the slots of the page at the top are in use, and not more than there are. -/
def Filled (pageSize : Nat) (t : Subtree K I) : Prop := pageSize / 2 ≤ t.size ∧ t.size ≤ pageSize

/-- A tree of depth `d` all of whose inner pages have one more child than separators and all of whose
pages but the one at the top are filled. -/
inductive Regular (pageSize : Nat) : Nat → Subtree K I → Prop where
  | leaf {r : PageRef} {m : List Int64} {l : Leaf K I} : Regular pageSize 0 (.leaf r m l)
  | inner {d : Nat} {r : PageRef} {m : List Int64} {ks : List K} {cs : List (Subtree K I)} :
      cs.length = ks.length + 1 → (∀ c ∈ cs, Regular pageSize d c) → (∀ c ∈ cs, c.Filled pageSize) →
      Regular pageSize (d + 1) (.inner r m ks cs)

/-- A whole tree: regular, with no page too large and at least one separator in an inner root. -/
structure Whole (pageSize d : Nat) (t : Subtree K I) : Prop where
  regular : t.Regular pageSize d
  size_le : t.size ≤ pageSize
  size_pos : d ≠ 0 → 1 ≤ t.size

variable {pageSize d : Nat}

theorem Regular.eq_leaf {t : Subtree K I} (h : t.Regular pageSize 0) : ∃ r m l, t = .leaf r m l := by
  cases h with
  | leaf => exact ⟨_, _, _, rfl⟩

theorem Regular.eq_inner {t : Subtree K I} (h : t.Regular pageSize (d + 1)) : ∃ r m ks cs,
    t = .inner r m ks cs ∧ cs.length = ks.length + 1 ∧ (∀ c ∈ cs, c.Regular pageSize d)
      ∧ ∀ c ∈ cs, c.Filled pageSize := by
  cases h with
  | inner hl hc hf => exact ⟨_, _, _, _, rfl, hl, hc, hf⟩

theorem regular_inner {r : PageRef} {m : List Int64} {ks : List K} {cs : List (Subtree K I)} :
    (Subtree.inner r m ks cs).Regular pageSize (d + 1) ↔ cs.length = ks.length + 1
      ∧ (∀ c ∈ cs, c.Regular pageSize d) ∧ ∀ c ∈ cs, c.Filled pageSize := by
  constructor
  · intro h
    cases h with
    | inner hl hc hf => exact ⟨hl, hc, hf⟩
  · rintro ⟨hl, hc, hf⟩
    exact .inner hl hc hf

/-- A tree has only one depth. -/
theorem Regular.depth_unique {d' : Nat} {t : Subtree K I} (h : t.Regular pageSize d)
    (h' : t.Regular pageSize d') : d = d' := by
  induction h generalizing d' with
  | leaf =>
    cases h' with
    | leaf => rfl
  | @inner d r m ks cs hl _ _ ih =>
    cases h' with
    | inner _ hreg _ =>
      cases cs with
      | nil => exact absurd hl (by simp)
      | cons c cs => rw [ih c List.mem_cons_self (hreg c List.mem_cons_self)]

/-- Below a filled page there are only filled ones. -/
theorem Regular.filled_of_mem {t s : Subtree K I} (h : t.Regular pageSize d) (ht : t.Filled pageSize)
    (hs : s ∈ t.subtrees) : s.Filled pageSize := by
  induction h with
  | leaf =>
    rw [subtrees_leaf, List.mem_singleton] at hs
    exact hs ▸ ht
  | inner _ _ hf ih =>
    rcases mem_subtrees_inner.mp hs with rfl | ⟨c, hc, hsc⟩
    · exact ht
    · exact ih c hc (hf c hc) hsc

theorem Regular.of_mem {t s : Subtree K I} (h : t.Regular pageSize d) (hs : s ∈ t.subtrees) :
    ∃ d', s.Regular pageSize d' := by
  induction h with
  | @leaf r m l =>
    rw [subtrees_leaf, List.mem_singleton] at hs
    exact ⟨0, hs ▸ .leaf⟩
  | inner hl hc hf ih =>
    rcases mem_subtrees_inner.mp hs with rfl | ⟨c, hc', hsc⟩
    · exact ⟨_, .inner hl hc hf⟩
    · exact ih c hc' hsc

/-- A path through the tree meets no more pages than the tree has. -/
theorem Regular.depth_lt {t : Subtree K I} (h : t.Regular pageSize d) : d < t.refs.length := by
  induction h with
  | leaf => rw [refs_leaf]; exact Nat.zero_lt_one
  | @inner d r m ks cs hl _ _ ih =>
    cases cs with
    | nil => exact absurd hl (by simp)
    | cons c cs =>
      have := ih c List.mem_cons_self
      rw [refs_inner, List.length_cons, List.flatMap_cons, List.length_append]
      omega

/-! ## No page is empty -/

/-- A walk through filled pages ends at an entry. -/
theorem Regular.walk_eq_concat {t : Subtree K I} (hp : 2 ≤ pageSize) (h : t.Regular pageSize d)
    (ht : 1 ≤ t.size) : ∃ w e, t.walk = w ++ [.entry e] := by
  induction h with
  | @leaf r m l =>
    rw [size_leaf] at ht
    have hne : l.entries ≠ [] := List.length_pos_iff.mp ht
    refine ⟨l.entries.dropLast.map .entry, l.entries.getLast hne, ?_⟩
    rw [walk_leaf, ← List.map_singleton (f := Stop.entry), ← List.map_append,
      List.dropLast_append_getLast hne]
  | @inner d r m ks cs hl _ hf ih =>
    have hne : cs ≠ [] := by rintro rfl; exact absurd hl (by simp)
    have hlast := List.getLast_mem hne
    have h1 : 1 ≤ (cs.getLast hne).size := by have := (hf _ hlast).1; omega
    obtain ⟨w, e, hw⟩ := ih _ hlast h1
    have hlen : ks.length = (cs.dropLast.map walk).length := by
      rw [List.length_map, List.length_dropLast]; omega
    refine ⟨weave ks (cs.dropLast.map walk) ++ w, e, ?_⟩
    rw [walk_inner, ← List.dropLast_append_getLast hne, List.map_append, List.map_singleton, hw,
      ← List.append_nil ks, weave_append hlen, List.append_nil, List.dropLast_append_getLast hne, weave,
      weave, List.append_nil, List.append_assoc]

theorem Regular.entries_ne_nil {t : Subtree K I} (hp : 2 ≤ pageSize) (h : t.Regular pageSize d)
    (ht : 1 ≤ t.size) : t.entries ≠ [] := by
  obtain ⟨w, e, hw⟩ := h.walk_eq_concat hp ht
  have : e ∈ t.entries := entry_mem_walk.mp (hw ▸ List.mem_append_right w List.mem_cons_self)
  exact List.ne_nil_of_mem this

/-- Whatever is met in a walk through filled pages, an entry that is not below it is met as well. -/
theorem Regular.exists_entry_ge [Ord K] [Std.TransOrd K] {t : Subtree K I} (hp : 2 ≤ pageSize)
    (h : t.Regular pageSize d) (ht : 1 ≤ t.size) (ha : Ascending t.walk) {s : Stop K I}
    (hs : s ∈ t.walk) : ∃ e, .entry e ∈ t.walk ∧ (compare s.key e.1).isLE := by
  obtain ⟨w, e, hw⟩ := h.walk_eq_concat hp ht
  refine ⟨e, hw ▸ List.mem_append_right w List.mem_cons_self, ?_⟩
  rw [hw] at hs ha
  rcases List.mem_append.mp hs with hs | hs
  · exact ((List.pairwise_append.mp ha).2.2 s hs _ List.mem_cons_self).isLE
  · rw [List.mem_singleton.mp hs]
    exact Std.ReflCmp.isLE_rfl

end Subtree

end PagedIndex
