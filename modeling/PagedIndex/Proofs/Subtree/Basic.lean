import PagedIndex.Page.Basic
import Mathlib.Data.List.Perm.Basic

/-!
# Trees written out

A pager knows pages by name only, so a tree is a way of reading its pages. `Subtree` writes that reading
out: a page with everything below it. The store and the tree then come apart. `StoredIn` says that each
page of a written-out tree is what a store has under its name; everything else that is ever said of a
tree, what it holds, in which order, how deep and how full it is, is said of the written-out tree alone.
-/

namespace PagedIndex

/-- A page and everything below it. -/
inductive Subtree (K I : Type) where
  | leaf (ref : PageRef) (measures : List Int64) (leaf : Leaf K I)
  | inner (ref : PageRef) (measures : List Int64) (keys : List K) (children : List (Subtree K I))

namespace Subtree

variable {K I : Type}

/-- The name of the page at the top. -/
def ref : Subtree K I → PageRef
  | .leaf ref .. | .inner ref .. => ref

/-- The values of the measures that the page at the top carries. -/
def measures : Subtree K I → List Int64
  | .leaf _ measures _ | .inner _ measures .. => measures

/-- The page at the top. -/
def page : Subtree K I → Page K I
  | .leaf ref measures l => ⟨ref, measures, .leaf l⟩
  | .inner ref measures keys children => ⟨ref, measures, .inner ⟨keys, children.map Subtree.ref⟩⟩

/-- How many slots of the page at the top are in use. -/
def size (t : Subtree K I) : Nat := t.page.size

/-- The subtrees below the page at the top. -/
def children : Subtree K I → List (Subtree K I)
  | .leaf .. => []
  | .inner _ _ _ children => children

/-- Every page of a tree with what is below it, a page before its children and these from left to
right. -/
def subtrees : Subtree K I → List (Subtree K I)
  | .leaf ref measures l => [.leaf ref measures l]
  | .inner ref measures keys children =>
    .inner ref measures keys children :: children.flatMap subtrees

/-- The leaves with their names, from left to right. -/
def leaves : Subtree K I → List (PageRef × Leaf K I)
  | .leaf ref _ l => [(ref, l)]
  | .inner _ _ _ children => children.flatMap leaves

/-- The names of all pages of a tree. -/
def refs (t : Subtree K I) : List PageRef := t.subtrees.map ref

/-- The entries of all leaves, from left to right. -/
def entries (t : Subtree K I) : List (K × I) := t.leaves.flatMap fun leaf => leaf.2.entries

/-- The items of all leaves, from left to right. -/
def items (t : Subtree K I) : List I := t.entries.map Prod.snd

/-! ## Unfolding -/

@[simp]
theorem ref_page (t : Subtree K I) : t.page.ref = t.ref := by cases t <;> rfl

@[simp]
theorem measures_page (t : Subtree K I) : t.page.measures = t.measures := by cases t <;> rfl

@[simp]
theorem children_page (t : Subtree K I) : t.page.children = t.children.map ref := by
  cases t <;> rfl

theorem size_leaf (r : PageRef) (m : List Int64) (l : Leaf K I) :
    (Subtree.leaf r m l).size = l.entries.length := rfl

theorem size_inner (r : PageRef) (m : List Int64) (ks : List K) (cs : List (Subtree K I)) :
    (Subtree.inner r m ks cs).size = ks.length := rfl

theorem subtrees_leaf (r : PageRef) (m : List Int64) (l : Leaf K I) :
    (Subtree.leaf r m l).subtrees = [.leaf r m l] := by rw [subtrees]

theorem subtrees_inner (r : PageRef) (m : List Int64) (ks : List K) (cs : List (Subtree K I)) :
    (Subtree.inner r m ks cs).subtrees = .inner r m ks cs :: cs.flatMap subtrees := by rw [subtrees]

theorem leaves_leaf (r : PageRef) (m : List Int64) (l : Leaf K I) :
    (Subtree.leaf r m l).leaves = [(r, l)] := by rw [leaves]

theorem leaves_inner (r : PageRef) (m : List Int64) (ks : List K) (cs : List (Subtree K I)) :
    (Subtree.inner r m ks cs).leaves = cs.flatMap leaves := by rw [leaves]

theorem refs_leaf (r : PageRef) (m : List Int64) (l : Leaf K I) :
    (Subtree.leaf r m l).refs = [r] := by rw [refs, subtrees_leaf]; rfl

theorem refs_inner (r : PageRef) (m : List Int64) (ks : List K) (cs : List (Subtree K I)) :
    (Subtree.inner r m ks cs).refs = r :: cs.flatMap refs := by
  rw [refs, subtrees_inner, List.map_cons, List.map_flatMap]
  rfl

theorem entries_leaf (r : PageRef) (m : List Int64) (l : Leaf K I) :
    (Subtree.leaf r m l).entries = l.entries := by
  rw [entries, leaves_leaf, List.flatMap_singleton]

theorem entries_inner (r : PageRef) (m : List Int64) (ks : List K) (cs : List (Subtree K I)) :
    (Subtree.inner r m ks cs).entries = cs.flatMap entries := by
  rw [entries, leaves_inner, List.flatMap_assoc]
  rfl

/-! ## What is a part of what -/

theorem mem_subtrees_self (t : Subtree K I) : t ∈ t.subtrees := by
  cases t with
  | leaf => rw [subtrees_leaf]; exact List.mem_singleton.mpr rfl
  | inner => rw [subtrees_inner]; exact List.mem_cons_self

theorem mem_subtrees_inner {r : PageRef} {m : List Int64} {ks : List K} {cs : List (Subtree K I)}
    {s : Subtree K I} : s ∈ (Subtree.inner r m ks cs).subtrees
      ↔ s = .inner r m ks cs ∨ ∃ c ∈ cs, s ∈ c.subtrees := by
  rw [subtrees_inner, List.mem_cons, List.mem_flatMap]

theorem mem_subtrees_trans {s u t : Subtree K I} (hs : s ∈ u.subtrees) (hu : u ∈ t.subtrees) :
    s ∈ t.subtrees := by
  induction t using subtrees.induct with
  | case1 r m l =>
    rw [subtrees_leaf, List.mem_singleton] at hu
    exact hu ▸ hs
  | case2 r m ks cs ih =>
    rcases mem_subtrees_inner.mp hu with rfl | ⟨c, hc, huc⟩
    · exact hs
    · exact mem_subtrees_inner.mpr (.inr ⟨c, hc, ih c hc huc⟩)

theorem ref_mem_refs (t : Subtree K I) : t.ref ∈ t.refs :=
  List.mem_map_of_mem (mem_subtrees_self t)

theorem mem_refs_of_mem {s t : Subtree K I} (h : s ∈ t.subtrees) : s.ref ∈ t.refs :=
  List.mem_map_of_mem h

theorem refs_child_subset {t c : Subtree K I} (h : c ∈ t.children) : c.refs ⊆ t.refs := by
  cases t with
  | leaf => exact absurd h List.not_mem_nil
  | inner r m ks cs =>
    rw [refs_inner]
    exact fun x hx => List.mem_cons_of_mem r (List.mem_flatMap.mpr ⟨c, h, hx⟩)

/-- In a tree that has no page twice, a page is not below itself. -/
theorem ref_notMem_child {t c : Subtree K I} (hnd : t.refs.Nodup) (h : c ∈ t.children) : t.ref ∉ c.refs := by
  cases t with
  | leaf => exact absurd h List.not_mem_nil
  | inner r m ks cs =>
    rw [refs_inner] at hnd
    exact fun hr => (List.nodup_cons.mp hnd).1 (List.mem_flatMap.mpr ⟨c, h, hr⟩)

theorem mem_leaves_iff {t : Subtree K I} {r : PageRef} {l : Leaf K I} :
    (r, l) ∈ t.leaves ↔ ∃ m, .leaf r m l ∈ t.subtrees := by
  induction t using subtrees.induct with
  | case1 r' m' l' =>
    rw [leaves_leaf, subtrees_leaf]
    simp
  | case2 r' m' ks cs ih =>
    simp only [leaves_inner, mem_subtrees_inner, List.mem_flatMap]
    constructor
    · rintro ⟨c, hc, hl⟩
      obtain ⟨m, hm⟩ := (ih c hc).mp hl
      exact ⟨m, .inr ⟨c, hc, hm⟩⟩
    · rintro ⟨m, hm | ⟨c, hc, hm⟩⟩
      · exact absurd hm (by simp)
      · exact ⟨c, hc, (ih c hc).mpr ⟨m, hm⟩⟩

/-- The leaves are pages of the tree, in the same order. -/
theorem leaves_sublist_refs (t : Subtree K I) : (t.leaves.map Prod.fst).Sublist t.refs := by
  induction t using subtrees.induct with
  | case1 r m l => rw [leaves_leaf, refs_leaf]; exact List.Sublist.refl _
  | case2 r m ks cs ih =>
    rw [leaves_inner, refs_inner, List.map_flatMap]
    refine List.Sublist.cons r ?_
    clear r m ks
    induction cs with
    | nil => exact List.Sublist.slnil
    | cons c cs ihc =>
      rw [List.flatMap_cons, List.flatMap_cons]
      exact (ih c List.mem_cons_self).append (ihc fun x hx => ih x (List.mem_cons_of_mem c hx))

theorem flatMap_leaves_sublist_refs (cs : List (Subtree K I)) :
    ((cs.flatMap leaves).map Prod.fst).Sublist (cs.flatMap refs) := by
  induction cs with
  | nil => exact List.Sublist.slnil
  | cons c cs ih =>
    rw [List.flatMap_cons, List.map_append, List.flatMap_cons]
    exact c.leaves_sublist_refs.append ih

/-! ## Trees in a store -/

/-- Every page of the tree is what the store has under its name. -/
def StoredIn (view : PageRef → Option (Page K I)) (t : Subtree K I) : Prop :=
  ∀ s ∈ t.subtrees, view s.ref = some s.page

theorem StoredIn.top {view : PageRef → Option (Page K I)} {t : Subtree K I} (h : StoredIn view t) :
    view t.ref = some t.page := h t (mem_subtrees_self t)

theorem StoredIn.isSome {view : PageRef → Option (Page K I)} {t : Subtree K I} (h : StoredIn view t) {r : PageRef}
    (hr : r ∈ t.refs) : (view r).isSome := by
  obtain ⟨s, hs, rfl⟩ := List.mem_map.mp hr
  rw [h s hs]
  rfl

theorem StoredIn.child {view : PageRef → Option (Page K I)} {r : PageRef} {m : List Int64} {ks : List K}
    {cs : List (Subtree K I)} (h : StoredIn view (.inner r m ks cs)) {c : Subtree K I} (hc : c ∈ cs) :
    StoredIn view c :=
  fun s hs => h s (mem_subtrees_inner.mpr (.inr ⟨c, hc, hs⟩))

theorem storedIn_leaf {view : PageRef → Option (Page K I)} {r : PageRef} {m : List Int64}
    {l : Leaf K I} : StoredIn view (.leaf r m l) ↔ view r = some ⟨r, m, .leaf l⟩ := by
  unfold StoredIn
  rw [subtrees_leaf]
  exact ⟨fun h => h _ List.mem_cons_self, fun h s hs => by rw [List.mem_singleton.mp hs]; exact h⟩

theorem storedIn_inner {view : PageRef → Option (Page K I)} {r : PageRef} {m : List Int64}
    {ks : List K} {cs : List (Subtree K I)} : StoredIn view (.inner r m ks cs)
      ↔ view r = some ⟨r, m, .inner ⟨ks, cs.map ref⟩⟩ ∧ ∀ c ∈ cs, StoredIn view c := by
  refine ⟨fun h => ⟨h.top, fun c hc => h.child hc⟩, fun ⟨hr, hcs⟩ s hs => ?_⟩
  rcases mem_subtrees_inner.mp hs with rfl | ⟨c, hc, hsc⟩
  · exact hr
  · exact hcs c hc s hsc

/-- A tree stays stored as long as nobody touches its pages. -/
theorem StoredIn.congr {view view' : PageRef → Option (Page K I)} {t : Subtree K I}
    (h : StoredIn view t) (hv : ∀ r ∈ t.refs, view' r = view r) : StoredIn view' t :=
  fun s hs => (hv s.ref (mem_refs_of_mem hs)).trans (h s hs)

/-- A store spells out one tree only below a page. -/
theorem StoredIn.unique {view : PageRef → Option (Page K I)} {t t' : Subtree K I} (h : StoredIn view t)
    (h' : StoredIn view t') (href : t.ref = t'.ref) : t = t' := by
  have hpage : t.page = t'.page := Option.some.inj (h.top.symm.trans (href ▸ h'.top))
  induction t using subtrees.induct generalizing t' with
  | case1 r m l =>
    cases t' with
    | leaf r' m' l' => cases hpage; rfl
    | inner r' m' ks' cs' => cases hpage
  | case2 r m ks cs ih =>
    cases t' with
    | leaf r' m' l' => cases hpage
    | inner r' m' ks' cs' =>
      injection hpage with hr hm hnode
      injection hnode with hnode
      injection hnode with hks hrefs
      obtain rfl := hr
      obtain rfl := hm
      obtain rfl := hks
      refine congrArg (Subtree.inner r m ks) (List.ext_getElem? fun i => ?_)
      have hi : (cs[i]?).map ref = (cs'[i]?).map ref := by
        rw [← List.getElem?_map, ← List.getElem?_map, hrefs]
      cases hc : cs[i]? with
      | none =>
        rw [hc, eq_comm, Option.map_none, Option.map_eq_none_iff] at hi
        exact hi.symm
      | some c =>
        rw [hc, eq_comm, Option.map_some, Option.map_eq_some_iff] at hi
        obtain ⟨c', hc', hcr⟩ := hi
        have hs := h.child (List.mem_of_getElem? hc)
        have hs' := h'.child (List.mem_of_getElem? hc')
        rw [hc', ih c (List.mem_of_getElem? hc) hs hs' hcr.symm
          (Option.some.inj (hs.top.symm.trans (hcr ▸ hs'.top)))]

end Subtree

end PagedIndex
