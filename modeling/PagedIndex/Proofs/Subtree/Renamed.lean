import PagedIndex.Proofs.Subtree.Measured
import PagedIndex.Proofs.Subtree.Sound

/-!
# Trees under other names

A tree keeps its shape and all that it holds when its pages get other names (`Subtree.rename`). Names occur where a
page stands, where an inner page points to its children, and where a leaf points to the next one.
-/

namespace PagedIndex

variable {K I : Type} {f g : PageRef → PageRef}

/-- The leaf with its link to the same leaf under its other name. -/
def Leaf.rename (f : PageRef → PageRef) (l : Leaf K I) : Leaf K I := ⟨l.entries, l.right.map f⟩

theorem Leaf.rename_rename (l : Leaf K I) : (l.rename f).rename g = l.rename (g ∘ f) := by
  rw [rename, rename, rename, Option.map_map]

namespace Subtree

/-- The same tree, its pages having other names. -/
def rename (f : PageRef → PageRef) : Subtree K I → Subtree K I
  | .leaf r m l => .leaf (f r) m (l.rename f)
  | .inner r m ks cs => .inner (f r) m ks (cs.map (rename f))

theorem rename_leaf (r : PageRef) (m : List Int64) (l : Leaf K I) :
    (Subtree.leaf r m l).rename f = .leaf (f r) m (l.rename f) := by rw [rename]

theorem rename_inner (r : PageRef) (m : List Int64) (ks : List K) (cs : List (Subtree K I)) :
    (Subtree.inner r m ks cs).rename f = .inner (f r) m ks (cs.map (rename f)) := by rw [rename]

/-- To give other names twice is to give other names once. -/
theorem rename_rename (t : Subtree K I) : (t.rename f).rename g = t.rename (g ∘ f) := by
  induction t using subtrees.induct with
  | case1 r m l => rw [rename_leaf, rename_leaf, rename_leaf, Leaf.rename_rename]; rfl
  | case2 r m ks cs ih =>
    rw [rename_inner, rename_inner, rename_inner, List.map_map]
    exact congrArg _ (List.map_congr_left ih)

/-! ## What stays -/

@[simp]
theorem ref_rename (t : Subtree K I) : (t.rename f).ref = f t.ref := by
  cases t with
  | leaf => rw [rename_leaf]; rfl
  | inner => rw [rename_inner]; rfl

@[simp]
theorem measures_rename (t : Subtree K I) : (t.rename f).measures = t.measures := by
  cases t with
  | leaf => rw [rename_leaf]; rfl
  | inner => rw [rename_inner]; rfl

@[simp]
theorem size_rename (t : Subtree K I) : (t.rename f).size = t.size := by
  cases t with
  | leaf => rw [rename_leaf]; rfl
  | inner => rw [rename_inner]; rfl

theorem map_ref_rename (cs : List (Subtree K I)) : (cs.map (rename f)).map ref = (cs.map ref).map f := by
  rw [List.map_map, List.map_map]
  exact List.map_congr_left fun c _ => ref_rename c

theorem subtrees_rename (t : Subtree K I) : (t.rename f).subtrees = t.subtrees.map (rename f) := by
  induction t using subtrees.induct with
  | case1 r m l => rw [subtrees_leaf, rename_leaf, subtrees_leaf, List.map_singleton, rename_leaf]
  | case2 r m ks cs ih =>
    rw [subtrees_inner, List.map_cons, rename_inner, subtrees_inner, List.flatMap_map, List.map_flatMap]
    exact congrArg _ (List.flatMap_congr ih)

theorem leaves_rename (t : Subtree K I) :
    (t.rename f).leaves = t.leaves.map fun leaf => (f leaf.1, leaf.2.rename f) := by
  induction t using subtrees.induct with
  | case1 r m l => rw [leaves_leaf, rename_leaf, leaves_leaf, List.map_singleton]
  | case2 r m ks cs ih =>
    rw [leaves_inner, rename_inner, leaves_inner, List.flatMap_map, List.map_flatMap]
    exact List.flatMap_congr ih

@[simp]
theorem entries_rename (t : Subtree K I) : (t.rename f).entries = t.entries := by
  unfold entries
  rw [leaves_rename, List.flatMap_map]
  rfl

@[simp]
theorem items_rename (t : Subtree K I) : (t.rename f).items = t.items := by rw [items, entries_rename, items]

theorem walk_rename (t : Subtree K I) : (t.rename f).walk = t.walk := by
  induction t using subtrees.induct with
  | case1 r m l => rw [rename_leaf, walk_leaf, walk_leaf]; rfl
  | case2 r m ks cs ih =>
    rw [rename_inner, walk_inner, walk_inner, List.map_map]
    exact congrArg _ (List.map_congr_left ih)

theorem Filled.rename {pageSize : Nat} {t : Subtree K I} (h : t.Filled pageSize) : (t.rename f).Filled pageSize := by
  unfold Filled
  rwa [size_rename]

theorem Regular.rename {pageSize d : Nat} {t : Subtree K I} (h : t.Regular pageSize d) :
    (t.rename f).Regular pageSize d := by
  induction h with
  | leaf =>
    rw [rename_leaf]
    exact .leaf
  | inner hl _ hf ih =>
    rw [rename_inner]
    refine .inner (by rwa [List.length_map]) (List.forall_mem_map.mpr ih) ?_
    exact List.forall_mem_map.mpr fun c hc => (hf c hc).rename

theorem Whole.rename {pageSize d : Nat} {t : Subtree K I} (h : t.Whole pageSize d) : (t.rename f).Whole pageSize d := by
  refine ⟨h.regular.rename, ?_, fun hd => ?_⟩
  · rw [size_rename]
    exact h.size_le
  · rw [size_rename]
    exact h.size_pos hd

theorem Measured.rename {measures : MeasureSet I} {t : Subtree K I} (h : t.Measured measures) :
    (t.rename f).Measured measures := by
  unfold Measured
  rw [subtrees_rename]
  refine List.forall_mem_map.mpr fun s hs => ?_
  rw [measures_rename, items_rename]
  exact h s hs

end Subtree

/-! ## The chain of leaves -/

theorem firstRef_rename (next : Option PageRef) (leaves : List (PageRef × Leaf K I)) :
    firstRef (next.map f) (leaves.map fun leaf => (f leaf.1, leaf.2.rename f)) = (firstRef next leaves).map f := by
  cases leaves <;> rfl

theorem Linked.rename {next : Option PageRef} {leaves : List (PageRef × Leaf K I)} (h : Linked next leaves) :
    Linked (next.map f) (leaves.map fun leaf => (f leaf.1, leaf.2.rename f)) := by
  induction leaves with
  | nil => trivial
  | cons leaf leaves ih =>
    refine ⟨?_, ih h.2⟩
    rw [firstRef_rename, ← h.1]
    rfl

end PagedIndex
