import PagedIndex.Proofs.Fold
import PagedIndex.Proofs.Subtree.Spine

/-!
# Trees that carry the right values

A tree is `Measured` when each of its pages carries the fold over all items below it. Along a spine this is
a statement about the items that the subtree at its end should have (`Spine.Measured`), so that it can be
kept while those below have already changed and the pages above have not.
-/

namespace PagedIndex

variable {K I : Type} {measures : MeasureSet I}

namespace Subtree

/-- Every page carries the values of the items below it. -/
def Measured (measures : MeasureSet I) (t : Subtree K I) : Prop :=
  ∀ s ∈ t.subtrees, s.measures = measures.ofItems s.items

theorem items_leaf (r : PageRef) (m : List Int64) (l : Leaf K I) :
    (Subtree.leaf r m l).items = l.items := by
  rw [items, entries_leaf]
  rfl

theorem items_inner (r : PageRef) (m : List Int64) (ks : List K) (cs : List (Subtree K I)) :
    (Subtree.inner r m ks cs).items = cs.flatMap items := by
  rw [items, entries_inner, List.map_flatMap]
  rfl

theorem Measured.top {t : Subtree K I} (h : t.Measured measures) : t.measures = measures.ofItems t.items :=
  h t (mem_subtrees_self t)

theorem measured_leaf {r : PageRef} {m : List Int64} {l : Leaf K I} :
    (Subtree.leaf r m l).Measured measures ↔ m = measures.ofItems l.items := by
  unfold Measured
  rw [subtrees_leaf, List.forall_mem_singleton, items_leaf]
  rfl

theorem measured_inner {r : PageRef} {m : List Int64} {ks : List K} {cs : List (Subtree K I)} :
    (Subtree.inner r m ks cs).Measured measures
      ↔ m = measures.ofItems (cs.flatMap items) ∧ ∀ c ∈ cs, c.Measured measures := by
  unfold Measured
  rw [subtrees_inner, List.forall_mem_cons, items_inner]
  refine and_congr Iff.rfl ?_
  simp only [List.mem_flatMap]
  exact ⟨fun h c hc s hs => h s ⟨c, hc, hs⟩, fun h s ⟨c, hc, hs⟩ => h c hc s hs⟩

/-- The values of some measured trees together are those of all their items. -/
theorem fold_measures {cs : List (Subtree K I)} (h : ∀ c ∈ cs, c.Measured measures) :
    measures.fold (cs.map Subtree.measures) = measures.ofItems (cs.flatMap items) := by
  rw [List.flatMap_def, ← MeasureSet.fold_ofItems, List.map_map]
  exact congrArg measures.fold (List.map_congr_left fun c hc => (h c hc).top)

end Subtree

/-! ## Rows -/

/-- The items of the row, from left to right. -/
def Row.items (row : Row K I) : List I := row.trees.flatMap Subtree.items

/-- Every page of the row carries the right values. -/
def Row.Measured (measures : MeasureSet I) (row : Row K I) : Prop :=
  ∀ t ∈ row.trees, t.Measured measures

theorem Row.items_eq (row : Row K I) : row.items = row.entries.map Prod.snd := by
  rw [items, entries, List.map_flatMap]
  rfl

@[simp]
theorem Row.items_single (t : Subtree K I) : (Row.single t).items = t.items := List.append_nil _

theorem Row.measured_single {t : Subtree K I} :
    (Row.single t).Measured measures ↔ t.Measured measures := List.forall_mem_singleton

theorem Row.measured_pair {t u : Subtree K I} {key : K} :
    (Row.pair t key u).Measured measures ↔ t.Measured measures ∧ u.Measured measures := by
  unfold Row.Measured Row.pair
  rw [List.forall_mem_cons, List.forall_mem_singleton]

/-! ## Spines -/

/-- The items below the page, those below the child left out being `items`. -/
def Frame.itemsAround (f : Frame K I) (items : List I) : List I :=
  f.low.flatMap Subtree.items ++ items ++ f.high.flatMap Subtree.items

theorem Frame.items_hang (f : Frame K I) (row : Row K I) :
    (f.hang row).items = f.itemsAround row.items := by
  rw [hang, Subtree.items_inner, List.flatMap_append, List.flatMap_append, ← List.append_assoc]
  rfl

theorem Frame.items_plug (f : Frame K I) (t : Subtree K I) :
    (f.plug t).items = f.itemsAround t.items := by
  rw [plug, items_hang, Row.items_single]

theorem Frame.itemsAround_perm (f : Frame K I) {as bs : List I} (h : as.Perm bs) :
    (f.itemsAround as).Perm (f.itemsAround bs) :=
  ((List.Perm.refl _).append h).append (List.Perm.refl _)

/-- An item more below the child is an item more below the page. -/
theorem Frame.itemsAround_perm_cons (f : Frame K I) {as bs : List I} {item : I}
    (h : as.Perm (item :: bs)) : (f.itemsAround as).Perm (item :: f.itemsAround bs) := by
  refine (f.itemsAround_perm h).trans ?_
  unfold itemsAround
  rw [List.append_assoc, List.append_assoc]
  exact List.perm_middle

theorem Frame.measured_hang {f : Frame K I} {row : Row K I} : (f.hang row).Measured measures
    ↔ f.measures = measures.ofItems (f.itemsAround row.items) ∧ (∀ c ∈ f.sides, c.Measured measures)
      ∧ row.Measured measures := by
  rw [← items_hang, hang, Subtree.measured_inner, Subtree.items_inner]
  refine and_congr Iff.rfl ?_
  constructor
  · intro h
    refine ⟨fun c hc => h c ?_, fun c hc => h c ?_⟩
    · rcases List.mem_append.mp hc with hc | hc
      · exact List.mem_append_left _ hc
      · exact List.mem_append_right _ (List.mem_append_right _ hc)
    · exact List.mem_append_right _ (List.mem_append_left _ hc)
  · rintro ⟨hs, hr⟩ c hc
    rcases List.mem_append.mp hc with hc | hc
    · exact hs c (List.mem_append_left _ hc)
    · rcases List.mem_append.mp hc with hc | hc
      · exact hr c hc
      · exact hs c (List.mem_append_right _ hc)

namespace Spine

/-- The values on the spine and beside it are right as long as the subtree at the end has these items. -/
def Measured (measures : MeasureSet I) : List I → List (Frame K I) → Prop
  | _, [] => True
  | items, f :: fs => f.measures = measures.ofItems (f.itemsAround items)
    ∧ (∀ c ∈ f.sides, c.Measured measures) ∧ Measured measures (f.itemsAround items) fs

theorem measured_plugAll {fs : List (Frame K I)} {t : Subtree K I} :
    (plugAll fs t).Measured measures ↔ t.Measured measures ∧ Measured measures t.items fs := by
  induction fs generalizing t with
  | nil => exact ⟨fun h => ⟨h, trivial⟩, fun h => h.1⟩
  | cons f fs ih =>
    rw [plugAll, ih, Frame.plug, Frame.measured_hang, Row.items_single, Row.measured_single,
      Frame.items_hang, Row.items_single, Measured]
    tauto

end Spine

end PagedIndex
