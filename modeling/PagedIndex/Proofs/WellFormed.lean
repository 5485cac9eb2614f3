import PagedIndex.Proofs.Index.Operations
import PagedIndex.Proofs.Subtree.Sound

/-!
# An index stays in shape

An index is `WellFormed` when its pages, read from the root on, are a sound tree that agrees with what the index
says of itself. A new index is, and ready-made pages may be; from there on, whatever is added, replaced, removed
or cleared leaves it so (`wellFormed_after`). The values that the pages carry have no part in this.
-/

namespace PagedIndex

variable {K I : Type}

namespace Index

section

variable [Ord K]

/-- The pages of the index are a sound tree, and the index knows it. -/
structure Matches (s : Index K I) (t : Subtree K I) : Prop where
  root : t.ref = s.tree.root
  stored : t.StoredIn s.pager.page?
  sound : t.Sound s.tree.config.pageSize
  /-- The last leaf is the rightmost one. -/
  last : t.leaves.getLast?.map Prod.fst = some s.tree.rightmost
  /-- Every item is stored under its own key. -/
  keyed : ∀ e ∈ t.entries, compare (s.tree.keyOf e.2) e.1 = .eq
  len : s.tree.len = t.entries.length

/-- The pages of the index, read from its root on, are a tree as it should be. -/
def WellFormed (s : Index K I) : Prop := ∃ t, s.Matches t

variable [Std.TransOrd K] {s : Index K I} {t : Subtree K I}

theorem matches_iff_holds (hready : s.pager.Ready) (hsize : 4 ≤ s.tree.config.pageSize) :
    s.Matches t ↔ ∃ d, s.Holds d t := by
  have hp : 2 ≤ s.tree.config.pageSize := by omega
  constructor
  · intro h
    obtain ⟨⟨d, hwhole⟩, hasc, hnd, hlinked⟩ := (Subtree.sound_iff hp).mp h.sound
    refine ⟨d, ⟨hready, hsize, h.root.symm, h.stored, hnd, hasc, hlinked, ?_, h.keyed⟩, hwhole, h.len⟩
    rw [lastRef_eq_getLast? none hwhole.regular.leaves_ne_nil]
    exact h.last
  · rintro ⟨d, h⟩
    refine ⟨h.root.symm, h.stored, (Subtree.sound_iff hp).mpr ⟨⟨d, h.whole⟩, h.ascending, h.nodup, h.linked⟩, ?_,
      h.keyed, h.len⟩
    rw [← lastRef_eq_getLast? none h.whole.regular.leaves_ne_nil]
    exact h.last

end

/-- An index that was just made, or opened over ready-made pages in shape, and the number of its pages. -/
inductive Start [Ord K] : Index K I → Nat → Prop
  | created {config : Config} {measures : MeasureSet I} {keyOf : I → K} {tree : Tree K I} {pager : Pager K I}
    (hrun : Action.Runs (Tree.create config measures keyOf) (Pager.inMemory .wide) tree pager) :
    Start ⟨tree, pager⟩ 1
  | opened {config : Config} {measures : MeasureSet I} {keyOf : I → K}
    {nodes : List (Node K I × List Int64)} {descriptor : Descriptor} {tree : Tree K I} {pager : Pager K I}
    (hrun : Action.Runs (Tree.openStored config measures keyOf) (Pager.ofNodes nodes descriptor) tree pager)
    (hshape : WellFormed ⟨tree, pager⟩) : Start ⟨tree, pager⟩ nodes.length

theorem Start.valid [Ord K] {s : Index K I} {n : Nat} (h : Start s n) : s.tree.config.validate = .ok () := by
  cases h with
  | created hrun =>
    obtain ⟨hvalid, heq⟩ := Tree.eq_of_create_runs hrun
    rw [heq]
    exact hvalid
  | opened hrun => exact (Tree.eq_of_openStored_runs hrun).2

theorem Start.holds [Ord K] [Std.TransOrd K] {s : Index K I} {n : Nat} (h : Start s n) (hn : n < 2 ^ 64) :
    s.pager.gate = .wide ∧ s.pager.next.toNat = n ∧ ∃ d t, s.Holds d t := by
  cases h with
  | created hrun =>
    obtain ⟨hvalid, heq⟩ := Tree.eq_of_create_runs hrun
    rw [heq]
    exact ⟨rfl, rfl, _, _, holds_fresh _ _ (Config.of_validate hvalid).1⟩
  | opened hrun hshape =>
    obtain ⟨rfl, hvalid⟩ := Tree.eq_of_openStored_runs hrun
    obtain ⟨t, ht⟩ := hshape
    obtain ⟨hready, hnext⟩ := Pager.ready_ofNodes hn _
    obtain ⟨d, hholds⟩ := (matches_iff_holds hready (Config.of_validate hvalid).1).mp ht
    exact ⟨rfl, hnext, d, t, hholds⟩

variable [IndexKey K] [Codec I] [Std.TransOrd K] {s : Index K I} {n : Nat}

/-- After every operation of a run, the index is in shape. -/
theorem wellFormed_after (h : Start s n) (ops : List (Op K I)) (hpages : n + pagesMade ops s < 2 ^ 64 - 2) :
    WellFormed (after ops s) := by
  obtain ⟨hg, hnext, d, t, hholds⟩ := h.holds (by omega)
  obtain ⟨d', T, hT, -⟩ := hholds.run hg ops (by omega)
  exact ⟨T, (matches_iff_holds hT.ready hT.pageSize).mpr ⟨d', hT⟩⟩

/-! ## Ready-made pages in shape -/

/-- How many numbers there are, their sum, and the least and the greatest of them. -/
def ofNumbers : MeasureSet UInt64 :=
  [.count, .sum "sum" UInt64.toInt64, .min "least" UInt64.toInt64, .max "greatest" UInt64.toInt64]

/-- Two leaves below a root. -/
def twoLeaves : Subtree UInt64 UInt64 :=
  .inner ⟨2⟩ [4, 10, 1, 4] [3]
    [.leaf ⟨0⟩ [2, 3, 1, 2] ⟨[(1, 1), (2, 2)], some ⟨1⟩⟩, .leaf ⟨1⟩ [2, 7, 3, 4] ⟨[(3, 3), (4, 4)], none⟩]

/-- An index over these pages. -/
def overTwoLeaves : Index UInt64 UInt64 where
  tree := { config := { pageSize := 4 }, measures := ofNumbers, keyOf := id, root := ⟨2⟩, rightmost := ⟨1⟩, len := 4 }
  pager := .ofNodes [(.leaf ⟨[(1, 1), (2, 2)], some ⟨1⟩⟩, [2, 3, 1, 2]),
    (.leaf ⟨[(3, 3), (4, 4)], none⟩, [2, 7, 3, 4]), (.inner ⟨[3], [⟨0⟩, ⟨1⟩]⟩, [4, 10, 1, 4])]
    ⟨4, false, ⟨2⟩, ⟨1⟩, 4, 4⟩

theorem sound_twoLeaves : twoLeaves.Sound 4 := by
  refine (Subtree.sound_iff (by decide)).mpr ⟨⟨1, .inner rfl ?_ ?_, by decide, by decide⟩, ?_, ?_, ?_⟩
  · simp [Subtree.Regular.leaf]
  · simp only [Subtree.Filled]
    decide
  · simp only [twoLeaves, Subtree.walk_inner, Subtree.walk_leaf, List.map_cons, List.map_nil, weave,
      Ascending]
    simp [Stop.Before]
    decide
  · simp [twoLeaves, Subtree.refs_inner, Subtree.refs_leaf]
  · simp [twoLeaves, Subtree.leaves_inner, Subtree.leaves_leaf, Linked, firstRef]

theorem matches_twoLeaves : overTwoLeaves.Matches twoLeaves := by
  have hentries : twoLeaves.entries = [(1, 1), (2, 2), (3, 3), (4, 4)] := by
    simp [twoLeaves, Subtree.entries_inner, Subtree.entries_leaf]
  refine ⟨rfl, ?_, sound_twoLeaves, ?_, ?_, ?_⟩
  · simp only [twoLeaves, Subtree.storedIn_inner, List.forall_mem_cons, Subtree.storedIn_leaf]
    exact ⟨by decide, by decide, by decide, fun _ h => absurd h List.not_mem_nil⟩
  · simp [twoLeaves, Subtree.leaves_inner, Subtree.leaves_leaf]
    rfl
  · rw [hentries]
    simp only [List.forall_mem_cons]
    exact ⟨rfl, rfl, rfl, rfl, fun _ h => absurd h List.not_mem_nil⟩
  · rw [hentries]
    rfl

theorem measured_twoLeaves : twoLeaves.Measured ofNumbers := by
  refine Subtree.measured_inner.mpr ⟨?_, ?_⟩
  · simp only [List.flatMap_cons, Subtree.items_leaf, List.flatMap_nil]
    decide
  · simp only [List.forall_mem_cons, Subtree.measured_leaf]
    exact ⟨by decide, by decide, fun _ h => absurd h List.not_mem_nil⟩

theorem ready_overTwoLeaves : overTwoLeaves.pager.Ready := by
  have h : overTwoLeaves.pager.Ready ∧ overTwoLeaves.pager.next.toNat = 3 := Pager.ready_ofNodes (by decide) _
  exact h.1

theorem start_overTwoLeaves : Start overTwoLeaves 3 := by
  have hrun : Action.Runs (Tree.openStored {} ofNumbers id) overTwoLeaves.pager overTwoLeaves.tree
      overTwoLeaves.pager := rfl
  exact .opened hrun ⟨twoLeaves, matches_twoLeaves⟩

/-- The leaves are merged, and the root gives way to what is left; then it is a root again. -/
theorem wellFormed_after_twoLeaves : Start overTwoLeaves 3
    ∧ 3 + pagesMade [.remove 1, .remove 9, .add 6, .add 5, .replace 5] overTwoLeaves < 2 ^ 64 - 2
    ∧ WellFormed (after [.remove 1, .remove 9, .add 6, .add 5, .replace 5] overTwoLeaves) := by
  have hpages : 3 + pagesMade [.remove 1, .remove 9, .add 6, .add 5, .replace 5] overTwoLeaves < 2 ^ 64 - 2 := by
    decide +kernel
  exact ⟨start_overTwoLeaves, hpages, wellFormed_after start_overTwoLeaves _ hpages⟩

end Index

end PagedIndex
