import PagedIndex.Proofs.Finding
import PagedIndex.Proofs.WellFormed

/-!
# The values of the measures are right

However an index came to hold what it holds, the values on each of its pages are those that a fresh fold over the
items below that page gives (`accurate_after`): it does not matter which values were added to or taken out of,
and which were folded anew because a minimum or maximum was involved.
-/

namespace PagedIndex.Index

variable {K I : Type}

/-- Every page that is reached from the root carries the fold over all items below it. -/
def Accurate (s : Index K I) : Prop :=
  ∀ t : Subtree K I, t.ref = s.tree.root → t.StoredIn s.pager.page? → ∀ u ∈ t.subtrees,
    u.measures = s.tree.measures.map fun measure => measure.total u.items

theorem accurate_iff_measured {s : Index K I} {t : Subtree K I} (hroot : t.ref = s.tree.root)
    (hst : t.StoredIn s.pager.page?) : s.Accurate ↔ t.Measured s.tree.measures := by
  constructor
  · intro h u hu
    rw [h t hroot hst u hu, MeasureSet.ofItems_eq_map]
  · intro h t' hroot' hst' u hu
    obtain rfl := hst.unique hst' (hroot.trans hroot'.symm)
    rw [h u hu, MeasureSet.ofItems_eq_map]

/-- A new index carries the values of no items. -/
theorem accurate_fresh [Ord K] {config : Config} (hsize : 4 ≤ config.pageSize) (measures : MeasureSet I)
    (keyOf : I → K) : (fresh config measures keyOf).Accurate := by
  have h := holds_fresh measures keyOf hsize
  exact (accurate_iff_measured h.root.symm h.stored).mpr (Subtree.measured_leaf.mpr rfl)

theorem accurate_overTwoLeaves : overTwoLeaves.Accurate :=
  (accurate_iff_measured matches_twoLeaves.root matches_twoLeaves.stored).mpr measured_twoLeaves

section

variable [IndexKey K] [Codec I] [Std.TransOrd K] {s : Index K I} {n d : Nat} {t : Subtree K I}

omit [Std.TransOrd K] in
/-- What is asked for the measures of an index is the fold over all of its items. -/
theorem Holds.measures_answer (h : Holds s d t) (hg : s.pager.gate = .wide)
    (hn : s.pager.next.toNat ≤ 2 ^ 64 - 2) (hm : t.Measured s.tree.measures) :
    s.tree.measureValues.answer s.pager = .ok (s.tree.measures.map fun measure => measure.total t.items)
      ∧ ∀ name, (s.tree.measure? name).answer s.pager
        = .ok ((s.tree.measures.find? fun measure => measure.name == name).map fun measure =>
          measure.total t.items) := by
  have htop : t.measures = s.tree.measures.map fun measure => measure.total t.items := by
    rw [hm.top, MeasureSet.ofItems_eq_map]
  refine ⟨?_, fun name => ?_⟩
  · obtain ⟨values, pager, hrun, -, rfl⟩ := h.reads hn (by rw [hg]; rfl)
      (Service.reads_measureValues h.stored h.root)
    rw [hrun.answer_eq, htop]
  · obtain ⟨value, pager, hrun, -, rfl⟩ := h.reads hn (by rw [hg]; rfl)
      (Service.reads_measure? h.stored h.root name)
    rw [hrun.answer_eq, htop, List.find?_eq_bind_findIdx?_getElem?, Option.map_bind]
    simp only [List.getElem?_map]
    rfl

/-- After every operation of a run, the values on every page are right, and so are the answers. -/
theorem accurate_after (h : Start s n) (hm : s.Accurate) (ops : List (Op K I))
    (hpages : n + pagesMade ops s < 2 ^ 64 - 2) : (after ops s).Accurate ∧ ∃ t, (after ops s).Matches t
      ∧ (after ops s).tree.measureValues.answer (after ops s).pager
        = .ok (s.tree.measures.map fun measure => measure.total t.items)
      ∧ ∀ name, ((after ops s).tree.measure? name).answer (after ops s).pager
        = .ok ((s.tree.measures.find? fun measure => measure.name == name).map fun measure =>
          measure.total t.items) := by
  obtain ⟨hg, hnext, d, t, hholds⟩ := h.holds (by omega)
  obtain ⟨d', T, hT, hsame, hlast, hmeas⟩ := hholds.run hg ops (by omega)
  have hmT := hmeas ((accurate_iff_measured hholds.root.symm hholds.stored).mp hm)
  rw [← hsame.measures] at hmT ⊢
  exact ⟨(accurate_iff_measured hT.root.symm hT.stored).mpr hmT, T,
    (matches_iff_holds hT.ready hT.pageSize).mpr ⟨d', hT⟩,
    hT.measures_answer (by rw [hsame.gate, hg]) (by omega) hmT⟩

/-- The smallest item is taken out of a new index, and the next one is the least now. -/
theorem accurate_after_minimum : Start (fresh { pageSize := 4 } ofNumbers id : Index UInt64 UInt64) 1
    ∧ 1 + pagesMade [.add 3, .add 1, .add 2, .add 5, .add 4, .remove 1]
      (fresh { pageSize := 4 } ofNumbers id : Index UInt64 UInt64) < 2 ^ 64 - 2
    ∧ let s : Index UInt64 UInt64 :=
        after [.add 3, .add 1, .add 2, .add 5, .add 4, .remove 1] (fresh { pageSize := 4 } ofNumbers id)
      s.Accurate ∧ (∃ t, s.Matches t ∧ ofNumbers.map (fun measure => measure.total t.items) = [4, 14, 2, 5])
        ∧ s.tree.measureValues.answer s.pager = .ok [4, 14, 2, 5]
        ∧ (s.tree.measure? "least").answer s.pager = .ok (some 2) := by
  have hstart : Start (fresh { pageSize := 4 } ofNumbers id : Index UInt64 UInt64) 1 :=
    .created (Tree.create_runs _ _ (by rfl))
  have hpages : 1 + pagesMade [.add 3, .add 1, .add 2, .add 5, .add 4, .remove 1]
      (fresh { pageSize := 4 } ofNumbers id : Index UInt64 UInt64) < 2 ^ 64 - 2 := by decide +kernel
  obtain ⟨haccurate, t, hmatches, hvalues, -⟩ := accurate_after hstart (accurate_fresh (by decide) _ _) _ hpages
  -- running the index gives the numbers, and the answer is the fold over its items
  have hanswer : ((after [.add 3, .add 1, .add 2, .add 5, .add 4, .remove 1]
      (fresh { pageSize := 4 } ofNumbers id : Index UInt64 UInt64)).tree.measureValues.answer
        (after [.add 3, .add 1, .add 2, .add 5, .add 4, .remove 1]
      (fresh { pageSize := 4 } ofNumbers id : Index UInt64 UInt64)).pager) = .ok [4, 14, 2, 5] := by decide +kernel
  exact ⟨hstart, hpages, haccurate, ⟨t, hmatches, Except.ok.inj (hvalues.symm.trans hanswer)⟩, hanswer,
    by decide +kernel⟩

end

end PagedIndex.Index
