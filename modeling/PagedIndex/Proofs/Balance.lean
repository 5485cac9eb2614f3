import PagedIndex.Proofs.Subtree.Height
import PagedIndex.Proofs.WellFormed
import PagedIndex.Proofs.Finding

/-!
# An index is balanced

The height that an index gives is the depth of all its leaves, and it is tied to the number of items from both sides
(`balanced_after`). Every page but the root is at least half full and none is too full, so that each level multiplies
the number of items by what the separators of a page allow; that no page is left too empty is in the shape of the tree,
which every operation keeps.
-/

namespace PagedIndex.Index

variable {K I : Type}

/-- A tree that is a leaf is its own last leaf. -/
theorem Spells.root_eq_rightmost [Ord K] {s : Index K I} {t : Subtree K I} (h : Spells s t)
    (hleaf : t.Regular s.tree.config.pageSize 0) : s.tree.root = s.tree.rightmost := by
  obtain ⟨r, m, l, rfl⟩ := hleaf.eq_leaf
  have hlast := h.last
  rw [Subtree.leaves_leaf] at hlast
  rw [h.root]
  exact Option.some.inj hlast

variable [IndexKey K] [Codec I]

/-- The index has this height, all leaves of the tree lie at it, and it has as many items as a tree of this height has:
for a height above 1 at least those of a root with two children and half full pages below it, and at most those of full
pages. -/
structure OfHeight (s : Index K I) (t : Subtree K I) (height : Nat) : Prop where
  answered : s.tree.height.answer s.pager = .ok height
  depths : ∀ depth ∈ t.depths, depth + 1 = height
  le_len : height = 1
    ∨ 2 * (s.tree.config.pageSize / 2) * (s.tree.config.pageSize / 2 + 1) ^ (height - 2) ≤ s.tree.len
  len_le : s.tree.len ≤ s.tree.config.pageSize * (s.tree.config.pageSize + 1) ^ (height - 1)
  /-- Without items there is a single leaf. -/
  collapsed : s.tree.len = 0 → height = 1 ∧ s.tree.root = s.tree.rightmost

variable {s : Index K I} {d n : Nat} {t : Subtree K I}

/-- A tree in shape has a height, and the way down its first children tells which. -/
theorem Holds.ofHeight (h : Holds s d t) (hg : s.pager.gate = .wide) (hn : s.pager.next.toNat ≤ 2 ^ 64 - 2) :
    s.OfHeight t (d + 1) := by
  obtain ⟨height, pager, hrun, -, rfl⟩ := h.reads hn (by rw [hg]; rfl)
    (Service.reads_height h.stored h.root h.whole.regular h.depth_lt)
  refine ⟨hrun.answer_eq, fun depth hdepth => ?_, ?_, ?_, fun hlen => ?_⟩
  · rw [h.whole.regular.eq_depth depth hdepth]
  · rw [h.len]
    cases d with
    | zero => exact .inl rfl
    | succ d => exact .inr h.whole.le_length_entries
  · rw [h.len]
    exact h.whole.regular.length_entries_le h.whole.size_le
  · have hempty : t.entries = [] := List.length_eq_zero_iff.mp (h.len.symm.trans hlen)
    obtain rfl := h.whole.depth_eq_zero h.pageSize hempty
    exact ⟨rfl, h.root_eq_rightmost h.whole.regular⟩

variable [Std.TransOrd K]

/-- After every operation of a run the index is balanced. -/
theorem balanced_after (h : Start s n) (ops : List (Op K I)) (hpages : n + pagesMade ops s < 2 ^ 64 - 2) :
    ∃ t height, (after ops s).Matches t ∧ (after ops s).OfHeight t height := by
  obtain ⟨hg, hnext, d, t, hholds⟩ := h.holds (by omega)
  obtain ⟨d', T, hT, hsame, hlast, -⟩ := hholds.run hg ops (by omega)
  have hwide : (after ops s).pager.gate = .wide := hsame.gate.trans hg
  exact ⟨T, d' + 1, (matches_iff_holds hT.ready hT.pageSize).mpr ⟨d', hT⟩, hT.ofHeight hwide (by omega)⟩

/-- A fifth item makes a root above two leaves, and when all are removed, a single leaf is left. -/
theorem balanced_after_five :
    Start (fresh { pageSize := 4 } [] id : Index UInt64 UInt64) 1
    ∧ 1 + pagesMade [.add 1, .add 2, .add 3, .add 4, .add 5, .remove 1, .remove 2, .remove 3, .remove 4, .remove 5]
        (fresh { pageSize := 4 } [] id : Index UInt64 UInt64) < 2 ^ 64 - 2
    ∧ (∃ t, (after [.add 1, .add 2, .add 3, .add 4, .add 5]
        (fresh { pageSize := 4 } [] id : Index UInt64 UInt64)).OfHeight t 2)
    ∧ ∃ t, (after [.add 1, .add 2, .add 3, .add 4, .add 5, .remove 1, .remove 2, .remove 3, .remove 4, .remove 5]
        (fresh { pageSize := 4 } [] id : Index UInt64 UInt64)).OfHeight t 1 := by
  have hstart : Start (fresh { pageSize := 4 } [] id : Index UInt64 UInt64) 1 := .created (Tree.create_runs _ _ rfl)
  have hpages : 1 + pagesMade
      [.add 1, .add 2, .add 3, .add 4, .add 5, .remove 1, .remove 2, .remove 3, .remove 4, .remove 5]
      (fresh { pageSize := 4 } [] id : Index UInt64 UInt64) < 2 ^ 64 - 2 := by decide +kernel
  have hnone : (after [.add 1, .add 2, .add 3, .add 4, .add 5, .remove 1, .remove 2, .remove 3, .remove 4, .remove 5]
      (fresh { pageSize := 4 } [] id : Index UInt64 UInt64)).tree.len = 0 := by decide +kernel
  have hfive : (after [.add 1, .add 2, .add 3, .add 4, .add 5]
      (fresh { pageSize := 4 } [] id : Index UInt64 UInt64)).tree.len = 5 := by decide +kernel
  have hsize : (after [.add 1, .add 2, .add 3, .add 4, .add 5]
      (fresh { pageSize := 4 } [] id : Index UInt64 UInt64)).tree.config.pageSize = 4 := by decide +kernel
  obtain ⟨t, height, -, ht⟩ := balanced_after hstart [.add 1, .add 2, .add 3, .add 4, .add 5] (by decide +kernel)
  obtain ⟨t', height', -, ht'⟩ := balanced_after hstart _ hpages
  obtain ⟨rfl, -⟩ := ht'.collapsed hnone
  have hle : height = 1 ∨ 4 * 3 ^ (height - 2) ≤ 5 := by
    have h := ht.le_len
    rwa [hsize, hfive] at h
  have hge : 5 ≤ 4 * 5 ^ (height - 1) := by
    have h := ht.len_le
    rwa [hsize, hfive] at h
  obtain rfl : height = 2 := by
    have habove : height - 1 ≠ 0 := by
      intro h
      rw [h] at hge
      exact absurd hge (by decide)
    have hbelow : height - 2 = 0 := by
      by_contra hne
      have hthree : 3 ≤ 3 ^ (height - 2) := Nat.le_self_pow hne 3
      omega
    omega
  exact ⟨hstart, hpages, ⟨t, ht⟩, t', ht'⟩

end PagedIndex.Index
