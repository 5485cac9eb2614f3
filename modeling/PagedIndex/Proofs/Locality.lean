import PagedIndex.Proofs.WellFormed

/-!
# Where a mutation writes

A mutation that goes through leaves every page alone that is away from the way of its key (`mutations_local`). An item
that is added makes new pages, but of those from before it changes only the ones on the way: a page that is split hands
its upper half to a page behind it, so the page in front of it need not know. An item that is replaced changes nothing
but itself and the values above it. A removal takes in, on each level, at most one page next to the way: of two pages
that are merged it is the right one that is given up, and the links in front of the left one stay right.
-/

namespace PagedIndex.Index

variable {K I : Type}

/-- From `s` to `u`, only pages on the way of the key differ and, below each page of the way, at most one page next to
the way. -/
def Confined [Ord K] (s u : Index K I) (key : K) : Prop :=
  ∃ sibling : PageRef → Option PageRef, (∀ parent, ∀ r ∈ sibling parent, s.Beside key parent r)
    ∧ ∀ r, ¬ s.OnWay key r → (∀ parent, r ∉ sibling parent) → u.pager.page? r = s.pager.page? r

variable [IndexKey K] [Codec I] [Std.TransOrd K] {s u : Index K I} {d : Nat} {t : Subtree K I}

/-- What is left over of the tree is given up at last, and it was on the way or next to it. -/
theorem Holds.remove_confined (h : Holds s d t) (hn : s.pager.next.toNat ≤ 2 ^ 64 - 2) {key : K} {item? : Option I}
    (hrun : Action.Runs (remove key) s item? u) : Confined s u key := by
  rcases h.remove_phases hn key with
    ⟨T, d', n, item, freed, v, hphase, hholds, -, -, -, -, -, -, -, sibling, hbeside, hframe⟩ |
    ⟨n, q, hrun', hread, -⟩ | ⟨_, _, q, hfail, -⟩
  · obtain ⟨_, w, hrelease, hreturn⟩ := Action.Runs.of_bind (hphase.symm.trans hrun)
    obtain ⟨-, rfl⟩ := (Action.runs_pure (some item) w).unique hreturn
    obtain ⟨q, hoffered, ⟨-, hgiven⟩ | ⟨_, _, -, -, hkept⟩⟩ := Pager.releaseAll_cases freed hholds.ready
    · obtain ⟨-, rfl⟩ := (paging_runs hgiven).unique hrelease
      refine ⟨sibling, hbeside, fun r hoff hnone => ?_⟩
      obtain ⟨hfreed, hpage⟩ := hframe r hoff hnone
      exact (hoffered.frame hfreed).trans hpage
    · exact absurd hrelease (paging_fails hkept).not_runs
  · obtain ⟨-, rfl⟩ := hrun'.unique hrun
    exact ⟨fun _ => none, fun _ _ hr => absurd hr (by simp), fun r _ _ => congrFun hread.still.page? r⟩
  · exact absurd hrun hfail.not_runs

/-- Adding changes, of the pages that were there before, only those on the way of the key; replacing changes only the
one item and the values of pages on the way; removing changes only pages on the way and, below each of them, at most one
page next to the way. -/
theorem mutations_local (hready : s.pager.Ready) (hsize : 4 ≤ s.tree.config.pageSize) (ht : s.Matches t)
    (hn : s.pager.next.toNat ≤ 2 ^ 64 - 2) :
    (∀ item u, s.pager.next.toNat + s.pagesToAdd item ≤ 2 ^ 64 - 2 → Action.Runs (add item) s () u →
      ∀ r, (s.pager.page? r).isSome → ¬ s.OnWay (s.tree.keyOf item) r → u.pager.page? r = s.pager.page? r)
    ∧ (∀ item old u, Action.Runs (replace item) s old u →
      u.tree = s.tree ∧ s.Swapped u (s.tree.keyOf item) old item)
    ∧ ∀ key item? u, Action.Runs (remove key) s item? u → s.Confined u key := by
  obtain ⟨d, h⟩ := (matches_iff_holds hready hsize).mp ht
  refine ⟨fun item u hmade hrun => ?_, fun item old u hrun => ?_, fun key item? u hrun => h.remove_confined hn hrun⟩
  · rcases h.add_cases hmade with ⟨T, d', n, v, hrun', -, -, -, -, -, -, -, -, hframe, -⟩ | ⟨e, calls, q, hfail, -⟩
    · obtain ⟨-, rfl⟩ := hrun'.unique hrun
      exact hframe
    · exact absurd hrun hfail.not_runs
  · rcases h.replace_cases hn item with
      ⟨T, n, v, present, hrun', -, htree, -, -, -, -, hswapped, -⟩ | ⟨e, calls, q, hfail, -⟩
    · obtain ⟨rfl, rfl⟩ := hrun'.unique hrun
      exact ⟨htree, hswapped⟩
    · exact absurd hrun hfail.not_runs

/-- In the two leaves an item is added on the right or replaced there, and one on the left is removed, for which the
leaves are merged. -/
theorem mutations_local_twoLeaves : overTwoLeaves.pager.Ready ∧ overTwoLeaves.Matches twoLeaves
    ∧ ((add 5).after overTwoLeaves).pager.page? ⟨0⟩ = overTwoLeaves.pager.page? ⟨0⟩
    ∧ overTwoLeaves.Swapped ((replace 3).after overTwoLeaves) 3 3 3
    ∧ overTwoLeaves.Confined ((remove 1).after overTwoLeaves) 1 := by
  have hready := ready_overTwoLeaves
  obtain ⟨hadd, hreplace, hremove⟩ := mutations_local hready (by decide) matches_twoLeaves (by decide)
  obtain ⟨d, h⟩ := (matches_iff_holds hready (by decide)).mp matches_twoLeaves
  have hpath : Action.Runs (overTwoLeaves.tree.path 5) overTwoLeaves.pager
      (⟨⟨1⟩, [2, 7, 3, 4], .leaf ⟨[(3, 3), (4, 4)], none⟩⟩,
        [⟨⟨⟨2⟩, [4, 10, 1, 4], .inner ⟨[3], [⟨0⟩, ⟨1⟩]⟩⟩, 1⟩]) _ := rfl
  have hadded : (add 5).answer overTwoLeaves = .ok () := by decide +kernel
  have hreplaced : (replace 3).answer overTwoLeaves = .ok 3 := by decide +kernel
  have hremoved : (remove 1).answer overTwoLeaves = .ok (some 1) := by decide +kernel
  refine ⟨hready, matches_twoLeaves, ?_, (hreplace 3 3 _ (Action.runs_of_answer hreplaced)).2,
    hremove 1 (some 1) _ (Action.runs_of_answer hremoved)⟩
  refine hadd 5 _ (by decide +kernel) (Action.runs_of_answer hadded) ⟨0⟩ (by decide) fun hr => ?_
  exact absurd ((h.onWay_iff_path (by decide) hpath).mp hr) (by decide)

end PagedIndex.Index
