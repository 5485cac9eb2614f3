import PagedIndex.Proofs.Accuracy

/-!
# Refused calls

The gate before the pages may refuse any call. Whatever it refuses, an item that does not come in, and one that
does not give way, leaves the tree exactly as it was (`untouched_of_error`). A removal may come too late for that:
once it has begun to write it is carried through, and what is refused then is only to forget the pages that are
left over (`outcome_remove`).
-/

namespace PagedIndex.Index

variable {K I : Type}

/-- From `s` to `u` these calls were made, and the tree `t` and all that the index knows of it are as they were. -/
structure Untouched (t : Subtree K I) (calls : Calls) (s u : Index K I) : Prop where
  tree : u.tree = s.tree
  called : s.pager.Called calls u.pager
  /-- Every page of the tree is as it was. -/
  kept : ∀ r ∈ t.refs, u.pager.page? r = s.pager.page? r
  /-- Pages that were made are given up again, unless that was refused. -/
  returned : s.pager.gate.release.Grants calls.release → ∀ r, u.pager.page? r = s.pager.page? r

theorem untouched_of_spared [Ord K] {s : Index K I} {t : Subtree K I} (h : s.Spells t) {calls : Calls}
    {pager : Pager K I} (hp : s.pager.Spared calls pager) : Untouched t calls s { s with pager } :=
  ⟨rfl, hp.called, fun _ hr => hp.kept _ (h.isSome hr), hp.returned⟩

section

variable [IndexKey K] [Codec I] [Std.TransOrd K] {s : Index K I} {t : Subtree K I}

/-! ## Items that come in or give way -/

/-- When adding or replacing an item fails, nothing has changed: the key was present or absent, or a call was
refused, and the failure says which. -/
theorem untouched_of_error (hready : s.pager.Ready) (hsize : 4 ≤ s.tree.config.pageSize) (ht : s.Matches t) {item : I}
    (hn : s.pager.next.toNat + s.pagesToAdd item ≤ 2 ^ 64 - 2) :
    (∀ halt u, add item s = .error halt u → ∃ e calls, halt = .failed e ∧ Untouched t calls s u
      ∧ (e = .duplicateKey ∧ (∃ x ∈ t.entries, compare x.1 (s.tree.keyOf item) = .eq)
        ∨ s.pager.gate.Refuses calls e))
    ∧ ∀ halt u, replace item s = .error halt u → ∃ e calls, halt = .failed e ∧ Untouched t calls s u
      ∧ (e = .keyNotFound ∧ (∀ x ∈ t.entries, compare x.1 (s.tree.keyOf item) ≠ .eq)
        ∨ s.pager.gate.Refuses calls e) := by
  obtain ⟨d, h⟩ := (matches_iff_holds hready hsize).mp ht
  constructor
  · intro halt u herr
    rcases h.add_cases hn with
      ⟨_, _, _, v, hrun, -⟩ | ⟨e, calls, q, hfail, hspared, hcause⟩
    · exact absurd (hrun.symm.trans herr) (by simp)
    obtain ⟨rfl, rfl⟩ := EStateM.Result.error.inj (herr.symm.trans hfail)
    refine ⟨e, calls, rfl, untouched_of_spared h.toSpells hspared, hcause.imp_left ?_⟩
    rintro ⟨he, hsome, -⟩
    by_contra hnone
    have habs : Absent (s.tree.keyOf item) t.entries := fun x hx heq => hnone ⟨he, x, hx, heq⟩
    rw [itemAt_eq_none.mpr habs] at hsome
    exact absurd hsome (by simp)
  · intro halt u herr
    rcases h.replace_cases (by omega) item with
      ⟨_, _, v, _, hrun, -⟩ | ⟨e, calls, q, hfail, hspared, hcause⟩
    · exact absurd (hrun.symm.trans herr) (by simp)
    obtain ⟨rfl, rfl⟩ := EStateM.Result.error.inj (herr.symm.trans hfail)
    refine ⟨e, calls, rfl, untouched_of_spared h.toSpells hspared, hcause.imp_left ?_⟩
    rintro ⟨he, habs, -⟩
    exact ⟨he, itemAt_eq_none.mp habs⟩

end

/-- A full leaf. -/
def fullLeaf : Subtree UInt64 UInt64 := .leaf ⟨0⟩ [] ⟨[(1, 1), (2, 2), (3, 3), (4, 4)], none⟩

/-- An index over it, behind a gate that lets only one more page be made. -/
def overFullLeaf : Index UInt64 UInt64 where
  tree := { config := { pageSize := 4 }, measures := [], keyOf := id, root := ⟨0⟩, rightmost := ⟨0⟩, len := 4 }
  pager := { Pager.ofNodes [(.leaf ⟨[(1, 1), (2, 2), (3, 3), (4, 4)], none⟩, [])] ⟨4, false, ⟨0⟩, ⟨0⟩, 4, 0⟩ with
    gate := { Gate.wide with create := .quota 1 } }

theorem matches_overFullLeaf : overFullLeaf.Matches fullLeaf := by
  have hentries : fullLeaf.entries = [(1, 1), (2, 2), (3, 3), (4, 4)] := by
    rw [fullLeaf, Subtree.entries_leaf]
  refine ⟨rfl, ?_, ?_, ?_, ?_, ?_⟩
  · exact Subtree.storedIn_leaf.mpr (by decide)
  · refine (Subtree.sound_iff (by decide)).mpr ⟨⟨0, .leaf, by decide, by decide⟩, ?_, ?_, ?_⟩
    · simp only [fullLeaf, Subtree.walk_leaf, List.map_cons, List.map_nil, Ascending]
      simp [Stop.Before]
      decide
    · simp [fullLeaf, Subtree.refs_leaf]
    · simp [fullLeaf, Subtree.leaves_leaf, Linked, firstRef]
  · simp [fullLeaf, Subtree.leaves_leaf]
    rfl
  · rw [hentries]
    simp only [List.forall_mem_cons]
    exact ⟨rfl, rfl, rfl, rfl, fun _ h => absurd h List.not_mem_nil⟩
  · rw [hentries]
    rfl

/-- The leaf would have to be split below a new root, but only one of the two pages can be made. -/
theorem untouched_fullLeaf : overFullLeaf.pager.Ready ∧ overFullLeaf.Matches fullLeaf ∧ ∃ calls u,
    add 5 overFullLeaf = .error (.failed (.io (.callRefused .create 0))) u
      ∧ Untouched fullLeaf calls overFullLeaf u := by
  have hready : overFullLeaf.pager.Ready := (Pager.ready_ofNodes (by decide) _).1.behind _
  have herr : add 5 overFullLeaf = .error (.failed (.io (.callRefused .create 0)))
      ((add 5).after overFullLeaf) := by rfl
  obtain ⟨-, calls, -, hsame, -⟩ := (untouched_of_error hready (by decide) matches_overFullLeaf
    (show overFullLeaf.pager.next.toNat + overFullLeaf.pagesToAdd 5 ≤ 2 ^ 64 - 2 by decide +kernel)).1 _ _ herr
  exact ⟨hready, matches_overFullLeaf, calls, _, herr, hsame⟩

section

variable [IndexKey K] [Codec I] [Std.TransOrd K] {s : Index K I} {t : Subtree K I}

/-! ## Removals -/

/-- From `s` to `u` the item under `key` has left, the pages `freed` of the tree are left over and were offered for
release in this order, and the tree is `T` now. -/
structure Removed (s u : Index K I) (t T : Subtree K I) (key : K) (item : I) (freed : List PageRef) : Prop where
  shape : u.Matches T
  accurate : u.Accurate
  entries : ∃ as e bs, t.entries = as ++ e :: bs ∧ compare e.1 key = .eq ∧ e.2 = item ∧ T.entries = as ++ bs
  len : u.tree.len + 1 = s.tree.len
  /-- Nothing else about the index is different. -/
  tree : u.tree = { s.tree with root := u.tree.root, rightmost := u.tree.rightmost, len := u.tree.len }
  /-- Every page of the tree is a page of the tree now or is left over. -/
  refs : (T.refs ++ freed).Perm t.refs
  called : ∃ n, s.pager.gate.resolve.Grants n ∧ s.pager.Called ⟨n, 0, freed.length⟩ u.pager
  /-- A page is gone if it is left over and the call to release it went through. -/
  pages : ∀ r, (u.pager.page? r).isSome ↔ (s.pager.page? r).isSome
    ∧ (r, .granted) ∉ freed.zip (s.pager.gate.release.answers freed.length)

/-- What may come of the removal of a key: its answer and the index that it leaves. -/
inductive RemoveOutcome (s : Index K I) (t : Subtree K I) (key : K) : Answer I → Index K I → Prop
  /-- A page could not be looked at. -/
  | refused {n reason : Nat} {u : Index K I} : s.pager.gate.resolve.Bars n reason →
    Untouched t ⟨n + 1, 0, 0⟩ s u →
    RemoveOutcome s t key (.error (.failed (.io (.callRefused .resolve reason)))) u
  | absent {n : Nat} {u : Index K I} : s.pager.gate.resolve.Grants n → Absent key t.entries →
    Untouched t ⟨n, 0, 0⟩ s u → RemoveOutcome s t key (.ok none) u
  | removed {T : Subtree K I} {item : I} {freed : List PageRef} {u : Index K I} :
    Removed s u t T key item freed → s.pager.gate.release.Grants freed.length →
    RemoveOutcome s t key (.ok (some item)) u
  /-- The item is gone, but not every page that is left over. The failure is the first refusal: the pages before
  `freed[i]` were given up, and this one was not. -/
  | unreleased {T : Subtree K I} {item : I} {freed : List PageRef} {u : Index K I} {i reason : Nat} :
    Removed s u t T key item freed → i < freed.length → s.pager.gate.release.Bars i reason →
    RemoveOutcome s t key (.error (.failed (.io (.callRefused .release reason)))) u

/-- A removal is carried through or does nothing. -/
theorem outcome_remove (hready : s.pager.Ready) (hsize : 4 ≤ s.tree.config.pageSize) (ht : s.Matches t)
    (ha : s.Accurate) (hn : s.pager.next.toNat ≤ 2 ^ 64 - 2) (key : K) :
    RemoveOutcome s t key ((remove key).answer s) ((remove key).after s) := by
  obtain ⟨d, h⟩ := (matches_iff_holds hready hsize).mp ht
  have hm := (accurate_iff_measured h.root.symm h.stored).mp ha
  rcases h.remove_cases hn key with
    ⟨T, d', n, item, freed, u, hholds, htree, hcalled, hgrants, hperm, hpages, hentries, hmeas, hanswer⟩ |
    ⟨n, q, hrun, hread, habs⟩ | ⟨n, reason, q, hfail, hbarred⟩
  · have hremoved : Removed s u t T key item freed := by
      refine ⟨(matches_iff_holds hholds.ready hholds.pageSize).mpr ⟨d', hholds⟩, ?_, hentries, ?_, htree, hperm,
        ⟨n, hgrants, hcalled⟩, hpages⟩
      · refine (accurate_iff_measured hholds.root.symm hholds.stored).mpr ?_
        rw [htree]
        exact hmeas hm
      · obtain ⟨as, e, bs, hes, -, -, hes'⟩ := hentries
        rw [hholds.len, h.len, hes, hes']
        simp only [List.length_append, List.length_cons]
        omega
    rcases hanswer with ⟨hg, hrun⟩ | ⟨i, reason, hi, hbars, hfail⟩
    · rw [hrun.answer_eq, hrun.after_eq]
      exact .removed hremoved hg
    · rw [hfail.answer_eq, hfail.after_eq]
      exact .unreleased hremoved hi hbars
  · rw [hrun.answer_eq, hrun.after_eq]
    exact .absent hread.grants (itemAt_eq_none.mp habs) (untouched_of_spared h.toSpells (hread.spared h.ready))
  · rw [hfail.answer_eq, hfail.after_eq]
    exact .refused hbarred.bars (untouched_of_spared h.toSpells (hbarred.spared h.ready))

end

/-- Two leaves behind a gate that lets no page be given up, the first one for another reason than those after it. -/
def overTwoLeavesHeld : Index UInt64 UInt64 :=
  { overTwoLeaves with
    pager := { overTwoLeaves.pager with gate := { Gate.wide with release := ⟨[(1, .refused 7)], .refused 8⟩ } } }

/-- The leaves are merged and the root gives way, but neither of the two pages left over is given up; the failure is the
refusal of the first one. -/
theorem outcome_remove_twoLeaves : overTwoLeavesHeld.pager.Ready ∧ overTwoLeavesHeld.Matches twoLeaves
    ∧ overTwoLeavesHeld.Accurate
    ∧ (remove 1).answer overTwoLeavesHeld = .error (.failed (.io (.callRefused .release 7)))
    ∧ RemoveOutcome overTwoLeavesHeld twoLeaves 1 ((remove 1).answer overTwoLeavesHeld)
      ((remove 1).after overTwoLeavesHeld)
    ∧ ((remove 1).after overTwoLeavesHeld).tree.measureValues.answer ((remove 1).after overTwoLeavesHeld).pager
      = .ok [3, 9, 2, 4] := by
  have hready : overTwoLeavesHeld.pager.Ready := ready_overTwoLeaves.behind _
  have h := matches_twoLeaves
  have hmatches : overTwoLeavesHeld.Matches twoLeaves := ⟨h.root, h.stored, h.sound, h.last, h.keyed, h.len⟩
  exact ⟨hready, hmatches, accurate_overTwoLeaves, by decide +kernel,
    outcome_remove hready (by decide) hmatches accurate_overTwoLeaves (by decide) 1, by decide +kernel⟩

end PagedIndex.Index
