import PagedIndex.Proofs.Atomicity
import PagedIndex.Proofs.Stocked

/-!
# Clearing behind a gate

Clearing makes two calls: the first gives up all pages, the second makes the new leaf. If the first is refused nothing
has happened. If only the second is refused the pages are gone, but the tree still has its old root and its old length,
so that nothing is found any more (`outcome_clear`, `lost_twoLeaves`).
-/

namespace PagedIndex

variable {K I : Type}

/-- A computation none of whose answers is possible fails. -/
theorem Action.Meets.exists_failure {ε σ α : Type} {x : Action ε σ α} {s : σ} (h : Meets x s fun _ _ => False) :
    ∃ e, x.answer s = .error (.failed e) := by
  obtain ⟨a, t, -, hnone⟩ | ⟨e, t, hfails⟩ := h.runs_or_fails
  · exact hnone.elim
  · exact ⟨e, hfails.answer_eq⟩

/-- Where there are no pages, none is handed out. -/
theorem Pager.exists_resolve_failure [Codec K] [Codec I] {pager : Pager K I} (h : pager.Ready)
    (hnone : ∀ r, pager.page? r = none) (ref : PageRef) :
    ∃ e, (Pager.resolve ref).answer pager = .error (.failed e) := by
  obtain ⟨store, hs⟩ := h.started
  have hheld : store.held? ref = none := by
    have hpage := hnone ref
    rw [page?, hs.backing] at hpage
    unfold Resident.held?
    split
    · exact hpage
    · rfl
  refine Action.Meets.exists_failure (meets_resolve (Q := fun _ _ => False) ?_)
  rw [hs.backing]
  refine (Resident.meets_resolve store ref).mono fun page _ hpage => ?_
  rw [hheld] at hpage
  exact absurd hpage.1 (by simp)

namespace Index

variable [IndexKey K] [Codec I] {s : Index K I} {t : Subtree K I}

/-- What may come of clearing: its answer and the index that it leaves. -/
inductive ClearOutcome (s : Index K I) : Except (Halt IndexError) Unit → Index K I → Prop
  /-- An empty leaf is all there is. -/
  | cleared {r : PageRef} {u : Index K I} :
    s.pager.gate.clear.next.1 = .granted → s.pager.gate.create.next.1 = .granted →
    u.Matches (.leaf r s.tree.measures.identity .empty) → u.Accurate →
    u.tree = { s.tree with root := r, rightmost := r, len := 0 } → (∀ n, (u.pager.page? n).isSome ↔ n = r) →
    ClearOutcome s (.ok ()) u
  /-- The pages may not be given up, and nothing has changed. -/
  | refused {reason : Nat} : s.pager.gate.clear.next.1 = .refused reason →
    ClearOutcome s (.error (.failed (.io (.callRefused .clear reason))))
      { s with pager := { s.pager with gate := { s.pager.gate with clear := s.pager.gate.clear.next.2 } } }
  /-- The pages are given up, but no new one may be made: the tree is as it was, and has no page any more. -/
  | lost {reason : Nat} {u : Index K I} : s.pager.gate.clear.next.1 = .granted →
    s.pager.gate.create.next.1 = .refused reason → u.tree = s.tree → (∀ r, u.pager.page? r = none) →
    (∀ ref, ∃ e, (Pager.resolve ref).answer u.pager = .error (.failed e)) →
    ClearOutcome s (.error (.failed (.io (.callRefused .create reason)))) u

/-- Clearing is carried through, or does nothing, or loses all pages. -/
theorem outcome_clear [Std.TransOrd K] (hready : s.pager.Ready) (hsize : 4 ≤ s.tree.config.pageSize)
    (ht : s.Matches t) : ClearOutcome s (clear.answer s) (clear.after s) := by
  obtain ⟨d, h⟩ := (matches_iff_holds hready hsize).mp ht
  cases hclear : s.pager.gate.clear.next.1 with
  | refused reason =>
    -- nothing comes of a call that does not pass
    have hpass : Action.Fails (Pager.pass .clear) s.pager (.io (.callRefused .clear reason)) _ :=
      Pager.pass_fails hclear
    have hfail : Action.Fails clear s (.io (.callRefused .clear reason)) _ :=
      h.requireWritable_runs.fails ((paging_fails (hpass.bind _)).bind _)
    rw [hfail.answer_eq, hfail.after_eq]
    exact .refused hclear
  | granted =>
    cases hcreate : s.pager.gate.create.next.1 with
    | granted =>
      obtain ⟨r, p, u, hrun, hholds, htree, -, hnone, -, hgrown, -⟩ := clear_runs h hclear hcreate
      rw [hrun.answer_eq, hrun.after_eq]
      refine .cleared hclear hcreate ((matches_iff_holds hholds.ready hholds.pageSize).mpr ⟨0, hholds⟩) ?_ htree
        fun n => ⟨fun hn => ?_, fun hn => hgrown.live n (by rw [hn]; exact List.mem_singleton_self r)⟩
      · -- an empty leaf measures nothing
        refine (accurate_iff_measured hholds.root.symm hholds.stored).mpr (Subtree.measured_leaf.mpr ?_)
        rw [htree]
        rfl
      · -- the new leaf is the only page that came after all were given up
        by_contra hne
        rw [hgrown.frame n (fun hmem => hne (List.mem_singleton.mp hmem)), hnone] at hn
        exact absurd hn (by simp)
    | refused reason =>
      -- the tree is set up anew only behind the second call
      obtain ⟨p, hrun, hp, hgate, -, hnone⟩ := Pager.clear_runs h.ready hclear
      have hfail : Action.Fails clear s (.io (.callRefused .create reason)) _ :=
        h.requireWritable_runs.fails ((paging_runs hrun).fails ((Action.runs_get _).fails
          ((paging_fails (Pager.create_fails (by rw [hgate]; exact hcreate) _ _)).bind _)))
      rw [hfail.answer_eq, hfail.after_eq]
      exact .lost hclear hcreate rfl hnone (Pager.exists_resolve_failure (hp.behind _) hnone)

/-- Two leaves behind a gate that lets no page be made. -/
def overTwoLeavesKept : Index UInt64 UInt64 :=
  { overTwoLeaves with
    pager := { overTwoLeaves.pager with gate := { Gate.wide with create := .quota 0 } } }

theorem matches_overTwoLeavesKept : overTwoLeavesKept.Matches twoLeaves :=
  have h := matches_twoLeaves
  ⟨h.root, h.stored, h.sound, h.last, h.keyed, h.len⟩

/-- The pages are given up, the new leaf may not be made. -/
theorem outcome_clear_twoLeaves : overTwoLeavesKept.pager.Ready ∧ overTwoLeavesKept.Matches twoLeaves
    ∧ ClearOutcome overTwoLeavesKept (clear.answer overTwoLeavesKept) (clear.after overTwoLeavesKept) :=
  have hready : overTwoLeavesKept.pager.Ready := ready_overTwoLeaves.behind _
  ⟨hready, matches_overTwoLeavesKept, outcome_clear hready (by decide) matches_overTwoLeavesKept⟩

/-- Clearing fails, and a key that was found before is not found any more, though the index says it has four items. -/
theorem lost_twoLeaves : overTwoLeavesKept.pager.Ready ∧ overTwoLeavesKept.Matches twoLeaves
    ∧ overTwoLeavesKept.Accurate
    ∧ clear.answer overTwoLeavesKept = .error (.failed (.io (.callRefused .create 0)))
    ∧ (overTwoLeavesKept.tree.find? 1).answer overTwoLeavesKept.pager = .ok (some 1)
    ∧ (clear.after overTwoLeavesKept).tree.len = 4
    ∧ ((clear.after overTwoLeavesKept).tree.find? 1).answer (clear.after overTwoLeavesKept).pager
      = .error (.failed (.corruption ⟨2⟩ .unknownPage)) :=
  ⟨ready_overTwoLeaves.behind _, matches_overTwoLeavesKept, accurate_overTwoLeaves, by with_unfolding_all rfl,
    by with_unfolding_all rfl, by with_unfolding_all rfl, by with_unfolding_all rfl⟩

end Index

end PagedIndex
