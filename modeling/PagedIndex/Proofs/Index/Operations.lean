import PagedIndex.Proofs.Index.Adding
import PagedIndex.Proofs.Index.Founding
import PagedIndex.Proofs.Index.Removing
import PagedIndex.Proofs.Index.Replacing

/-!
# Runs of operations

A run tries one operation after the other, whatever became of those before. `Effect` says what an operation
answers and what it makes of the entries, looking at nothing but the entries; a step of an index has this
effect on the entries of its tree (`Holds.perform`), and the index holds a tree all along a run (`Holds.run`).
That the names of new pages do not run out is a condition on the number of pages made on the way.
-/

namespace PagedIndex.Index

variable {K I : Type}

/-- An operation that changes an index. -/
inductive Op (K I : Type) where
  | add (item : I)
  | replace (item : I)
  | remove (key : K)
  | clear

/-- What an operation answers: the item that it hands back, if any, or why it went no further. -/
abbrev Answer (I : Type) := Except (Halt IndexError) (Option I)

/-- What an operation answers when the index has the entries `es`, and the entries that it leaves. -/
inductive Effect [Ord K] (keyOf : I → K) : Op K I → List (K × I) → Answer I → List (K × I) → Prop
  | added {item : I} {as bs : List (K × I)} (habs : itemAt (keyOf item) (as ++ bs) = none) :
    Effect keyOf (.add item) (as ++ bs) (.ok none) (as ++ (keyOf item, item) :: bs)
  | duplicate {item present : I} {es : List (K × I)} (hitem : itemAt (keyOf item) es = some present) :
    Effect keyOf (.add item) es (.error (.failed .duplicateKey)) es
  | replaced {item : I} {e : K × I} {as bs : List (K × I)} (heq : compare e.1 (keyOf item) = .eq) :
    Effect keyOf (.replace item) (as ++ e :: bs) (.ok (some e.2)) (as ++ (e.1, item) :: bs)
  | unknown {item : I} {es : List (K × I)} (habs : itemAt (keyOf item) es = none) :
    Effect keyOf (.replace item) es (.error (.failed .keyNotFound)) es
  | removed {key : K} {e : K × I} {as bs : List (K × I)} (heq : compare e.1 key = .eq) :
    Effect keyOf (.remove key) (as ++ e :: bs) (.ok (some e.2)) (as ++ bs)
  | absent {key : K} {es : List (K × I)} (habs : itemAt key es = none) :
    Effect keyOf (.remove key) es (.ok none) es
  | cleared {es : List (K × I)} : Effect keyOf .clear es (.ok none) []

section Run

variable [IndexKey K] [Codec I]

namespace Op

/-- Does the operation. -/
def perform : Op K I → Updating K I (Option I)
  | add item => do
    Index.add item
    return none
  | replace item => do
    return some (← Index.replace item)
  | remove key => Index.remove key
  | clear => do
    Index.clear
    return none

/-- How many pages the operation makes. -/
def pagesMade (s : Index K I) : Op K I → Nat
  | add item => s.pagesToAdd item
  | replace _ | remove _ => 0
  | clear => 1

end Op

/-- The index after a run. -/
def after : List (Op K I) → Index K I → Index K I
  | [], s => s
  | op :: ops, s => after ops (op.perform.after s)

/-- What the operations of a run answer. -/
def answers : List (Op K I) → Index K I → List (Answer I)
  | [], _ => []
  | op :: ops, s => op.perform.answer s :: answers ops (op.perform.after s)

/-- How many pages are made in a run. -/
def pagesMade : List (Op K I) → Index K I → Nat
  | [], _ => 0
  | op :: ops, s => op.pagesMade s + pagesMade ops (op.perform.after s)

theorem pagesMade_append (xs ys : List (Op K I)) (s : Index K I) :
    pagesMade (xs ++ ys) s = pagesMade xs s + pagesMade ys (after xs s) := by
  induction xs generalizing s with
  | nil => exact (Nat.zero_add _).symm
  | cons op xs ih =>
    rw [List.cons_append, pagesMade, ih, pagesMade, after]
    omega

variable [Std.TransOrd K] {s : Index K I} {d : Nat} {t : Subtree K I}

/-- What an operation does to an index that holds a tree. -/
theorem Holds.perform (h : Holds s d t) (hg : s.pager.gate = .wide) (op : Op K I)
    (hn : s.pager.next.toNat + op.pagesMade s ≤ 2 ^ 64 - 2) : ∃ d' T,
      Holds (op.perform.after s) d' T ∧ Alike s (op.perform.after s)
        ∧ (op.perform.after s).pager.next.toNat ≤ s.pager.next.toNat + op.pagesMade s
        ∧ Effect s.tree.keyOf op t.entries (op.perform.answer s) T.entries
        ∧ (t.Measured s.tree.measures → T.Measured s.tree.measures) := by
  have hn' : s.pager.next.toNat ≤ 2 ^ 64 - 2 := by omega
  cases op with
  | add item =>
    rcases h.add_cases hn with
      ⟨T, d', n, u, hrun, hholds, htree, hcalled, -, hgrants, habs, ⟨as, bs, hes, hes'⟩, hmeas, -⟩ |
      ⟨e, _, q, hfail, hspared, ⟨rfl, hsome, k, rfl, -⟩ | hrefuses⟩
    · have hperform : Action.Runs (Op.perform (.add item)) s none u := hrun.bind (Action.runs_pure _ u)
      refine ⟨d', T, ?_⟩
      rw [hperform.after_eq, hperform.answer_eq, hes, hes']
      rw [hes] at habs
      refine ⟨hholds, alike_of_called hcalled hg htree, Nat.le_of_eq ?_, .added habs, hmeas⟩
      rw [hcalled.next, hgrants.count]
      rfl
    · obtain ⟨present, hitem⟩ := Option.isSome_iff_exists.mp hsome
      have hperform := hfail.bind fun _ => pure (none : Option I)
      refine ⟨d, t, ?_⟩
      rw [Op.perform, hperform.after_eq, hperform.answer_eq]
      refine ⟨h.spared hspared, alike_of_called hspared.called hg rfl, ?_, .duplicate hitem, id⟩
      exact Nat.le_trans (Nat.le_of_eq hspared.called.next) (Nat.add_le_add_left (Nat.zero_le _) _)
    · rw [hg] at hrefuses
      exact absurd hrefuses Gate.not_refuses_wide
  | replace item =>
    rcases h.replace_cases hn' item with
      ⟨T, n, u, present, hrun, hholds, htree, hcalled, -, ⟨as, e, bs, hes, heq, rfl, hes'⟩, hmeas, -⟩ |
      ⟨e, _, q, hfail, hspared, ⟨rfl, hitem, k, rfl, -⟩ | hrefuses⟩
    · have hperform : Action.Runs (Op.perform (.replace item)) s (some e.2) u :=
        hrun.bind (Action.runs_pure _ u)
      refine ⟨d, T, ?_⟩
      rw [hperform.after_eq, hperform.answer_eq, hes, hes']
      exact ⟨hholds, alike_of_called hcalled hg (by rw [htree]), Nat.le_of_eq hcalled.next, .replaced heq, hmeas⟩
    · have hperform := hfail.bind fun old => pure (some old)
      refine ⟨d, t, ?_⟩
      rw [Op.perform, hperform.after_eq, hperform.answer_eq]
      exact ⟨h.spared hspared, alike_of_called hspared.called hg rfl, Nat.le_of_eq hspared.called.next,
        .unknown hitem, id⟩
    · rw [hg] at hrefuses
      exact absurd hrefuses Gate.not_refuses_wide
  | remove key =>
    rcases h.remove_cases hn' key with
      ⟨T, d', n, item, freed, u, hholds, htree, hcalled, -, -, -, ⟨as, e, bs, hes, heq, rfl, hes'⟩, hmeas,
        ⟨-, hrun⟩ | ⟨_, _, -, hbars, -⟩⟩ | ⟨n, q, hrun, hread, habs⟩ | ⟨_, _, q, -, hbarred⟩
    · refine ⟨d', T, ?_⟩
      rw [Op.perform, hrun.after_eq, hrun.answer_eq, hes, hes']
      exact ⟨hholds, alike_of_called hcalled hg htree, Nat.le_of_eq hcalled.next, .removed heq, hmeas⟩
    · rw [hg] at hbars
      exact absurd hbars (Schedule.not_bars_always _ _)
    · refine ⟨d, t, ?_⟩
      rw [Op.perform, hrun.after_eq, hrun.answer_eq]
      exact ⟨h.still hread.still, alike_of_called hread.called hg rfl, Nat.le_of_eq hread.called.next, .absent habs,
        id⟩
    · exact absurd (by rw [hg]; rfl) hbarred.not_always
  | clear =>
    obtain ⟨r, p, u, hrun, hholds, htree, -, -, -, -, hnext, hgate⟩ := clear_runs h (by rw [hg]; rfl) (by rw [hg]; rfl)
    have hsame : Alike s u := ⟨by rw [hgate, hg]; rfl, by rw [htree], by rw [htree], by rw [htree]⟩
    have hperform : Action.Runs (Op.perform .clear) s none u := hrun.bind (Action.runs_pure _ u)
    refine ⟨0, .leaf r s.tree.measures.identity .empty, ?_⟩
    rw [hperform.after_eq, hperform.answer_eq, hnext]
    refine ⟨hholds, hsame, Nat.le_add_left _ _, ?_, fun _ => Subtree.measured_leaf.mpr rfl⟩
    rw [Subtree.entries_leaf]
    exact .cleared

/-- What a run does to an index that holds a tree. -/
theorem Holds.run (h : Holds s d t) (hg : s.pager.gate = .wide) (ops : List (Op K I))
    (hn : s.pager.next.toNat + pagesMade ops s ≤ 2 ^ 64 - 2) : ∃ d' T, Holds (after ops s) d' T
      ∧ Alike s (after ops s) ∧ (after ops s).pager.next.toNat ≤ s.pager.next.toNat + pagesMade ops s
      ∧ (t.Measured s.tree.measures → T.Measured s.tree.measures) := by
  induction ops generalizing s d t with
  | nil => exact ⟨d, t, h, .refl s, Nat.le_add_right _ _, id⟩
  | cons op ops ih =>
    rw [pagesMade] at hn
    obtain ⟨d₁, T₁, h₁, hsame₁, hnext, -, hmeas₁⟩ := h.perform hg op (by omega)
    obtain ⟨d', T, hT, hsame, hlast, hmeas⟩ := ih h₁ (by rw [hsame₁.gate, hg]) (by omega)
    rw [hsame₁.measures] at hmeas
    refine ⟨d', T, hT, hsame₁.trans hsame, ?_, fun hm => hmeas (hmeas₁ hm)⟩
    rw [after, pagesMade]
    omega

end Run

end PagedIndex.Index
