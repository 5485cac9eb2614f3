import PagedIndex.Index.Add
import PagedIndex.Index.Remove
import PagedIndex.Index.Replace
import PagedIndex.Proofs.Reading

/-!
# What is pinned ahead

Each mutation first pins the pages it may look at later. What is pinned then is said here for each of them, in
terms of the steps of the way down alone.
-/

namespace PagedIndex.Index

variable {K I : Type} [IndexKey K] [Codec I]

variable {srv : Service K I}

/-- Pinning pages that the pager serves under their own names. -/
theorem reads_pin {refs : List PageRef} (pins : Pins)
    (h : ∀ r ∈ refs, ∃ page, srv.view r = some page ∧ page.ref = r) :
    srv.Reads (pin refs pins) fun pins' => pins ⊆ pins' ∧ refs ⊆ pins' := by
  induction refs generalizing pins with
  | nil => exact Service.reads_pure ⟨List.Subset.refl _, List.nil_subset _⟩
  | cons r refs ih =>
    have hrest := fun r' hr' => h r' (List.mem_cons_of_mem r hr')
    rw [pin]
    split
    · rename_i hmem
      exact (ih _ hrest).mono fun pins' hp => ⟨hp.1, List.cons_subset.mpr ⟨hp.1 hmem, hp.2⟩⟩
    · obtain ⟨page, hview, hname⟩ := h r List.mem_cons_self
      refine (Service.reads_resolve hview).bind fun page' hpage => ?_
      subst hpage
      rw [hname]
      refine (ih _ hrest).mono fun pins' hp => ⟨fun x hx => hp.1 (List.mem_cons_of_mem r hx), ?_⟩
      exact List.cons_subset.mpr ⟨hp.1 List.mem_cons_self, hp.2⟩

theorem reads_pinForAdd (steps : List (Tree.Step K I)) (pins : Pins)
    (h : ∀ step ∈ steps, ∀ r ∈ step.page.children, ∃ page, srv.view r = some page ∧ page.ref = r) :
    srv.Reads (pinForAdd steps pins) fun pins' =>
      pins ⊆ pins' ∧ ∀ step ∈ steps, ∀ r ∈ step.page.children, r ∈ pins' := by
  induction steps generalizing pins with
  | nil => exact Service.reads_pure ⟨List.Subset.refl _, by simp⟩
  | cons step steps ih =>
    rw [pinForAdd]
    refine (reads_pin _ (h step List.mem_cons_self)).bind fun pins₁ hp => ?_
    refine (ih _ fun st hst => h st (List.mem_cons_of_mem step hst)).mono fun pins₂ hp' => ?_
    refine ⟨fun x hx => hp'.1 (hp.1 hx), List.forall_mem_cons.mpr ⟨fun r hr => hp'.1 (hp.2 hr), hp'.2⟩⟩

theorem reads_pinForReplace (measures : MeasureSet I) (old : List Int64) (steps : List (Tree.Step K I))
    (pins : Pins) (h : ∀ step ∈ steps, ∀ r ∈ step.page.children, ∃ page, srv.view r = some page ∧ page.ref = r) :
    srv.Reads (pinForReplace measures old steps pins) fun pins' => pins ⊆ pins' ∧
      ∀ step ∈ steps, (measures.subtract step.page.measures old).1 = false →
        ∀ r ∈ step.page.children, r ∈ pins' := by
  induction steps generalizing pins with
  | nil => exact Service.reads_pure ⟨List.Subset.refl _, by simp⟩
  | cons step steps ih =>
    have hrest := fun st hst => h st (List.mem_cons_of_mem step hst)
    rw [pinForReplace]
    split
    · rename_i hexact
      refine (ih _ hrest).mono fun pins' hp => ⟨hp.1, List.forall_mem_cons.mpr ⟨fun hin => ?_, hp.2⟩⟩
      rw [hexact] at hin
      exact absurd hin (by simp)
    · refine (reads_pin _ (h step List.mem_cons_self)).bind fun pins₁ hp => ?_
      refine (ih _ hrest).mono fun pins₂ hp' => ⟨fun x hx => hp'.1 (hp.1 hx), ?_⟩
      exact List.forall_mem_cons.mpr ⟨fun _ r hr => hp'.1 (hp.2 hr), hp'.2⟩

end PagedIndex.Index
