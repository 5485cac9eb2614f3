import PagedIndex.Proofs.Subtree.Regular

/-!
# The chain of leaves

Each leaf names the next one. `Linked` says so for a run of leaves that may go on behind its end, so that a
run can be cut anywhere (`linked_append`) and a change inside it leaves the rest of the chain alone.
-/

namespace PagedIndex

variable {K I : Type}

/-- The name of the first leaf of a run, or of what comes after the run if it is empty. -/
def firstRef (next : Option PageRef) : List (PageRef × Leaf K I) → Option PageRef
  | [] => next
  | leaf :: _ => some leaf.1

/-- The name of the last leaf of a run, or of what came before the run if it is empty. -/
def lastRef (before : Option PageRef) (leaves : List (PageRef × Leaf K I)) : Option PageRef :=
  leaves.foldl (fun _ leaf => some leaf.1) before

/-- Each leaf links to the one after it, and the last one to `next`. -/
def Linked (next : Option PageRef) : List (PageRef × Leaf K I) → Prop
  | [] => True
  | leaf :: leaves => leaf.2.right = firstRef next leaves ∧ Linked next leaves

theorem firstRef_append (next : Option PageRef) (as bs : List (PageRef × Leaf K I)) :
    firstRef next (as ++ bs) = firstRef (firstRef next bs) as := by
  cases as <;> rfl

theorem lastRef_append (before : Option PageRef) (as bs : List (PageRef × Leaf K I)) :
    lastRef before (as ++ bs) = lastRef (lastRef before as) bs := List.foldl_append

theorem lastRef_eq_getLast? {leaves : List (PageRef × Leaf K I)} (before : Option PageRef)
    (h : leaves ≠ []) : lastRef before leaves = leaves.getLast?.map Prod.fst := by
  rw [← List.dropLast_append_getLast h, lastRef_append, List.getLast?_concat]
  rfl

/-- Only the names of the leaves matter. -/
theorem lastRef_congr {as bs : List (PageRef × Leaf K I)} (h : bs.map Prod.fst = as.map Prod.fst)
    (before : Option PageRef) : lastRef before bs = lastRef before as := by
  have key : ∀ leaves : List (PageRef × Leaf K I),
      lastRef before leaves = (leaves.map Prod.fst).foldl (fun _ r => some r) before :=
    fun leaves => List.foldl_map.symm
  rw [key, key, h]

theorem lastRef_mem {leaves : List (PageRef × Leaf K I)} {r : PageRef}
    (h : lastRef none leaves = some r) : r ∈ leaves.map Prod.fst := by
  cases leaves with
  | nil => exact absurd h (by simp [lastRef])
  | cons leaf leaves =>
    rw [lastRef_eq_getLast? none (by simp), Option.map_eq_some_iff] at h
    obtain ⟨last, hlast, rfl⟩ := h
    exact List.mem_map_of_mem (List.mem_of_getLast? hlast)

/-- A run is linked exactly when its first half is, towards the second one, and that one is. -/
theorem linked_append {next : Option PageRef} {as bs : List (PageRef × Leaf K I)} :
    Linked next (as ++ bs) ↔ Linked (firstRef next bs) as ∧ Linked next bs := by
  induction as with
  | nil => exact ⟨fun h => ⟨trivial, h⟩, fun h => h.2⟩
  | cons leaf as ih =>
    rw [List.cons_append, Linked, Linked, ih, firstRef_append, and_assoc]

/-- In a chain of leaves, each link names one of them or what comes after. -/
theorem right_of_linked {next : Option PageRef} {leaves : List (PageRef × Leaf K I)} (h : Linked next leaves)
    {leaf : PageRef × Leaf K I} (hleaf : leaf ∈ leaves) {r : PageRef} (hr : leaf.2.right = some r) :
    r ∈ leaves.map Prod.fst ∨ next = some r := by
  induction leaves with
  | nil => exact absurd hleaf List.not_mem_nil
  | cons first leaves ih =>
    obtain rfl | hleaf := List.mem_cons.mp hleaf
    · rw [h.1] at hr
      cases leaves with
      | nil => exact .inr hr
      | cons second leaves => exact .inl (by simp [← Option.some.inj hr])
    · exact (ih h.2 hleaf).imp_left (List.mem_cons_of_mem _)

theorem Subtree.Regular.leaves_ne_nil {pageSize d : Nat} {t : Subtree K I}
    (h : t.Regular pageSize d) : t.leaves ≠ [] := by
  induction h with
  | leaf => rw [Subtree.leaves_leaf]; simp
  | @inner d r m ks cs hl _ _ ih =>
    cases cs with
    | nil => exact absurd hl (by simp)
    | cons c cs =>
      rw [Subtree.leaves_inner, List.flatMap_cons]
      exact List.append_ne_nil_of_left_ne_nil (ih c List.mem_cons_self) _

end PagedIndex
