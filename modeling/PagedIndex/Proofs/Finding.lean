import PagedIndex.Proofs.Descent

/-!
# What look-ups answer

Behind any pager that serves the pages of a tree in order, a look-up answers what the entries of the tree say
(`reads_contains`, `reads_find?`). A filter may turn a look-up away at the door; all that is asked of it is that
it does so only for keys that are absent.
-/

namespace PagedIndex

namespace Service

variable {K I : Type} [IndexKey K] [Codec I] {srv : Service K I} {tree : Tree K I} {t : Subtree K I}
  {pageSize d : Nat}

/-! ## Single items -/

section Key

variable [Std.TransOrd K] {key : K}

variable (hmight : srv.Reads (Pager.mightContain key) fun may => may = false → itemAt key t.entries = none)

include hmight

/-- What is read off the leaf of a key is read off all entries. -/
theorem reads_atLeaf {α : Type} {g : Leaf K I → α} {f : Option I → α}
    (hg : ∀ l : Leaf K I, Increasing l.keys → g l = f (itemAt key l.entries)) (hst : t.StoredIn srv.view)
    (hroot : tree.root = t.ref) (h : t.Whole pageSize d) (ha : Ascending t.walk) (hd : d < srv.limit) :
    srv.Reads (do
      if !(← Pager.mightContain key) then
        return f none
      let leaf ← Action.ofExcept (← tree.leafFor key).asLeaf
      return g leaf) (· = f (itemAt key t.entries)) := by
  refine hmight.bind fun may hmay => ?_
  cases may with
  | false =>
    rw [hmay rfl]
    exact reads_pure rfl
  | true =>
    refine (reads_leafFor hst hroot h hd).bind fun page hpage => ?_
    obtain ⟨fs, r, m, l, rfl, rfl, hway⟩ := hpage
    refine (reads_ofExcept rfl).bind_eq ?_
    refine reads_pure ?_
    rw [hway.itemAt_eq ha]
    exact hg _ (hway.increasing ha)

theorem reads_contains (hst : t.StoredIn srv.view) (hroot : tree.root = t.ref) (h : t.Whole pageSize d)
    (ha : Ascending t.walk) (hd : d < srv.limit) :
    srv.Reads (tree.contains key) (· = (itemAt key t.entries).isSome) :=
  reads_atLeaf hmight (f := Option.isSome) (fun _ hinc => Leaf.isExact_seek hinc key) hst hroot h ha hd

theorem reads_find? (hst : t.StoredIn srv.view) (hroot : tree.root = t.ref) (h : t.Whole pageSize d)
    (ha : Ascending t.walk) (hd : d < srv.limit) :
    srv.Reads (tree.find? key) (· = itemAt key t.entries) :=
  reads_atLeaf hmight (f := id) (fun _ hinc => Leaf.find?_eq_itemAt hinc key) hst hroot h ha hd

end Key

/-! ## The tree as a whole -/

theorem reads_height (hst : t.StoredIn srv.view) (hroot : tree.root = t.ref) (h : t.Regular pageSize d)
    (hd : d < srv.limit) : srv.Reads tree.height (· = d + 1) := by
  refine reads_get.bind fun pager hp => ?_
  rw [hroot]
  refine (reads_descendFirst hst h (Nat.lt_of_lt_of_le hd (srv.limit_le hp))).bind fun out hout => ?_
  exact reads_pure hout.2

theorem reads_measureValues (hst : t.StoredIn srv.view) (hroot : tree.root = t.ref) :
    srv.Reads tree.measureValues (· = t.measures) := by
  unfold Tree.measureValues
  rw [hroot]
  refine (reads_top hst).bind_eq ?_
  exact reads_pure t.measures_page

theorem reads_measure? (hst : t.StoredIn srv.view) (hroot : tree.root = t.ref) (name : String) :
    srv.Reads (tree.measure? name) (· = (tree.measures.position? name).bind (t.measures[·]?)) := by
  unfold Tree.measure?
  cases tree.measures.position? name with
  | none => exact reads_pure rfl
  | some position =>
    refine (reads_measureValues hst hroot).bind_eq ?_
    exact reads_pure rfl

end Service

end PagedIndex
