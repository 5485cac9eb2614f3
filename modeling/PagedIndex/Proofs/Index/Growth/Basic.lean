import PagedIndex.Index.Add
import PagedIndex.Proofs.Index.Changes
import PagedIndex.Proofs.Subtree.Measured
import PagedIndex.Proofs.Subtree.Refit

/-!
# Growth

An added item turns the subtree on its way into a row: the subtree with the item, or its two halves. `Grown`
says what is true of that row, in terms of the subtree that was there before, and it says so for every page
of the way alike: a leaf makes it true (`addToLeaf_grown`), each inner page carries it one level up
(`carryUp_step`), and at the top it speaks of the whole tree.
-/

namespace PagedIndex

variable {K I : Type}

/-- What a page that has been changed hands up: its own name, and the page that was split off it. -/
inductive Row.Carries : Row K I → PageRef → Option (Index.Split K) → Prop where
  | single (t : Subtree K I) : Carries (.single t) t.ref none
  | pair (t : Subtree K I) (key : K) (u : Subtree K I) : Carries (.pair t key u) t.ref (some ⟨key, u.ref⟩)

theorem Row.Carries.length {row : Row K I} {bottom : PageRef} {split : Option (Index.Split K)}
    (h : row.Carries bottom split) : row.trees.length = row.keys.length + 1 := by
  cases h <;> rfl

theorem Row.Carries.eq_single {row : Row K I} {bottom : PageRef} (h : row.Carries bottom none) :
    ∃ t, row = .single t ∧ t.ref = bottom := by
  cases h with
  | single t => exact ⟨t, rfl, rfl⟩

theorem Row.Carries.eq_pair {row : Row K I} {bottom : PageRef} {split : Index.Split K}
    (h : row.Carries bottom (some split)) :
    ∃ t key u, row = .pair t key u ∧ t.ref = bottom ∧ split = ⟨key, u.ref⟩ := by
  cases h with
  | pair t key u => exact ⟨t, key, u, rfl, rfl, rfl⟩

namespace Index

theorem items_insert_perm (as bs : List (K × I)) (e : K × I) :
    ((as ++ e :: bs).map Prod.snd).Perm (e.2 :: (as ++ bs).map Prod.snd) := by
  rw [← List.map_cons (f := Prod.snd)]
  exact List.perm_middle.map Prod.snd

variable [Ord K]

/-- Between `s` and `t`, what the subtree `old` holds has come to be held by a row, which holds the entry `e`
as well and fits where its key does. -/
structure Enriched (s t : Index K I) (e : K × I) (old : Subtree K I) (row : Row K I) : Prop where
  tree : t.tree = { s.tree with rightmost := t.tree.rightmost }
  entries : ∃ as bs, old.entries = as ++ bs ∧ row.entries = as ++ e :: bs
  refits : (Row.single old).Refits (some e.1) row s.tree.rightmost t.tree.rightmost

/-- Between `s` and `t`, the subtree `old` of depth `d` has become a row that holds the entry `e` as well.
Only the pages of `path` and the new pages `used` have been written on. -/
structure Grown (s t : Index K I) (e : K × I) (d : Nat) (old : Subtree K I) (path used : List PageRef)
    (row : Row K I) (split : Option (Split K)) : Prop where
  content : Enriched s t e old row
  carries : row.Carries old.ref split
  redrawn : Redrawn (path ++ used) s t
  path : path ⊆ old.refs
  stored : row.StoredIn t.pager.page?
  refs : row.refs.Perm (old.refs ++ used)
  regular : ∀ u ∈ row.trees, u.Regular s.tree.config.pageSize d
  size_le : ∀ u ∈ row.trees, u.size ≤ s.tree.config.pageSize
  size_ge : ∀ u ∈ row.trees, old.size ≤ u.size ∨ s.tree.config.pageSize / 2 ≤ u.size
  full : split ≠ none → ∀ u ∈ row.trees, u.Filled s.tree.config.pageSize
  measured : old.Measured s.tree.measures → row.Measured s.tree.measures

section

variable [Std.TransOrd K] {s t t' : Index K I} {e : K × I} {d pageSize : Nat} {old : Subtree K I}
  {row row' : Row K I} {path used : List PageRef} {split : Option (Split K)} {f : Frame K I}

/-- What is true of a row below a page is true of the page. -/
theorem Enriched.hang (h : Enriched s t e old row) (hf : f.Fits pageSize d) (hr : f.Routes e.1)
    (hne : old.leaves ≠ []) (htree : t'.tree = t.tree) (hrow : f.Surrounds row row') :
    Enriched s t' e (f.plug old) row' := by
  refine ⟨by rw [htree]; exact h.tree, ?_, ?_⟩
  · obtain ⟨as, bs, hes, hes'⟩ := h.entries
    refine ⟨f.low.flatMap Subtree.entries ++ as, bs ++ f.high.flatMap Subtree.entries, ?_, ?_⟩
    · rw [Frame.entries_plug, hes]
      simp only [List.append_assoc]
    · rw [hrow.entries, hes']
      simp only [List.append_assoc, List.cons_append]
  · rw [htree]
    refine h.refits.hang hf (fun k hk => Option.some.inj hk ▸ hr) (by simpa using hne)
      (f.surrounds_plug hf.low old) ?_ hrow
    rw [Row.refs_single, Row.refs_single]
    exact f.refs_plug old

omit [Std.TransOrd K] in
theorem Enriched.items_perm (h : Enriched s t e old row) : row.items.Perm (e.2 :: old.items) := by
  obtain ⟨as, bs, hold, hrow⟩ := h.entries
  rw [Row.items_eq, Subtree.items, hold, hrow]
  exact items_insert_perm as bs e

omit [Std.TransOrd K] in
/-- A filled subtree grows into a row that may hang in a page. -/
theorem Grown.fits (h : Grown s t e d old path used row split) (hf : old.Filled s.tree.config.pageSize) :
    row.Fits s.tree.config.pageSize d := by
  refine ⟨h.carries.length, h.regular, fun u hu => ⟨?_, h.size_le u hu⟩⟩
  have := hf.1
  rcases h.size_ge u hu with hle | hle <;> omega

omit [Std.TransOrd K] in
/-- With a row hung in it, a page has the pages of before and the new ones below it. -/
theorem Grown.refs_hang (h : Grown s t e d old path used row split) :
    (f.hang row).refs.Perm ((f.plug old).refs ++ used) :=
  (f.refs_hang row).trans <| (h.refs.append_right f.refs).trans <|
    (perm_append_right_comm old.refs used f.refs).trans ((f.refs_plug old).symm.append_right used)

omit [Std.TransOrd K] in
/-- The page and one made ahead are none of the pages below it. -/
theorem Grown.notMem_children (h : Grown s t e d old path used row split) {new : PageRef}
    (hnd : ((f.plug old).refs ++ (used ++ [new])).Nodup) : f.ref ≠ new
      ∧ ∀ c ∈ (f.hang row).children, ∀ r ∈ [f.ref, new], r ∉ c.refs := by
  rw [← List.append_assoc, ← (h.refs_hang.append_right [new]).nodup_iff] at hnd
  obtain ⟨hnd, -, hdisj⟩ := List.nodup_append.mp hnd
  refine ⟨hdisj f.ref (f.hang row).ref_mem_refs new List.mem_cons_self, fun c hc => List.forall_mem_cons.mpr
    ⟨Subtree.ref_notMem_child hnd hc, List.forall_mem_singleton.mpr fun hmem => ?_⟩⟩
  exact hdisj new (Subtree.refs_child_subset hc hmem) new List.mem_cons_self rfl

omit [Std.TransOrd K] in
theorem Grown.stored_children (h : Grown s t e d old path used row split)
    (hsides : ∀ c ∈ f.sides, c.StoredIn t.pager.page?) :
    ∀ c ∈ (f.hang row).children, c.StoredIn t.pager.page? := by
  intro c hc
  rcases List.mem_append.mp hc with hc | hc
  · exact hsides c (List.mem_append_left _ hc)
  · rcases List.mem_append.mp hc with hc | hc
    · exact h.stored c hc
    · exact hsides c (List.mem_append_right _ hc)

omit [Std.TransOrd K] in
theorem Grown.measured_children (h : Grown s t e d old path used row split)
    (hm : (f.plug old).Measured s.tree.measures) :
    ∀ c ∈ (f.hang row).children, c.Measured s.tree.measures := by
  rw [Frame.plug, Frame.measured_hang, Row.measured_single] at hm
  intro c hc
  rcases List.mem_append.mp hc with hc | hc
  · exact hm.2.1 c (List.mem_append_left _ hc)
  · rcases List.mem_append.mp hc with hc | hc
    · exact h.measured hm.2.2 c hc
    · exact hm.2.1 c (List.mem_append_right _ hc)

/-- A row is hung in the page above, which has room for it. -/
theorem Grown.hang (h : Grown s t e d old path used row split) (hf : f.Fits s.tree.config.pageSize d)
    (hr : f.Routes e.1) (hne : old.leaves ≠ []) (hold : old.Filled s.tree.config.pageSize)
    (hsize : f.size + row.keys.length ≤ s.tree.config.pageSize)
    (hsides : ∀ c ∈ f.sides, c.StoredIn t.pager.page?) (hnd : ((f.plug old).refs ++ used).Nodup)
    (hredrawn : Redrawn [f.ref] t t') (htree : t'.tree = t.tree) {m : List Int64}
    (hm : m = s.tree.measures.add f.measures (s.tree.measures.ofItem e.2))
    (hpage : t'.pager.page? f.ref = some (({ f with measures := m } : Frame K I).hang row).page) :
    Grown s t' e (d + 1) (f.plug old) (f.ref :: path) used
      (.single (({ f with measures := m } : Frame K I).hang row)) none := by
  have hf' : ({ f with measures := m } : Frame K I).Fits s.tree.config.pageSize d :=
    ⟨hf.low, hf.high, hf.regular, hf.filled⟩
  have hfits := h.fits hold
  have hnot : ∀ c ∈ (f.hang row).children, f.ref ∉ c.refs := fun c hc =>
    Subtree.ref_notMem_child (h.refs_hang.nodup_iff.mpr hnd) hc
  have hchild : ∀ c ∈ (f.hang row).children, c.StoredIn t'.pager.page? := by
    refine fun c hc => (h.stored_children hsides c hc).congr fun r hr => hredrawn.frame r fun hmem => ?_
    rw [List.mem_singleton.mp hmem] at hr
    exact hnot c hc hr
  refine {
    content := h.content.hang hf hr hne htree
      (Frame.surrounds_measures.mp (Frame.surrounds_hang hf'.low hfits.length))
    carries := .single _
    redrawn := ?_
    path := ?_
    stored := Row.storedIn_single.mpr (Subtree.storedIn_inner.mpr ⟨hpage, hchild⟩)
    refs := by
      rw [Row.refs_single, Frame.hang, Subtree.refs_inner]
      have := h.refs_hang (f := f)
      rwa [Frame.hang, Subtree.refs_inner] at this
    regular := List.forall_mem_singleton.mpr (Frame.regular_hang hf' hfits)
    size_le := List.forall_mem_singleton.mpr ?_
    size_ge := List.forall_mem_singleton.mpr (.inl ?_)
    full := fun h => absurd rfl h
    measured := fun hmeas => ?_ }
  · exact (h.redrawn.mono (List.subset_cons_self _ _)).trans (hredrawn.mono (by simp))
  · refine List.cons_subset.mpr ⟨Subtree.ref_mem_refs (f.plug old), fun r hr => ?_⟩
    exact (f.refs_plug old).symm.subset (List.mem_append_left _ (h.path hr))
  · rw [Frame.size_hang]
    exact hsize
  · rw [Frame.size_plug, Frame.size_hang]
    exact Nat.le_add_right _ _
  · rw [Frame.plug, Frame.measured_hang, Row.items_single, Row.measured_single] at hmeas
    rw [Row.measured_single, Frame.measured_hang]
    refine ⟨?_, hmeas.2.1, h.measured hmeas.2.2⟩
    show m = _
    rw [hm, hmeas.1]
    exact s.tree.measures.add_ofItem (f.itemsAround_perm_cons h.content.items_perm)

omit [Std.TransOrd K] in
/-- A change below leaves a page and what is beside the way alone. -/
theorem Grown.frame (h : Grown s t e d old path used row split)
    (hnd : ((f.plug old).refs ++ used).Nodup) {r : PageRef} (hr : r ∈ f.refs) :
    t.pager.page? r = s.pager.page? r := by
  rw [(((f.refs_plug old).append_right used).trans (perm_append_right_comm _ _ _)).nodup_iff] at hnd
  refine h.redrawn.frame r fun hmem => ?_
  refine (List.nodup_append.mp hnd).2.2 r ?_ r hr rfl
  rcases List.mem_append.mp hmem with hmem | hmem
  · exact List.mem_append_left _ (h.path hmem)
  · exact List.mem_append_right _ hmem

end

end Index

end PagedIndex
