import PagedIndex.Proofs.Descent
import PagedIndex.Proofs.Index.Changes
import PagedIndex.Proofs.Subtree.Refit

/-!
# An index and its tree

`Spells` ties an index to the tree that its pages spell out, which is in order and chained, and `Holds` says
in addition that the tree is in shape and that the index knows the number of its entries. Reading leaves this
as it is, and with it every walk to a leaf can be followed; a change at the end of a spine keeps what it
keeps there (`Spells.replug`).
-/

namespace PagedIndex.Index

variable {K I : Type}

section

variable [Ord K]

/-- The pages of the index spell out the tree `t`, in order and chained. -/
structure Spells (s : Index K I) (t : Subtree K I) : Prop where
  ready : s.pager.Ready
  pageSize : 4 ≤ s.tree.config.pageSize
  root : s.tree.root = t.ref
  stored : t.StoredIn s.pager.page?
  nodup : t.refs.Nodup
  ascending : Ascending t.walk
  linked : Linked none t.leaves
  last : lastRef none t.leaves = some s.tree.rightmost
  keyed : ∀ e ∈ t.entries, compare (s.tree.keyOf e.2) e.1 = .eq

/-- The pages of the index spell out the tree `t` of depth `d`, which is as it should be. -/
structure Holds (s : Index K I) (d : Nat) (t : Subtree K I) : Prop extends Spells s t where
  whole : t.Whole s.tree.config.pageSize d
  len : s.tree.len = t.entries.length

variable {s u : Index K I} {d : Nat} {t t' : Subtree K I}

/-- Every page of the tree is there, under its own name. -/
theorem Spells.exists_page (h : Spells s t) {r : PageRef} (hr : r ∈ t.refs) :
    ∃ page, s.pager.page? r = some page ∧ page.ref = r := by
  obtain ⟨u, hu, rfl⟩ := List.mem_map.mp hr
  exact ⟨u.page, h.stored u hu, u.ref_page⟩

theorem Spells.isSome (h : Spells s t) {r : PageRef} (hr : r ∈ t.refs) : (s.pager.page? r).isSome := by
  obtain ⟨page, hpage, -⟩ := h.exists_page hr
  rw [hpage]
  rfl

theorem Spells.requireWritable_runs (h : Spells s t) : Action.Runs requireWritable s () s := by
  unfold requireWritable
  refine (Action.runs_get s).bind ?_
  rw [h.ready.isWritable]
  exact Action.runs_pure () s

/-- The tree is less deep than there are pages. -/
theorem Holds.depth_lt (h : Holds s d t) : d < s.pager.pageCount + 2 := by
  obtain ⟨store, hs⟩ := h.ready.started
  have hlen := Table.length_le_size (t := store.pages) h.nodup fun r hr => by
    have := h.isSome hr
    rwa [Pager.page?, hs.backing] at this
  have := h.whole.regular.depth_lt
  rw [Pager.pageCount, hs.backing]
  dsimp only
  omega

/-- The subtree at the end of a spine is stored and has no page twice. -/
theorem Spells.below {fs : List (Frame K I)} (h : Spells s (plugAll fs t)) :
    t.StoredIn s.pager.page? ∧ t.refs.Nodup :=
  ⟨(Spine.storedIn_plugAll.mp h.stored).1,
    (List.nodup_append.mp ((Spine.refs_plugAll fs t).nodup_iff.mp h.nodup)).1⟩

theorem Spells.keyed_below {fs : List (Frame K I)} (h : Spells s (plugAll fs t)) :
    ∀ e ∈ t.entries, compare (s.tree.keyOf e.2) e.1 = .eq := by
  intro e he
  refine h.keyed e ?_
  rw [Spine.entries_plugAll]
  exact List.mem_append_left _ (List.mem_append_right _ he)

/-- The children of a page are held, and the page is none of them. -/
theorem Spells.child {fs : List (Frame K I)} (h : Spells s (plugAll fs t)) {x : Subtree K I}
    (hx : x ∈ t.children) : s.pager.page? x.ref = some x.page ∧ t.ref ≠ x.ref := by
  obtain ⟨hst, hnd⟩ := h.below
  refine ⟨?_, fun heq => Subtree.ref_notMem_child hnd hx (heq ▸ x.ref_mem_refs)⟩
  cases t with
  | leaf => exact absurd hx List.not_mem_nil
  | inner r m ks cs => exact (hst.child hx).top

/-! ## Other pages -/

/-- Another pager with the same pages of the tree holds it as well. -/
theorem Holds.withPager (h : Holds s d t) {pager : Pager K I} (hr : pager.Ready)
    (hp : ∀ r ∈ t.refs, pager.page? r = s.pager.page? r) : Holds { s with pager } d t :=
  { h with ready := hr, stored := h.stored.congr hp }

/-- New pages are no pages of the tree. -/
theorem Spells.not_mem_news (h : Spells s t) {news : List PageRef} {pager : Pager K I}
    (hp : s.pager.Grown news pager) {r : PageRef} (hr : r ∈ t.refs) : r ∉ news := by
  intro hmem
  have := h.isSome hr
  rw [hp.fresh r hmem] at this
  exact absurd this (by simp)

theorem Holds.grown (h : Holds s d t) {news : List PageRef} {pager : Pager K I}
    (hp : s.pager.Grown news pager) : Holds { s with pager } d t :=
  h.withPager hp.ready fun r hr => hp.frame r (h.not_mem_news hp hr)

theorem Holds.spared (h : Holds s d t) {calls : Calls} {pager : Pager K I}
    (hp : s.pager.Spared calls pager) : Holds { s with pager } d t :=
  h.withPager hp.ready fun _ hr => hp.kept _ (h.isSome hr)

theorem Holds.still (h : Holds s d t) {pager : Pager K I} (hp : s.pager.Still pager) :
    Holds { s with pager } d t :=
  h.withPager (hp.ready h.ready) fun r _ => by rw [hp.page?]

/-! ## Another tree -/

variable {key : Option K}

/-- A tree that refits is spelled out as soon as it is stored. -/
theorem Spells.refit (h : Spells s t)
    (hr : (Row.single t).Refits key (.single t') s.tree.rightmost u.tree.rightmost)
    (hready : u.pager.Ready) (hsize : u.tree.config = s.tree.config) (hroot : u.tree.root = t'.ref)
    (hstored : t'.StoredIn u.pager.page?) (hnodup : t'.refs.Nodup)
    (hkeyed : ∀ e ∈ t'.entries, compare (u.tree.keyOf e.2) e.1 = .eq) : Spells u t' := by
  refine ⟨hready, by rw [hsize]; exact h.pageSize, hroot, hstored, hnodup, ?_, ?_, ?_, hkeyed⟩
  · have := hr.ascending [] [] (by simp) (by simp)
    simp only [List.nil_append, List.append_nil, Row.walk_single] at this
    exact this h.ascending
  · have := hr.linked none
    rw [Row.leaves_single, Row.leaves_single] at this
    exact this h.linked
  · have := hr.last []
    simp only [List.map_nil, List.append_nil, Row.leaves_single, Row.refs_single] at this
    exact this h.linked h.nodup h.last

variable [Std.TransOrd K]

/-- At the end of a spine, a subtree that refits takes the place of another. -/
theorem Spells.replug {pageSize : Nat} {fs : List (Frame K I)} {c c' : Subtree K I}
    (h : Spells s (plugAll fs c)) (hfs : Spine.Fits pageSize d fs) (hne : c.leaves ≠ [])
    (hr : (Row.single c).Refits none (.single c') s.tree.rightmost u.tree.rightmost)
    {rs : List PageRef} (hredrawn : Redrawn rs s u) (hrs : rs ⊆ c.refs)
    (hroot : u.tree.root = s.tree.root) (href : c'.ref = c.ref) (hstored : c'.StoredIn u.pager.page?)
    (freed : List PageRef) (hrefs : (c'.refs ++ freed).Perm c.refs)
    (hkeyed : ∀ e ∈ c'.entries, compare (s.tree.keyOf e.2) e.1 = .eq) : Spells u (plugAll fs c') := by
  obtain ⟨-, hspine⟩ := Spine.storedIn_plugAll.mp h.stored
  have hnd := (Spine.refs_plugAll fs c).nodup_iff.mp h.nodup
  refine h.refit (hr.plugAll hfs (by simp) hne) (hredrawn.ready h.ready) hredrawn.config ?_ ?_ ?_ ?_
  · rw [hroot, h.root, Spine.ref_plugAll, Spine.ref_plugAll, href]
  · refine Spine.storedIn_plugAll.mpr ⟨hstored, ?_⟩
    rw [href]
    refine hspine.congr fun r hr => hredrawn.frame r fun hmem => ?_
    exact (List.nodup_append.mp hnd).2.2 r (hrs hmem) r hr rfl
  · refine (Spine.refs_plugAll fs c').nodup_iff.mpr (List.Nodup.sublist ?_
      ((hrefs.append_right _).nodup_iff.mpr hnd))
    exact (List.sublist_append_left _ _).append (List.Sublist.refl _)
  · intro e he
    rw [hredrawn.keyOf]
    have hold := h.keyed
    rw [Spine.entries_plugAll] at he hold
    rcases List.mem_append.mp he with he | he
    · rcases List.mem_append.mp he with he | he
      · exact hold e (List.mem_append_left _ (List.mem_append_left _ he))
      · exact hkeyed e he
    · exact hold e (List.mem_append_right _ he)

/-- A page may carry other values. -/
theorem Spells.remeasure {pageSize : Nat} {fs : List (Frame K I)} {r : PageRef} {m m' : List Int64}
    {ks : List K} {cs : List (Subtree K I)} (h : Spells s (plugAll fs (.inner r m ks cs)))
    (hfs : Spine.Fits pageSize d fs) (hne : (Subtree.inner r m ks cs).leaves ≠ [])
    (hredrawn : Redrawn [r] s u) (htree : u.tree = s.tree)
    (hpage : u.pager.page? r = some (Subtree.inner r m' ks cs).page) :
    Spells u (plugAll fs (.inner r m' ks cs)) := by
  obtain ⟨hst, hnd⟩ := h.below
  refine h.replug hfs hne (htree ▸ .remeasure r m m' ks cs) hredrawn
    (List.cons_subset.mpr ⟨Subtree.ref_mem_refs (.inner r m ks cs), List.nil_subset _⟩)
    (by rw [htree]) rfl (Subtree.storedIn_inner.mpr ⟨hpage, fun x hx => ?_⟩) [] ?_ ?_
  · refine (hst.child hx).congr fun r' hr' => hredrawn.frame r' fun hmem => ?_
    refine Subtree.ref_notMem_child (t := .inner r m ks cs) hnd hx ?_
    rwa [List.mem_singleton.mp hmem] at hr'
  · rw [List.append_nil, Subtree.refs_inner, Subtree.refs_inner]
  · intro e he
    rw [Subtree.entries_inner] at he
    exact h.keyed_below e ((Subtree.entries_inner r m ks cs).symm ▸ he)

/-- A leaf may have other entries, as long as these are in order among what is around. -/
theorem Spells.redraw_leaf {pageSize : Nat} {fs : List (Frame K I)} {r : PageRef} {m : List Int64} {l l' : Leaf K I}
    (h : Spells s (plugAll fs (.leaf r m l))) (hfs : Spine.Fits pageSize d fs) (hright : l'.right = l.right)
    (ha : ∀ u v, Ascending (u ++ l.entries.map .entry ++ v) → Ascending (u ++ l'.entries.map .entry ++ v))
    (hkeyed : ∀ e ∈ l'.entries, compare (s.tree.keyOf e.2) e.1 = .eq) (m' : List Int64) :
    Spells (s.draw r (.leaf l') m') (plugAll fs (.leaf r m' l')) := by
  have hpage := Subtree.storedIn_leaf.mp h.below.1
  refine h.replug hfs (by rw [Subtree.leaves_leaf]; simp) (.leaf hright fun u v _ _ => ha u v) (redrawn_draw s r _ _)
    (by rw [Subtree.refs_leaf]; simp) rfl rfl (Subtree.storedIn_leaf.mpr (page?_draw hpage rfl _ _)) [] ?_ ?_
  · rw [Subtree.refs_leaf, Subtree.refs_leaf]
    simp
  · rw [Subtree.entries_leaf]
    exact hkeyed

end

section

variable [IndexKey K] [Codec I] {s : Index K I} {d : Nat} {t : Subtree K I} {α : Type}

/-- A change to an entry begins with the walk to its leaf, and goes on with nothing but the pager another. -/
theorem Spells.begins_eq (h : Spells s t) (key : Index K I → K) {out : Page K I × List (Tree.Step K I)}
    {p : Pager K I} (hpath : Action.Runs (s.tree.path (key s)) s.pager out p)
    (f : Index K I → Page K I × List (Tree.Step K I) → Updating K I α) :
    (do
      requireWritable
      let s ← get
      f s (← paging (s.tree.path (key s)))) s = f s out { s with pager := p } := by
  rw [h.requireWritable_runs.bind_eq, (Action.runs_get s).bind_eq, (paging_runs hpath).bind_eq]

/-- Where that walk fails, so does the change. -/
theorem Spells.begins_fails (h : Spells s t) (key : Index K I → K) {e : IndexError} {p : Pager K I}
    (hpath : Action.Fails (s.tree.path (key s)) s.pager e p)
    (f : Index K I → Page K I × List (Tree.Step K I) → Updating K I α) :
    Action.Fails (do
      requireWritable
      let s ← get
      f s (← paging (s.tree.path (key s)))) s e { s with pager := p } :=
  h.requireWritable_runs.fails ((Action.runs_get s).fails ((paging_fails hpath).bind _))

/-- What is read behind a gate is read, or the first refusal is passed on. -/
theorem Holds.reads_cases (h : Holds s d t) (hn : s.pager.next.toNat ≤ 2 ^ 64 - 2) {x : Paging K I α}
    {Q : α → Prop} (hx : (s.pager.service h.ready hn).Reads x Q) :
    (∃ a n pager, Action.Runs x s.pager a pager ∧ s.pager.Read n pager ∧ Q a)
      ∨ ∃ n reason pager, Action.Fails x s.pager (.io (.callRefused .resolve reason)) pager
        ∧ s.pager.Barred n reason pager := by
  obtain ⟨store, hs⟩ := h.ready.started
  obtain ⟨a, pager, hrun, ⟨n, hread⟩, ha⟩ | ⟨e, pager, hfail, n, reason, rfl, hbarred⟩ :=
    hx.runs_or_fails ⟨0, .refl hs.backing⟩
  · exact .inl ⟨a, n, pager, hrun, hread, ha⟩
  · exact .inr ⟨n, reason, pager, hfail, hbarred⟩

/-- What the pager of an index reads is read, and the pages stay as they were. -/
theorem Holds.reads (h : Holds s d t) (hn : s.pager.next.toNat ≤ 2 ^ 64 - 2)
    (hg : s.pager.gate.resolve = .always) {x : Paging K I α} {Q : α → Prop}
    (hx : (s.pager.service h.ready hn).Reads x Q) :
    ∃ a pager, Action.Runs x s.pager a pager ∧ s.pager.Still pager ∧ Q a := by
  obtain ⟨store, hs⟩ := h.ready.started
  obtain ⟨a, pager, hrun, ⟨n, hread⟩, ha⟩ :=
    hx.runs (fun _ _ ⟨_, _, _, hq⟩ => hq.not_always hg) ⟨0, .refl hs.backing⟩
  exact ⟨a, pager, hrun, hread.still, ha⟩

variable [Std.TransOrd K]

/-- The walk for a key, behind a gate. -/
theorem Holds.path_cases (h : Holds s d t) (hn : s.pager.next.toNat ≤ 2 ^ 64 - 2) (key : K) :
    (∃ fs r m l n pager, Action.Runs (s.tree.path key) s.pager ((Subtree.leaf r m l).page, Spine.steps r fs) pager
        ∧ s.pager.Read n pager ∧ t = plugAll fs (.leaf r m l)
        ∧ Way s.tree.config.pageSize key fs (.leaf r m l))
      ∨ ∃ n reason pager, Action.Fails (s.tree.path key) s.pager (.io (.callRefused .resolve reason)) pager
        ∧ s.pager.Barred n reason pager := by
  refine (h.reads_cases hn (Service.reads_path h.stored h.root h.whole h.depth_lt)).imp_left ?_
  rintro ⟨out, n, pager, hrun, hread, fs, r, m, l, rfl, heq, hway⟩
  exact ⟨fs, r, m, l, n, pager, hrun, hread, heq, hway⟩

end

end PagedIndex.Index
