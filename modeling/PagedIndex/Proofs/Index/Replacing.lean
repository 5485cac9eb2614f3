import PagedIndex.Index.Replace
import PagedIndex.Proofs.Index.Course
import PagedIndex.Proofs.Index.Pinning
import PagedIndex.Proofs.Pages
import PagedIndex.Proofs.Subtree.Measured

/-!
# Replacing an item of a whole index

Nothing of the tree changes but one item, under the key it was under, and the values that the pages above
carry. Each page takes the old item's values out and the new item's in, or is folded anew; both are right if
its values were right before and the child it came from has the right ones already (`swapStep_runs`).
-/

namespace PagedIndex.Index

variable {K I : Type}

/-! ## One page -/

section Step

variable {s : Index K I} {f : Frame K I} {c : Subtree K I} {pins : Pins}

/-- The values of the page at the end of a spine are exchanged; nothing else is touched. -/
theorem swapStep_runs (old new : I) (hpage : s.pager.page? f.ref = some (f.page c.ref))
    (hchildren : ∀ x ∈ (f.plug c).children, s.pager.page? x.ref = some x.page ∧ f.ref ≠ x.ref)
    (hpins : (s.tree.measures.subtract f.measures (s.tree.measures.ofItem old)).1 = false →
      ∀ x ∈ (f.plug c).children, x.ref ∈ pins) : ∃ m u, Redrawn [f.ref] s u ∧ u.tree = s.tree
      ∧ u.pager.page? f.ref = some (({ f with measures := m } : Frame K I).page c.ref)
      ∧ (∀ items others, f.measures = s.tree.measures.ofItems (f.itemsAround items) →
        (∀ x ∈ (f.plug c).children, x.Measured s.tree.measures) → items.Perm (old :: others) →
        c.items.Perm (new :: others) → m = s.tree.measures.ofItems (f.itemsAround c.items))
      ∧ ∀ slot steps v, Action.Runs
        (swapUp pins (s.tree.measures.ofItem old) (s.tree.measures.ofItem new) steps) u () v →
        Action.Runs (swapUp pins (s.tree.measures.ofItem old) (s.tree.measures.ofItem new)
          (⟨f.page c.ref, slot⟩ :: steps)) s () v := by
  cases hswap : s.tree.measures.swap? f.measures (s.tree.measures.ofItem old) (s.tree.measures.ofItem new) with
  | some values =>
    refine ⟨values, s.withMeasures f.ref values, redrawn_withMeasures s f.ref values, rfl,
      page?_withMeasures hpage values, fun items others hm _ hold hnew => ?_, fun slot steps v hrest => ?_⟩
    · rw [hm] at hswap
      exact MeasureSet.ofItems_of_swap? hswap (f.itemsAround_perm_cons hold) (f.itemsAround_perm_cons hnew)
    · unfold swapUp
      refine (Action.runs_get s).bind ?_
      refine (held_runs hpage).bind ?_
      dsimp only [Frame.page]
      rw [hswap]
      exact (setMeasures_runs s f.ref values).bind hrest
  | none =>
    -- the values cannot be taken out, so the page is folded from its children
    have hinexact : (s.tree.measures.subtract f.measures (s.tree.measures.ofItem old)).1 = false := by
      unfold MeasureSet.swap? at hswap
      split at hswap
      · exact absurd hswap (by simp)
      · rename_i values hsub
        rw [hsub]
    let rest := (s.tree.measures.subtract f.measures (s.tree.measures.ofItem old)).2
    let m := s.tree.measures.fold ((f.plug c).children.map Subtree.measures)
    let t := s.withMeasures f.ref rest
    have hfold : Action.Runs (foldPinned pins (f.page c.ref).children) t m t := by
      rw [Frame.children_page]
      exact foldPinned_runs (hpins hinexact) fun x hx =>
        (page?_withMeasures_ne (hchildren x hx).2 rest).trans (hchildren x hx).1
    refine ⟨m, t.withMeasures f.ref m,
      (redrawn_withMeasures s f.ref rest).trans (redrawn_withMeasures t f.ref m), rfl,
      page?_withMeasures (page?_withMeasures hpage rest) m, fun items others _ hmeas _ _ => ?_,
      fun slot steps v hrest => ?_⟩
    · rw [← Frame.items_plug, Frame.plug_eq, Subtree.items_inner]
      exact Subtree.fold_measures hmeas
    · unfold swapUp
      refine (Action.runs_get s).bind ?_
      refine (held_runs hpage).bind ?_
      dsimp only [Frame.page]
      rw [hswap]
      refine (setMeasures_runs s f.ref rest).bind ?_
      refine hfold.bind ?_
      exact (setMeasures_runs t f.ref m).bind hrest

end Step

/-! ## The way up -/

section Up

variable [Ord K] [Std.TransOrd K] {s : Index K I} {d : Nat} {pins : Pins}

/-- The pages above the leaf follow, one after the other. -/
theorem swapUp_runs {fs : List (Frame K I)} {c : Subtree K I} (h : Spells s (plugAll fs c))
    (hfs : Spine.Fits s.tree.config.pageSize d fs) (hw : c.Whole s.tree.config.pageSize d)
    (hfill : fs ≠ [] → c.Filled s.tree.config.pageSize) (old new : I)
    (hpins : ∀ step ∈ Spine.steps c.ref fs,
      (s.tree.measures.subtract step.page.measures (s.tree.measures.ofItem old)).1 = false →
      ∀ r ∈ step.page.children, r ∈ pins) : ∃ T u,
      Action.Runs (swapUp pins (s.tree.measures.ofItem old) (s.tree.measures.ofItem new)
        (Spine.steps c.ref fs)) s () u
        ∧ Spells u T ∧ T.Whole s.tree.config.pageSize (d + fs.length) ∧ T.entries = (plugAll fs c).entries
        ∧ T.refs.Perm (plugAll fs c).refs ∧ Redrawn (fs.map Frame.ref) s u ∧ Revalued s u ∧ u.tree = s.tree
        ∧ ∀ items others, c.Measured s.tree.measures → Spine.Measured s.tree.measures items fs →
          items.Perm (old :: others) → c.items.Perm (new :: others) → T.Measured s.tree.measures := by
  induction fs generalizing s d c with
  | nil =>
    exact ⟨c, s, Action.runs_pure () s, h, hw, rfl, .refl _, Redrawn.refl _ s, .refl s, rfl, fun _ _ hc _ _ _ => hc⟩
  | cons f fs ih =>
    have hps : 2 ≤ s.tree.config.pageSize := Nat.le_trans (by omega) h.pageSize
    have hne := hw.regular.leaves_ne_nil
    have hpage := (Frame.storedIn_plug.mp (Spells.below (t := f.plug c) h).1).2.1
    obtain ⟨m, t, hredrawn, htree, hpage', hmeas, hrun⟩ :=
      swapStep_runs old new hpage (fun x hx => Spells.child (t := f.plug c) h hx)
        (fun hin x hx => hpins _ List.mem_cons_self hin x.ref (f.children_page c ▸ List.mem_map_of_mem hx))
    -- of the page only the values change, so the rest of the way is as it was
    let f' : Frame K I := { f with measures := m }
    have hspells : Spells t (plugAll fs (f'.plug c)) := by
      refine Spells.remeasure h hfs.2.2.2 ?_ hredrawn htree (hpage'.trans (congrArg some (f'.page_plug c).symm))
      show (f.plug c).leaves ≠ []
      rw [Frame.leaves_plug]
      simp [hne]
    have hfits : f'.Fits s.tree.config.pageSize d := ⟨hfs.1.low, hfs.1.high, hfs.1.regular, hfs.1.filled⟩
    have hwhole : (f'.plug c).Whole s.tree.config.pageSize (d + 1) :=
      Spine.whole_plugAll (show Spine.Fits _ d [f'] from ⟨hfits, hfs.2.1, hfs.size_ge hps, trivial⟩) hps hw
        fun _ => hfill (by simp)
    have hfilled : fs ≠ [] → (f'.plug c).Filled s.tree.config.pageSize := by
      intro hfs'
      have := hfs.2.2.1
      rw [if_neg hfs'] at this
      exact ⟨by rw [Frame.size_plug]; exact this, by rw [Frame.size_plug]; exact hfs.2.1⟩
    rw [← htree] at hwhole hfilled hpins
    obtain ⟨T, u, hrun', hT, hTwhole, hentries, hrefs, hredrawn', hvalues, htree', hmeas'⟩ :=
      ih (d := d + 1) (c := f'.plug c) hspells (htree ▸ hfs.2.2.2) hwhole hfilled
        (fun step hstep => hpins step (List.mem_cons_of_mem _ hstep))
    rw [htree] at hrun' hTwhole hmeas'
    have hvalue : Revalued s t := by
      refine hredrawn.revalued fun page hp => ⟨m, hpage'.trans ?_⟩
      rw [← Option.some.inj (hpage.symm.trans hp)]
      rfl
    refine ⟨T, u, hrun _ _ _ hrun', hT, ?_, ?_, hrefs.trans (Spine.refs_plugAll_perm fs ?_), ?_, hvalue.trans hvalues,
      htree'.trans htree, ?_⟩
    · rw [List.length_cons, show d + (fs.length + 1) = d + 1 + fs.length by omega]
      exact hTwhole
    · rw [hentries, plugAll, Spine.entries_plugAll, Spine.entries_plugAll, Frame.entries_plug,
        Frame.entries_plug]
    · rw [Frame.plug_eq, Frame.plug_eq, Subtree.refs_inner, Subtree.refs_inner]
    · rw [List.map_cons]
      exact hredrawn.append hredrawn'
    · intro items others hc hspine hold hnew
      obtain ⟨hfm, hsides, hrest⟩ := hspine
      have hm := hmeas items others hfm (Frame.forall_mem_children_plug hc hsides) hold hnew
      refine hmeas' (f.itemsAround items) (f.itemsAround others) ?_ hrest (f.itemsAround_perm_cons hold) ?_
      · refine Frame.measured_hang.mpr ⟨?_, hsides, Row.measured_single.mpr hc⟩
        rw [Row.items_single]
        exact hm
      · rw [Frame.items_plug]
        exact f.itemsAround_perm_cons hnew

end Up

/-! ## The whole operation -/

section Replace

variable {s : Index K I}

/-- The item in a leaf gives way to another. -/
theorem replaceInLeaf_runs [IndexKey K] {r : PageRef} {m : List Int64} {l : Leaf K I}
    (hp : s.pager.page? r = some ⟨r, m, .leaf l⟩) {as bs : List (K × I)} {e : K × I}
    (hcut : l.entries = as ++ e :: bs) {key : K} (hpos : (l.seek key).position = as.length) (item : I) :
    ∃ m', Action.Runs (replaceInLeaf r key item (s.tree.measures.ofItem e.2) (s.tree.measures.ofItem item)) s
        e.2 (s.draw r (.leaf { l with entries := as ++ (e.1, item) :: bs }) m')
      ∧ (m = s.tree.measures.ofItems l.items →
        m' = s.tree.measures.ofItems ((as ++ (e.1, item) :: bs).map Prod.snd)) := by
  have hreplace := Leaf.replaceAt?_eq hcut item
  let folded := s.tree.measures.ofItems ((as ++ (e.1, item) :: bs).map Prod.snd)
  refine ⟨(s.tree.measures.swap? m (s.tree.measures.ofItem e.2) (s.tree.measures.ofItem item)).getD folded, ?_,
    fun hm => ?_⟩
  · unfold replaceInLeaf
    refine (Action.runs_get s).bind ?_
    refine (held_runs hp).bind ?_
    dsimp only
    rw [hpos]
    refine (Action.runs_orAbort hreplace s).bind ?_
    refine (setNode_runs s r _).bind ?_
    cases s.tree.measures.swap? m (s.tree.measures.ofItem e.2) (s.tree.measures.ofItem item) with
    | some values => exact (setMeasures_runs _ r values).bind (Action.runs_pure _ _)
    | none => exact (setMeasures_runs _ r folded).bind (Action.runs_pure _ _)
  · cases hswap : s.tree.measures.swap? m (s.tree.measures.ofItem e.2) (s.tree.measures.ofItem item) with
    | some values =>
      have hperm : ∀ i : I, ((as ++ (e.1, i) :: bs).map Prod.snd).Perm (i :: (as ++ bs).map Prod.snd) :=
        fun i => List.perm_middle.map Prod.snd
      rw [hm, Leaf.items, hcut] at hswap
      exact MeasureSet.ofItems_of_swap? hswap (hperm e.2) (hperm item)
    | none => rfl

/-- Between `s` and `u`, in a leaf on the way of the key `item` has taken the place of `old`. Pages on the way may carry
other values, and nothing else about any page is different. -/
structure Swapped [Ord K] (s u : Index K I) (key : K) (old item : I) : Prop where
  frame : ∀ r, ¬ s.OnWay key r → u.pager.page? r = s.pager.page? r
  leaf : ∃ r m l as e bs, s.OnWay key r ∧ s.pager.page? r = some ⟨r, m, .leaf l⟩
    ∧ l.entries = as ++ e :: bs ∧ compare e.1 key = .eq ∧ e.2 = old
    ∧ (∃ m', u.pager.page? r = some ⟨r, m', .leaf { l with entries := as ++ (e.1, item) :: bs }⟩)
    ∧ ∀ r', r' ≠ r → ∀ page, s.pager.page? r' = some page →
      ∃ m', u.pager.page? r' = some { page with measures := m' }

/-- With another item under a key of one leaf, the pages spell out the tree with that item: the entry keeps its key,
so the order is not touched. -/
theorem Spells.redraw_replaced [Ord K] [Std.TransOrd K] {pageSize d : Nat} {fs : List (Frame K I)} {r : PageRef}
    {m : List Int64} {l : Leaf K I} (h : Spells s (plugAll fs (.leaf r m l))) (hfs : Spine.Fits pageSize d fs)
    {as bs : List (K × I)} {e : K × I} (hcut : l.entries = as ++ e :: bs) {item : I}
    (hkey : compare e.1 (s.tree.keyOf item) = .eq) (m' : List Int64) :
    Spells (s.draw r (.leaf { l with entries := as ++ (e.1, item) :: bs }) m')
      (plugAll fs (.leaf r m' { l with entries := as ++ (e.1, item) :: bs })) := by
  have hright : ({ l with entries := as ++ (e.1, item) :: bs } : Leaf K I).right = l.right := rfl
  refine h.redraw_leaf hfs hright (fun u v ha => ?_) (fun x hx => ?_) m'
  · rw [hcut, List.map_append, List.map_cons, ← List.append_assoc, List.append_assoc _ _ v] at ha
    rw [List.map_append, List.map_cons, ← List.append_assoc, List.append_assoc _ _ v]
    exact ha.swap rfl
  · have hold := h.keyed_below
    rw [Subtree.entries_leaf, hcut] at hold
    rcases List.mem_append.mp hx with hx | hx
    · exact hold x (List.mem_append_left _ hx)
    · rcases List.mem_cons.mp hx with rfl | hx
      · exact Std.OrientedCmp.eq_symm hkey
      · exact hold x (List.mem_append_right _ (List.mem_cons_of_mem _ hx))

variable [IndexKey K] [Codec I] [Std.TransOrd K] {d : Nat} {t : Subtree K I}

omit [Codec I] in
/-- Once the pages to look at are pinned, the item in the leaf and the values on the way follow. -/
theorem replace_change {fs : List (Frame K I)} {r : PageRef} {m : List Int64} {l : Leaf K I}
    (h : Holds s d (plugAll fs (.leaf r m l))) {key : K} (item : I) {as bs : List (K × I)} {e : K × I}
    (hkey : compare e.1 (s.tree.keyOf item) = .eq) (hway : Way s.tree.config.pageSize key fs (.leaf r m l))
    (hcut : l.entries = as ++ e :: bs) (hpos : (l.seek key).position = as.length) {pins : Pins}
    (hpins : ∀ step ∈ Spine.steps r fs,
      (s.tree.measures.subtract step.page.measures (s.tree.measures.ofItem e.2)).1 = false →
      ∀ r ∈ step.page.children, r ∈ pins) : ∃ T u,
      Action.Runs (do
          let previous ← replaceInLeaf r key item (s.tree.measures.ofItem e.2) (s.tree.measures.ofItem item)
          swapUp pins (s.tree.measures.ofItem e.2) (s.tree.measures.ofItem item) (Spine.steps r fs)
          return previous) s e.2 u
        ∧ Holds u d T ∧ u.tree = s.tree ∧ Redrawn ([r] ++ fs.map Frame.ref) s u
        ∧ (∃ m', Revalued (s.draw r (.leaf { l with entries := as ++ (e.1, item) :: bs }) m') u)
        ∧ T.refs.Perm (plugAll fs (.leaf r m l)).refs
        ∧ (∃ as bs, (plugAll fs (.leaf r m l)).entries = as ++ e :: bs ∧ T.entries = as ++ (e.1, item) :: bs)
        ∧ ((plugAll fs (.leaf r m l)).Measured s.tree.measures → T.Measured s.tree.measures) := by
  have hpage := Subtree.storedIn_leaf.mp h.below.1
  obtain ⟨m', hleaf, hm'⟩ := replaceInLeaf_runs hpage hcut hpos item
  let l' : Leaf K I := { l with entries := as ++ (e.1, item) :: bs }
  have hlen : l'.entries.length = l.entries.length := by
    rw [hcut, List.length_append, List.length_append]
    rfl
  have h₁ : Spells (s.draw r (.leaf l') m') (plugAll fs (.leaf r m' l')) := h.redraw_replaced hway.fits hcut hkey m'
  obtain ⟨T, u, hswap, hT, hwhole, hentries, hrefs, hredrawn, hvalues, htree, hmeas⟩ := swapUp_runs h₁ hway.fits
    ⟨.leaf, by rw [Subtree.size_leaf, hlen]; exact hway.size_le, fun hd => absurd rfl hd⟩
    (fun hfs => by have := hway.filled hfs; rwa [Subtree.Filled, Subtree.size_leaf, ← hlen] at this)
    e.2 item hpins
  obtain rfl := h.whole.regular.depth_unique (Spine.regular_plugAll hway.fits .leaf hway.filled)
  have hsplit := Spine.entries_plugAll_leaf fs r m hcut
  have hsplit' := hentries.trans
    (Spine.entries_plugAll_leaf fs r m' (show l'.entries = as ++ (e.1, item) :: bs from rfl))
  refine ⟨T, u, hleaf.bind (hswap.bind (Action.runs_pure _ u)), ⟨hT, by rw [htree]; exact hwhole, ?_⟩, htree,
    (redrawn_draw s r _ _).append hredrawn, ⟨m', hvalues⟩,
    hrefs.trans (Spine.refs_plugAll_perm fs (by rw [Subtree.refs_leaf, Subtree.refs_leaf])), ⟨_, _, hsplit, hsplit'⟩,
    fun hm => ?_⟩
  · rw [htree]
    show s.tree.len = _
    rw [h.len, hsplit, hsplit']
    simp only [List.length_append, List.length_cons]
  · obtain ⟨hc, hrest⟩ := Spine.measured_plugAll.mp hm
    refine hmeas _ ((as ++ bs).map Prod.snd) (Subtree.measured_leaf.mpr (hm' (Subtree.measured_leaf.mp hc))) hrest
      ?_ ?_
    · rw [Subtree.items_leaf, Leaf.items, hcut]
      exact List.perm_middle.map Prod.snd
    · rw [Subtree.items_leaf]
      exact List.perm_middle.map Prod.snd

omit [IndexKey K] [Codec I] in
/-- What was drawn are the pages of the way, and apart from the leaf nothing but values was. -/
theorem Spells.swapped [Ord K] [Std.TransOrd K] {pageSize : Nat} {fs : List (Frame K I)} {r : PageRef}
    {m m' : List Int64} {l : Leaf K I} (h : Spells s (plugAll fs (.leaf r m l))) {key : K}
    (hway : Way pageSize key fs (.leaf r m l)) {as bs : List (K × I)} {e : K × I} (hcut : l.entries = as ++ e :: bs)
    (heq : compare e.1 key = .eq) {item : I} {pager : Pager K I} {u : Index K I} (hstill : s.pager.Still pager)
    (hredrawn : Redrawn ([r] ++ fs.map Frame.ref) { s with pager } u)
    (hvalues : Revalued (({ s with pager } : Index K I).draw r
      (.leaf { l with entries := as ++ (e.1, item) :: bs }) m') u) : s.Swapped u key e.2 item where
  frame r' hoff := (hredrawn.frame r' fun hmem => hoff ((h.onWay_iff hway).mpr hmem)).trans
    (congrFun hstill.page? r')
  leaf := by
    have hpage := Subtree.storedIn_leaf.mp h.below.1
    have hpage' : pager.page? r = some (Subtree.leaf r m l).page := (congrFun hstill.page? r).trans hpage
    refine ⟨r, m, l, as, e, bs, (h.onWay_iff hway).mpr List.mem_cons_self, hpage, hcut, heq, rfl, ?_,
      fun r' hne page hp => ?_⟩
    · exact hvalues r ⟨r, m', _⟩ (page?_draw hpage' (show (Subtree.leaf r m l).page.ref = r from rfl) _ _)
    · refine hvalues r' page ?_
      rw [page?_draw_ne (Ne.symm hne)]
      exact (congrFun hstill.page? r').trans hp

/-- An item takes the place of the one that has its key; or it does not, and every page is as it was: no item has
its key, or a call was refused. -/
theorem Holds.replace_cases (h : Holds s d t) (hn : s.pager.next.toNat ≤ 2 ^ 64 - 2) (item : I) :
    (∃ T n u present, Action.Runs (replace item) s present u ∧ Holds u d T ∧ u.tree = s.tree
        ∧ Pager.Called ⟨n, 0, 0⟩ s.pager u.pager ∧ s.pager.gate.resolve.Grants n
        ∧ (∃ as e bs, t.entries = as ++ e :: bs ∧ compare e.1 (s.tree.keyOf item) = .eq ∧ e.2 = present
          ∧ T.entries = as ++ (e.1, item) :: bs)
        ∧ (t.Measured s.tree.measures → T.Measured s.tree.measures)
        ∧ s.Swapped u (s.tree.keyOf item) present item
        ∧ (∀ r, (u.pager.page? r).isSome = (s.pager.page? r).isSome) ∧ T.refs.Perm t.refs)
      ∨ ∃ e calls q, Action.Fails (replace item) s e { s with pager := q } ∧ Pager.Spared calls s.pager q
        ∧ (e = .keyNotFound ∧ itemAt (s.tree.keyOf item) t.entries = none
            ∧ (∃ n, calls = ⟨n, 0, 0⟩ ∧ s.pager.gate.resolve.Grants n)
          ∨ s.pager.gate.Refuses calls e) := by
  rcases h.path_cases hn (s.tree.keyOf item) with
    ⟨fs, r, m, l, n₁, p₁, hpath, hread₁, rfl, hway⟩ | ⟨n, _, q, hfail, hbarred⟩
  case inr =>
    exact .inr ⟨_, _, q, h.begins_fails (fun s => s.tree.keyOf item) hfail _, hbarred.spared h.ready,
      .inr hbarred.refuses⟩
  have hfind : l.find? (s.tree.keyOf item) = itemAt (s.tree.keyOf item) (plugAll fs (.leaf r m l)).entries := by
    rw [Leaf.find?_eq_itemAt (hway.increasing h.ascending), ← hway.itemAt_eq h.ascending]
  cases hitem : itemAt (s.tree.keyOf item) (plugAll fs (.leaf r m l)).entries with
  | none =>
    refine .inr ⟨_, _, p₁, ?_, hread₁.spared h.ready, .inl ⟨rfl, rfl, _, rfl, hread₁.grants⟩⟩
    refine (h.begins_eq (fun s => s.tree.keyOf item) hpath _).trans ?_
    refine (Action.runs_ofExcept rfl _).fails ?_
    rw [hfind, hitem]
    exact Action.fails_fail _ _
  | some present =>
    obtain ⟨as, e, bs, hcut, hpos, -, heq, rfl⟩ := hway.exists_cut_entry h.ascending hitem
    have h₁ := h.still hread₁.still
    rcases h₁.reads_cases (by rw [hread₁.still.next]; exact hn)
        (reads_pinForReplace s.tree.measures (s.tree.measures.ofItem e.2) (Spine.steps r fs).reverse []
          fun step hstep r' hr' => h₁.exists_page (Spine.children_steps_subset (List.mem_reverse.mp hstep) hr')) with
      ⟨pins, n₂, p₂, hpinned, hread₂, -, hpins⟩ | ⟨n, _, q, hfail, hbarred⟩
    · obtain ⟨T, u, hchange, hholds, htree, hredrawn, ⟨m', hvalues⟩, hperm, ⟨as', bs', hes, hes'⟩, hmeas⟩ :=
        replace_change (h₁.still hread₂.still) item heq hway hcut hpos
          (fun step hstep => hpins step (List.mem_reverse.mpr hstep))
      have hread := hread₁.trans hread₂
      refine .inl ⟨T, _, u, e.2, ?_, hholds, htree, hread.called.of_blank hredrawn.blank, hread.grants,
        ⟨as', e, bs', hes, heq, rfl, hes'⟩, hmeas, h.swapped hway hcut heq hread.still hredrawn hvalues,
        fun n => by rw [hredrawn.live, hread.still.page?], hperm⟩
      refine (h.begins_eq (fun s => s.tree.keyOf item) hpath _).trans ?_
      refine (Action.runs_ofExcept rfl _).bind ?_
      rw [hfind, hitem]
      exact (paging_runs hpinned).bind hchange
    · have hall := hread₁.barred hbarred
      refine .inr ⟨_, _, q, ?_, hall.spared h.ready, .inr hall.refuses⟩
      refine (h.begins_eq (fun s => s.tree.keyOf item) hpath _).trans ?_
      refine (Action.runs_ofExcept rfl _).fails ?_
      rw [hfind, hitem]
      exact (paging_fails hfail).bind _

end Replace

end PagedIndex.Index
