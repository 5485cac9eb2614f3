import PagedIndex.Proofs.Index.Pinning
import PagedIndex.Proofs.Index.Shrinkage.Way
import Mathlib.Data.List.Induction

/-!
# Removing an item from a whole index

The entry leaves its leaf, the pages above put themselves in order one after the other, and at last the pages
that are left over are given up. Nothing can fail once the pages that may be looked at are pinned.
-/

namespace PagedIndex

variable {K I : Type}

/-! ## What is pinned -/

theorem Spine.pinned_concat {minFill : Nat} {pins : Pins} {fs : List (Frame K I)} {f : Frame K I}
    {c : Subtree K I} : Pinned minFill pins c.size (fs ++ [f])
      ↔ Pinned minFill pins c.size fs ∧ Pinned minFill pins (plugAll fs c).size [f] := by
  induction fs generalizing c with
  | nil => exact ⟨fun h => ⟨trivial, h⟩, fun h => h.2⟩
  | cons g fs ih =>
    have := ih (c := g.plug c)
    rw [Frame.size_plug] at this
    rw [List.cons_append, Pinned, Pinned, this, plugAll]
    tauto

namespace Index

variable [IndexKey K] [Codec I]

omit [IndexKey K] [Codec I] in
theorem neighbours_eq (f : Frame K I) (bottom : PageRef) :
    neighbours (f.low.map Subtree.ref ++ bottom :: f.high.map Subtree.ref) f.low.length
      = f.beside.map Subtree.ref := by
  have hright : (f.low.map Subtree.ref ++ bottom :: f.high.map Subtree.ref)[f.low.length + 1]?.toList
      = f.high.head?.toList.map Subtree.ref := by
    rw [List.getElem?_append_right (by rw [List.length_map]; omega), List.length_map, Nat.add_sub_cancel_left]
    cases f.high <;> rfl
  unfold neighbours Frame.beside
  rw [hright, List.map_append]
  rcases List.eq_nil_or_concat' f.low with hnil | ⟨xs, x, hx⟩
  · rw [hnil]
    rfl
  · rw [hx, List.length_append, List.getLast?_concat, List.length_singleton]
    dsimp only
    rw [List.map_append, List.append_assoc, List.getElem?_append_right (by rw [List.length_map]),
      List.length_map, Nat.sub_self]
    rfl

section Pins

variable {p : Pager K I} {hp : p.Ready} {hn : p.next.toNat ≤ 2 ^ 64 - 2}

theorem reads_pinBelow {refs : List PageRef} (pins : Pins)
    (h : ∀ n ∈ refs, ∃ page, p.page? n = some page
      ∧ ∀ r ∈ page.children, ∃ page', p.page? r = some page' ∧ page'.ref = r) :
    (p.service hp hn).Reads (pinBelow refs pins) fun pins' => pins ⊆ pins'
      ∧ ∀ n ∈ refs, ∀ page, p.page? n = some page → page.children ⊆ pins' := by
  induction refs generalizing pins with
  | nil => exact Service.reads_pure ⟨List.Subset.refl _, by simp⟩
  | cons n refs ih =>
    obtain ⟨page, hpage, hchildren⟩ := h n List.mem_cons_self
    rw [pinBelow]
    refine Service.reads_get.bind fun q ⟨_, hq⟩ => ?_
    rw [hq.still.page?, hpage]
    refine (reads_pin _ hchildren).bind fun pins₁ hp₁ => ?_
    refine (ih _ fun n' hn' => h n' (List.mem_cons_of_mem n hn')).mono fun pins₂ hp₂ => ?_
    refine ⟨fun r hr => hp₂.1 (hp₁.1 hr), List.forall_mem_cons.mpr ⟨fun page' hpage' r hr => ?_, hp₂.2⟩⟩
    rw [hpage] at hpage'
    exact hp₂.1 (hp₁.2 (Option.some.inj hpage' ▸ hr))

/-- The pages that a removal may look at are pinned. -/
theorem reads_pinForRemove {fs : List (Frame K I)} {c : Subtree K I}
    (hst : (plugAll fs c).StoredIn p.page?) (minFill : Nat) (pins : Pins) :
    (p.service hp hn).Reads (pinForRemove minFill c.page (Spine.steps c.ref fs).reverse pins)
      fun pins' => pins ⊆ pins' ∧ Spine.Pinned minFill pins' c.size fs := by
  induction fs using List.reverseRecOn generalizing pins with
  | nil => exact Service.reads_pure ⟨List.Subset.refl _, trivial⟩
  | append_singleton fs f ih =>
    rw [Spine.plugAll_concat] at hst
    obtain ⟨hX, -, hsides⟩ := Frame.storedIn_plug.mp hst
    have hserved : ∀ {x : Subtree K I}, x.StoredIn p.page? →
        ∀ r ∈ x.refs, ∃ page, p.page? r = some page ∧ page.ref = r := by
      intro x hx r hr
      obtain ⟨u, hu, rfl⟩ := List.mem_map.mp hr
      exact ⟨u.page, hx u hu, u.ref_page⟩
    have hkids := f.children_page (plugAll fs c)
    have hbeside : ∀ x ∈ f.beside, x.StoredIn p.page? := fun x hx => hsides x (Frame.mem_sides_of_mem_beside hx)
    rw [Spine.steps_concat, ← Spine.ref_plugAll, List.reverse_append, List.reverse_singleton,
      List.singleton_append, pinForRemove, List.head?_reverse, Spine.getLast?_steps]
    refine (reads_pin (f.ref :: pins) fun r hr => ?_).bind fun pins₁ hp₁ => ?_
    · obtain ⟨x, hx, rfl⟩ := List.mem_map.mp (hkids ▸ hr)
      exact hserved hst _ (Subtree.refs_child_subset hx x.ref_mem_refs)
    -- the page itself and the children beside the way are what a step up may look at
    have hf : f.ref ∈ pins₁ ∧ ∀ x ∈ f.sides, x.ref ∈ pins₁ := by
      refine ⟨hp₁.1 List.mem_cons_self, fun x hx => hp₁.2 ?_⟩
      rw [hkids]
      refine List.mem_map_of_mem ?_
      rcases List.mem_append.mp hx with hx | hx
      · exact List.mem_append_left _ hx
      · exact List.mem_append_right _ (List.mem_cons_of_mem _ hx)
    dsimp only
    -- below a page with room to spare nothing is merged, and its neighbours are not looked at
    split
    · rename_i hlarge
      refine (ih hX _).mono fun pins₂ hp₂ => ⟨fun r hr => hp₂.1 (hp₁.1 (List.mem_cons_of_mem _ hr)), ?_⟩
      refine Spine.pinned_concat.mpr ⟨hp₂.2, ⟨hp₂.1 hf.1, fun x hx => hp₂.1 (hf.2 x hx)⟩, fun hle => ?_, trivial⟩
      exact absurd hlarge (Nat.not_lt.mpr hle)
    · refine (Service.reads_ofExcept rfl).bind_eq ?_
      dsimp only
      rw [neighbours_eq]
      refine (reads_pinBelow _ fun n hn => ?_).bind fun pins₂ hp₂ => ?_
      · obtain ⟨x, hx, rfl⟩ := List.mem_map.mp hn
        refine ⟨x.page, (hbeside x hx).top, fun r hr => ?_⟩
        rw [Subtree.children_page] at hr
        obtain ⟨y, hy, rfl⟩ := List.mem_map.mp hr
        exact hserved (hbeside x hx) _ (Subtree.refs_child_subset hy y.ref_mem_refs)
      · refine (ih hX _).mono fun pins₃ hp₃ => ?_
        refine ⟨fun r hr => hp₃.1 (hp₂.1 (hp₁.1 (List.mem_cons_of_mem _ hr))), Spine.pinned_concat.mpr ⟨hp₃.2, ?_⟩⟩
        refine ⟨⟨hp₃.1 (hp₂.1 hf.1), fun x hx => hp₃.1 (hp₂.1 (hf.2 x hx))⟩, fun _ x hx y hy => ?_, trivial⟩
        refine hp₃.1 (hp₂.2 x.ref (List.mem_map_of_mem hx) x.page (hbeside x hx).top ?_)
        rw [Subtree.children_page]
        exact List.mem_map_of_mem hy

end Pins

/-! ## The leaf -/

omit [Codec I] in
/-- The entry of a key leaves its leaf. -/
theorem removeFromLeaf_runs {s : Index K I} {r : PageRef} {m : List Int64} {l : Leaf K I}
    (hp : s.pager.page? r = some ⟨r, m, .leaf l⟩) {as bs : List (K × I)} {e : K × I}
    (hcut : l.entries = as ++ e :: bs) {key : K} (hpos : (l.seek key).position = as.length) :
    ∃ m', Action.Runs (removeFromLeaf r key) s e.2 (s.draw r (.leaf { l with entries := as ++ bs }) m')
      ∧ (m = s.tree.measures.ofItems l.items → m' = s.tree.measures.ofItems ((as ++ bs).map Prod.snd)) := by
  have hremove := Leaf.removeAt?_eq hcut
  rcases hsub : s.tree.measures.subtract m (s.tree.measures.ofItem e.2) with ⟨exactly, values⟩
  refine ⟨if exactly then values else s.tree.measures.ofItems ((as ++ bs).map Prod.snd), ?_, fun hm => ?_⟩
  · unfold removeFromLeaf
    refine (Action.runs_get s).bind ?_
    refine (held_runs hp).bind ?_
    dsimp only
    rw [hpos]
    refine (Action.runs_orAbort hremove s).bind ?_
    refine (setNode_runs s r _).bind ?_
    dsimp only
    rw [hsub]
    cases exactly with
    | true => exact (setMeasures_runs _ r _).bind (Action.runs_pure _ _)
    | false => exact (setMeasures_runs _ r _).bind (Action.runs_pure _ _)
  · cases exactly with
    | true =>
      rw [hm, Leaf.items, hcut] at hsub
      exact MeasureSet.ofItems_of_subtract hsub (List.perm_middle.map Prod.snd)
    | false => rfl

/-! ## The whole operation -/

variable [Std.TransOrd K] {s : Index K I} {d : Nat} {t : Subtree K I}

omit [IndexKey K] [Codec I] in
/-- With an entry fewer in one leaf, the pages spell out the tree without it. -/
theorem Spells.redraw_removed [Ord K] [Std.TransOrd K] {pageSize : Nat} {fs : List (Frame K I)} {r : PageRef}
    {m : List Int64} {l : Leaf K I} (h : Spells s (plugAll fs (.leaf r m l))) (hfs : Spine.Fits pageSize d fs)
    {as bs : List (K × I)} {e : K × I} (hcut : l.entries = as ++ e :: bs) (m' : List Int64) :
    Spells (s.draw r (.leaf { l with entries := as ++ bs }) m')
      (plugAll fs (.leaf r m' { l with entries := as ++ bs })) := by
  have hsub : (as ++ bs).Sublist l.entries := by
    rw [hcut]
    exact (List.Sublist.refl as).append (List.sublist_cons_self e bs)
  have hkeyed := h.keyed_below
  rw [Subtree.entries_leaf] at hkeyed
  have hright : ({ l with entries := as ++ bs } : Leaf K I).right = l.right := rfl
  refine h.redraw_leaf hfs hright (fun u v ha => ?_) (fun x hx => hkeyed x (hsub.subset hx)) m'
  exact ha.sublist (((List.Sublist.refl u).append (hsub.map _)).append (List.Sublist.refl v))

omit [Codec I] in
/-- Once the pages to look at are pinned, the entry leaves its leaf, the pages above follow, and the root may give
way; what is left over of the tree is handed back. -/
theorem remove_change {fs : List (Frame K I)} {r : PageRef} {m : List Int64} {l : Leaf K I}
    (h : Holds s d (plugAll fs (.leaf r m l))) {key : K} {as bs : List (K × I)} {e : K × I}
    (hway : Way s.tree.config.pageSize key fs (.leaf r m l)) (hcut : l.entries = as ++ e :: bs)
    (hpos : (l.seek key).position = as.length) {pins : Pins} (hbottom : r ∈ pins)
    (hpins : Spine.Pinned s.tree.config.minFill pins l.size fs) : ∃ T d' freed sibling u,
      Action.Runs (do
          let item ← removeFromLeaf r key
          let freed ← shrinkUp pins (s.tree.measures.ofItem item) r (Spine.steps r fs) []
          modifyTree fun tree => { tree with len := tree.len - 1 }
          let freed ← collapseRoot (K := K) (I := I) pins (pins.length + 1) freed
          return (item, freed)) s (e.2, freed) u
        ∧ Holds u d' T ∧ (Spine.Chosen fs sibling ∧ Redrawn (Spine.around sibling r fs) s u
          ∧ freed ⊆ s.tree.root :: Spine.around sibling r fs)
        ∧ (T.refs ++ freed).Perm (plugAll fs (.leaf r m l)).refs
        ∧ (∃ as bs, (plugAll fs (.leaf r m l)).entries = as ++ e :: bs ∧ T.entries = as ++ bs)
        ∧ ((plugAll fs (.leaf r m l)).Measured s.tree.measures → T.Measured s.tree.measures) := by
  have hpage := Subtree.storedIn_leaf.mp h.below.1
  obtain ⟨m', hleaf, hm'⟩ := removeFromLeaf_runs hpage hcut hpos
  let l' : Leaf K I := { l with entries := as ++ bs }
  have hlen : l'.entries.length + 1 = l.entries.length := by
    rw [hcut, List.length_append, List.length_append, List.length_cons]
    omega
  -- the leaf may now be too small: the way up starts with it one entry short
  have h₁ : Spells (s.draw r (.leaf l') m') (plugAll fs (.leaf r m' l')) := h.redraw_removed hway.fits hcut m'
  have hle : l'.entries.length ≤ s.tree.config.pageSize := by
    have : l.entries.length ≤ s.tree.config.pageSize := hway.size_le
    omega
  obtain ⟨T, gone, sibling, u, hshrink, hT, hregT, hleT, hTp, hTk, hentries, hrefs, ⟨hchosen, hredrawn, hgone⟩, htree,
    hmeas⟩ := shrinkUp_runs h₁ hway.fits .leaf hle (Nat.le_of_eq hlen.symm) hpins hbottom
      (by simp [Subtree.children]) e.2 []
  have hend : [r] ⊆ Spine.around sibling r fs := List.cons_subset.mpr ⟨List.mem_cons_self, List.nil_subset _⟩
  have hchanged := ((redrawn_draw s r (.leaf l') m').mono hend).trans hredrawn
  let u' : Index K I := { u with tree := { u.tree with len := u.tree.len - 1 } }
  have hT' : Spells u' T :=
    ⟨hT.ready, hT.pageSize, hT.root, hT.stored, hT.nodup, hT.ascending, hT.linked, hT.last, hT.keyed⟩
  have hpages : u'.tree.config.pageSize = s.tree.config.pageSize := by
    show u.tree.config.pageSize = _
    rw [hchanged.config]
  obtain ⟨T', d', gone', v, hcollapse, hroot, hv, hwhole, hentries', hrefs', hpager, hvtree, hmeas'⟩ :=
    collapseRoot_runs hT' (by rw [hpages]; exact hregT) (by rw [hpages]; exact hleT) hTp hTk
      (show 2 ≤ pins.length + 1 by
        have := List.length_pos_of_mem hTp
        omega) ([] ++ gone)
  have hsplit := Spine.entries_plugAll_leaf fs r m hcut
  have hsplit' := (hentries'.trans hentries).trans
    (Spine.entries_plugAll_leaf fs r m' (show l'.entries = as ++ bs from rfl))
  have hsame : (plugAll fs (.leaf r m' l')).refs.Perm (plugAll fs (.leaf r m l)).refs :=
    Spine.refs_plugAll_perm fs (by rw [Subtree.refs_leaf, Subtree.refs_leaf])
  refine ⟨T', d', [] ++ gone ++ gone', sibling, v, ?_, ⟨hv, by rw [hvtree]; exact hwhole, ?_⟩, ⟨hchosen, ?_, ?_⟩, ?_,
    ⟨_, _, hsplit, hsplit'⟩, fun hm => ?_⟩
  · refine hleaf.bind (hshrink.bind ((modifyTree_runs u _).bind ?_))
    exact hcollapse.bind (Action.runs_pure _ v)
  · rw [hvtree, hsplit', List.length_append]
    show u.tree.len - 1 = _
    rw [htree]
    show s.tree.len - 1 = _
    rw [h.len, hsplit, List.length_append, List.cons_append, List.length_cons]
    omega
  · rw [show v = { u with tree := v.tree } from congrArg (Index.mk v.tree) hpager]
    exact hchanged.trans (redrawn_tree u _ (by rw [hvtree]) (by rw [hvtree]) (by rw [hvtree]))
  · -- only the root gives way at last, and it is the one from before
    have hsame : u'.tree.root = s.tree.root := by
      show u.tree.root = _
      rw [htree]
      rfl
    rw [hsame] at hroot
    exact List.append_subset.mpr ⟨List.subset_cons_of_subset _ hgone,
      fun n hn => List.mem_cons.mpr (.inl (List.mem_singleton.mp (hroot hn)))⟩
  · rw [List.nil_append, ← List.append_assoc]
    exact (perm_append_right_comm _ _ _).trans ((hrefs'.append_right gone).trans (hrefs.trans hsame))
  · obtain ⟨hc, hrest⟩ := Spine.measured_plugAll.mp hm
    refine hchanged.measures ▸ hmeas' (hchanged.measures.symm ▸ hmeas _ ?_ hrest ?_)
    · exact Subtree.measured_leaf.mpr (hm' (Subtree.measured_leaf.mp hc))
    · rw [Subtree.items_leaf, Subtree.items_leaf, Leaf.items, hcut]
      exact List.perm_middle.map Prod.snd

omit [IndexKey K] [Codec I] in
/-- What is neither on the way nor chosen beside it is not around the spine. -/
theorem Spells.not_mem_around [Ord K] [Std.TransOrd K] {pageSize : Nat} {fs : List (Frame K I)} {r r' : PageRef}
    {m : List Int64} {l : Leaf K I} (h : Spells s (plugAll fs (.leaf r m l))) {key : K}
    (hway : Way pageSize key fs (.leaf r m l)) {sibling : PageRef → Option PageRef} (hoff : ¬ s.OnWay key r')
    (hnone : ∀ parent, r' ∉ sibling parent) : r' ∉ Spine.around sibling r fs := by
  intro hmem
  rcases List.mem_cons.mp hmem with rfl | hmem
  · exact hoff ((h.onWay_iff hway).mpr List.mem_cons_self)
  · obtain ⟨f, hf, hr'⟩ := List.mem_flatMap.mp hmem
    rcases List.mem_cons.mp hr' with rfl | hr'
    · exact hoff ((h.onWay_iff hway).mpr (List.mem_cons_of_mem r (List.mem_map_of_mem hf)))
    · exact hnone f.ref (Option.mem_toList.mp hr')

/-- The item of a key leaves the tree, and nothing can go wrong before the pages that are left over are given up; or
every page is as it was: the key is absent, or a page could not be looked at. -/
theorem Holds.remove_phases (h : Holds s d t) (hn : s.pager.next.toNat ≤ 2 ^ 64 - 2) (key : K) :
    (∃ T d' n item freed v, remove key s = (do
            paging (Pager.releaseAll freed)
            return some item : Updating K I (Option I)) v
        ∧ Holds v d' T
        ∧ v.tree = { s.tree with root := v.tree.root, rightmost := v.tree.rightmost, len := v.tree.len }
        ∧ Pager.Called ⟨n, 0, 0⟩ s.pager v.pager ∧ s.pager.gate.resolve.Grants n
        ∧ (∀ r, (v.pager.page? r).isSome = (s.pager.page? r).isSome) ∧ (T.refs ++ freed).Perm t.refs
        ∧ (∃ as e bs, t.entries = as ++ e :: bs ∧ compare e.1 key = .eq ∧ e.2 = item ∧ T.entries = as ++ bs)
        ∧ (t.Measured s.tree.measures → T.Measured s.tree.measures)
        ∧ ∃ sibling : PageRef → Option PageRef, (∀ parent, ∀ r ∈ sibling parent, s.Beside key parent r)
          ∧ ∀ r, ¬ s.OnWay key r → (∀ parent, r ∉ sibling parent) →
            r ∉ freed ∧ v.pager.page? r = s.pager.page? r)
      ∨ (∃ n q, Action.Runs (remove key) s none { s with pager := q } ∧ s.pager.Read n q
        ∧ itemAt key t.entries = none)
      ∨ ∃ n reason q, Action.Fails (remove key) s (.io (.callRefused .resolve reason)) { s with pager := q }
        ∧ s.pager.Barred n reason q := by
  rcases h.path_cases hn key with ⟨fs, r, m, l, n₁, p₁, hpath, hread₁, rfl, hway⟩ | ⟨n, reason, q, hfail, hbarred⟩
  case inr =>
    exact .inr (.inr ⟨n, reason, q, h.begins_fails (fun _ => key) hfail _, hbarred⟩)
  cases hitem : itemAt key (plugAll fs (.leaf r m l)).entries with
  | none =>
    obtain ⟨as, bs, -, -, hex, -, -⟩ := hway.exists_cut h.ascending hitem
    refine .inr (.inl ⟨n₁, p₁, ?_, hread₁, rfl⟩)
    refine (h.begins_eq (fun _ => key) hpath _).trans ?_
    refine (Action.runs_ofExcept rfl _).bind ?_
    rw [hex]
    exact Action.runs_pure none _
  | some item =>
    obtain ⟨as, e, bs, hcut, hpos, hex, heq, rfl⟩ := hway.exists_cut_entry h.ascending hitem
    -- once the neighbours are pinned nothing can fail before pages are given up
    have h₁ := h.still hread₁.still
    rcases h₁.reads_cases (by rw [hread₁.still.next]; exact hn)
        (reads_pinForRemove h₁.stored s.tree.config.minFill [r]) with
      ⟨pins, n₂, p₂, hpinned, hread₂, hbottom, hpins⟩ | ⟨n, reason, q, hfail, hbarred⟩
    · obtain ⟨T, d', freed, sibling, v, hchange, hholds, ⟨hchosen, hredrawn, hfreed⟩, hperm, ⟨as', bs', hes, hes'⟩,
        hmeas⟩ := remove_change (h₁.still hread₂.still) hway hcut hpos (hbottom List.mem_cons_self) hpins
      have hread := hread₁.trans hread₂
      refine .inl ⟨T, d', _, e.2, freed, v, ?_, hholds, hredrawn.tree_eq, hread.called.of_blank hredrawn.blank,
        hread.grants, fun n => ?_, hperm, ⟨as', e, bs', hes, heq, rfl, hes'⟩, hmeas, sibling, ?_, ?_⟩
      · have htail := hchange.bind_eq fun out => do
          paging (Pager.releaseAll out.2)
          return some out.1
        simp only [bind_assoc, pure_bind] at htail
        refine (h.begins_eq (fun _ => key) hpath _).trans ?_
        refine ((Action.runs_ofExcept rfl _).bind_eq _).trans ?_
        rw [hex]
        exact ((paging_runs hpinned).bind_eq _).trans htail
      · rw [hredrawn.live, hread.still.page?]
      · intro parent r' hr'
        obtain ⟨f, hf, rfl, hbeside⟩ := hchosen parent r' hr'
        obtain ⟨x, hx, rfl⟩ := List.mem_map.mp hbeside
        exact h.beside hway.fits hway.routes hf hx
      · intro r' hoff hnone
        have haround := h.not_mem_around hway hoff hnone
        have hout : r' ∉ s.tree.root :: Spine.around sibling r fs :=
          List.not_mem_cons_of_ne_of_not_mem (fun heq => hoff (heq ▸ .root)) haround
        refine ⟨fun hmem => hout (hfreed hmem), ?_⟩
        rw [hredrawn.frame r' haround]
        exact congrFun hread.still.page? r'
    · refine .inr (.inr ⟨n₁ + n, reason, q, ?_, hread₁.barred hbarred⟩)
      refine (h.begins_eq (fun _ => key) hpath _).trans ?_
      refine (Action.runs_ofExcept rfl _).fails ?_
      rw [hex]
      exact (paging_fails hfail).bind _

/-- The item of a key is removed, and the pages that are left over are all offered for release; or it is not, and
every page is as it was: the key is absent, or a page could not be looked at. -/
theorem Holds.remove_cases (h : Holds s d t) (hn : s.pager.next.toNat ≤ 2 ^ 64 - 2) (key : K) :
    (∃ T d' n item freed u, Holds u d' T
        ∧ u.tree = { s.tree with root := u.tree.root, rightmost := u.tree.rightmost, len := u.tree.len }
        ∧ Pager.Called ⟨n, 0, freed.length⟩ s.pager u.pager ∧ s.pager.gate.resolve.Grants n
        ∧ (T.refs ++ freed).Perm t.refs
        ∧ (∀ r, (u.pager.page? r).isSome ↔ (s.pager.page? r).isSome
          ∧ (r, .granted) ∉ freed.zip (s.pager.gate.release.answers freed.length))
        ∧ (∃ as e bs, t.entries = as ++ e :: bs ∧ compare e.1 key = .eq ∧ e.2 = item ∧ T.entries = as ++ bs)
        ∧ (t.Measured s.tree.measures → T.Measured s.tree.measures)
        ∧ (s.pager.gate.release.Grants freed.length ∧ Action.Runs (remove key) s (some item) u
          ∨ ∃ i reason, i < freed.length ∧ s.pager.gate.release.Bars i reason
            ∧ Action.Fails (remove key) s (.io (.callRefused .release reason)) u))
      ∨ (∃ n q, Action.Runs (remove key) s none { s with pager := q } ∧ s.pager.Read n q
        ∧ itemAt key t.entries = none)
      ∨ ∃ n reason q, Action.Fails (remove key) s (.io (.callRefused .resolve reason)) { s with pager := q }
        ∧ s.pager.Barred n reason q := by
  refine (h.remove_phases hn key).imp_left ?_
  rintro ⟨T, d', n, item, freed, v, hphase, hholds, htree, hcalled, hgrants, hlive, hperm, hentries, hmeas, -⟩
  obtain ⟨q, hoffered, hrelease⟩ := Pager.releaseAll_cases freed hholds.ready
  have hschedule : v.pager.gate.release = s.pager.gate.release := by rw [hcalled.gate]; rfl
  have hdisjoint := (List.nodup_append'.mp (hperm.nodup_iff.mpr h.nodup)).2.2
  rw [hschedule] at hrelease
  refine ⟨T, d', n, item, freed, { v with pager := q },
    hholds.withPager hoffered.ready fun n hn => hoffered.frame fun hmem => hdisjoint hn hmem, htree, ?_, hgrants,
    hperm, fun n => ?_, hentries, hmeas, hrelease.imp ?_ ?_⟩
  · have := hcalled.trans hoffered.called
    rwa [Nat.zero_add, Nat.zero_add] at this
  · rw [hoffered.pages, hschedule]
    split
    · rename_i hmem
      simp [hmem]
    · rename_i hmem
      rw [hlive]
      simp [hmem]
  · rintro ⟨hg, hrun⟩
    refine ⟨hg, ?_⟩
    unfold Action.Runs
    rw [hphase]
    exact (paging_runs hrun).bind (Action.runs_pure _ _)
  · rintro ⟨i, reason, hi, hbars, hfail⟩
    refine ⟨i, reason, hi, hbars, ?_⟩
    unfold Action.Fails
    rw [hphase]
    exact (paging_fails hfail).bind _

end Index

end PagedIndex
