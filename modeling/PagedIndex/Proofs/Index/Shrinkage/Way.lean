import PagedIndex.Proofs.Index.Shrinkage.Parent

/-!
# The way up of a removal

Each page of the spine sees to its child and then takes the item out of its values, so that the next one finds
what this one found: a subtree that lacks a slot at most (`shrinkUp_step`). At the top there may be a root that
has a single child left, and this is the root then.
-/

namespace PagedIndex

variable {K I : Type}

/-- What has to be pinned along a spine, the page at its end having had `size` slots in use before: the pages
and their children and, where the child may come to lack a slot, the children of the pages beside it. -/
def Spine.Pinned (minFill : Nat) (pins : Pins) : Nat → List (Frame K I) → Prop
  | _, [] => True
  | size, f :: fs => (f.ref ∈ pins ∧ ∀ x ∈ f.sides, x.ref ∈ pins)
    ∧ (size ≤ minFill → ∀ x ∈ f.beside, ∀ y ∈ x.children, y.ref ∈ pins) ∧ Pinned minFill pins f.size fs

/-! ## Beside a spine -/

namespace Spine

/-- Below some pages of the spine, one child is chosen beside it. -/
def Chosen (fs : List (Frame K I)) (sibling : PageRef → Option PageRef) : Prop :=
  ∀ parent, ∀ r ∈ sibling parent, ∃ f ∈ fs, f.ref = parent ∧ r ∈ f.beside.map Subtree.ref

/-- The pages on a spine, with the one at its end, and those that are chosen beside it. -/
def around (sibling : PageRef → Option PageRef) (bottom : PageRef) (fs : List (Frame K I)) : List PageRef :=
  bottom :: fs.flatMap fun f => f.ref :: (sibling f.ref).toList

variable {fs : List (Frame K I)} {f : Frame K I} {sibling : PageRef → Option PageRef}

/-- Another page of the spine may choose. -/
theorem Chosen.update (h : Chosen fs sibling) {other : Option PageRef}
    (hother : ∀ r ∈ other, r ∈ f.beside.map Subtree.ref) : Chosen (f :: fs) (Function.update sibling f.ref other) := by
  intro parent r hr
  by_cases heq : parent = f.ref
  · rw [heq, Function.update_self] at hr
    exact ⟨f, List.mem_cons_self, heq.symm, hother r hr⟩
  · rw [Function.update_of_ne heq] at hr
    obtain ⟨g, hg, hr⟩ := h parent r hr
    exact ⟨g, List.mem_cons_of_mem f hg, hr⟩

/-- What the pages above choose does not depend on what the page below them does. -/
theorem around_update (hf : f.ref ∉ fs.map Frame.ref) (other : Option PageRef) (bottom : PageRef) :
    around (Function.update sibling f.ref other) bottom (f :: fs)
      = bottom :: f.ref :: other.toList ++ fs.flatMap fun g => g.ref :: (sibling g.ref).toList := by
  have hrest : (fs.flatMap fun g => g.ref :: (Function.update sibling f.ref other g.ref).toList)
      = fs.flatMap fun g => g.ref :: (sibling g.ref).toList := by
    refine List.flatMap_congr fun g hg => ?_
    rw [Function.update_of_ne]
    intro heq
    exact hf (heq ▸ List.mem_map_of_mem hg)
  rw [around, List.flatMap_cons, Function.update_self, hrest]
  rfl

end Spine

namespace Index

variable [Ord K] [Std.TransOrd K] {s : Index K I} {fs : List (Frame K I)} {f : Frame K I} {c : Subtree K I}
  {d size : Nat} {pins : Pins}

/-- The child is merged if it lacks a slot. -/
theorem mend_runs (h : Spells s (plugAll fs (f.plug c))) (hfs : Spine.Fits s.tree.config.pageSize d (f :: fs))
    (hreg : c.Regular s.tree.config.pageSize d) (hle : c.size ≤ s.tree.config.pageSize)
    (hsize : size ≤ c.size + 1) (hpinned : Spine.Pinned s.tree.config.minFill pins size (f :: fs))
    (hc : c.ref ∈ pins) (hcs : ∀ x ∈ c.children, x.ref ∈ pins) : ∃ ks cs gone u,
      Mended s u d fs f c ks cs gone ∧ (∀ x ∈ cs, x.ref ∈ pins)
        ∧ ∀ freed values slot steps out v, slot = f.low.length → Action.Runs (do
            subtractOrFold pins f.ref values
            shrinkUp pins values f.ref steps (freed ++ gone)) u out v →
          Action.Runs (shrinkUp pins values c.ref (⟨f.page c.ref, slot⟩ :: steps) freed) s out v := by
  obtain ⟨⟨-, hsides⟩, hbeside, -⟩ := hpinned
  have hkids : ∀ x ∈ (f.plug c).children, x.ref ∈ pins :=
    Frame.forall_mem_children_plug (p := fun x => x.ref ∈ pins) hc hsides
  have hpage : s.pager.page? c.ref = some c.page :=
    (Spells.child (t := f.plug c) h (List.mem_append_right _ List.mem_cons_self)).1
  -- a child with too few entries or separators is merged, any other stays
  rcases Nat.lt_or_ge c.size (s.tree.config.pageSize / 2) with hlt | hge
  · have hlt' : c.page.size < s.tree.config.minFill := hlt
    obtain ⟨ks, cs, gone, u, hrun, hmended⟩ := exists_mended h hfs hreg hle hkids hcs
      (hbeside (by unfold Config.minFill; omega))
    refine ⟨ks, cs, gone.toList, u, hmended, fun x hx => ?_, fun freed values slot steps out v hslot hrest => ?_⟩
    · obtain ⟨y, hy, heq⟩ := hmended.kids x hx
      rw [heq]
      exact hkids y hy
    · subst hslot
      unfold shrinkUp
      refine (Action.runs_get s).bind ?_
      refine (held_runs hpage).bind ?_
      rw [if_pos hlt']
      refine hrun.bind ?_
      exact hrest
  · have hge' : ¬ c.page.size < s.tree.config.minFill := Nat.not_lt.mpr hge
    refine ⟨_, _, [], s, .refl h hfs.1 hreg ⟨hge, hle⟩, fun x hx => hkids x hx,
      fun freed values slot steps out v _ hrest => ?_⟩
    rw [List.append_nil] at hrest
    unfold shrinkUp
    refine (Action.runs_get s).bind ?_
    refine (held_runs hpage).bind ?_
    rw [if_neg hge']
    exact hrest

/-- One step up: what was true of the child is true of the page, which may lack a slot in turn. -/
theorem shrinkUp_step (h : Spells s (plugAll fs (f.plug c)))
    (hfs : Spine.Fits s.tree.config.pageSize d (f :: fs))
    (hreg : c.Regular s.tree.config.pageSize d) (hle : c.size ≤ s.tree.config.pageSize)
    (hsize : size ≤ c.size + 1) (hpinned : Spine.Pinned s.tree.config.minFill pins size (f :: fs))
    (hc : c.ref ∈ pins) (hcs : ∀ x ∈ c.children, x.ref ∈ pins) (item : I) : ∃ T gone t,
      Spells t (plugAll fs T) ∧ T.ref = f.ref ∧ T.Regular s.tree.config.pageSize (d + 1) ∧ T.size ≤ f.size
        ∧ f.size ≤ T.size + 1 ∧ (∀ x ∈ T.children, x.ref ∈ pins) ∧ T.entries = (f.plug c).entries
        ∧ (T.refs ++ gone).Perm (f.plug c).refs
        ∧ (∃ other : Option PageRef, (∀ r ∈ other, r ∈ f.beside.map Subtree.ref)
          ∧ Redrawn (f.ref :: c.ref :: other.toList) s t ∧ gone ⊆ c.ref :: other.toList)
        ∧ t.tree = { s.tree with rightmost := t.tree.rightmost }
        ∧ (∀ items, c.Measured s.tree.measures → f.measures = s.tree.measures.ofItems (f.itemsAround items) →
          (∀ x ∈ f.sides, x.Measured s.tree.measures) → items.Perm (item :: c.items) →
          T.Measured s.tree.measures)
        ∧ ∀ freed steps out v, Action.Runs
          (shrinkUp pins (s.tree.measures.ofItem item) f.ref steps (freed ++ gone)) t out v →
          Action.Runs (shrinkUp pins (s.tree.measures.ofItem item) c.ref
            (⟨f.page c.ref, f.low.length⟩ :: steps) freed) s out v := by
  obtain ⟨ks, cs, gone, u, hmended, hkids, hrun⟩ := mend_runs h hfs hreg hle hsize hpinned hc hcs
  obtain ⟨other, hother, hchanged, hgone⟩ := hmended.narrow
  have hmeasures := hchanged.measures
  obtain ⟨m, t, hsub, hredrawn, htree, hpage, hm⟩ := subtractOrFold_runs pins
    hmended.spells.below.1.top (fun x hx => hmended.spells.child hx) hkids item
  rw [hmeasures] at hsub hm
  let T : Subtree K I := .inner f.ref m ks cs
  have hregT : T.Regular s.tree.config.pageSize (d + 1) := by
    obtain ⟨hl, hr, hf⟩ := Subtree.regular_inner.mp hmended.regular
    exact .inner hl hr hf
  refine ⟨T, gone, t, ?_, rfl, hregT, hmended.size_le, hmended.size_ge, hkids, ?_, ?_, ?_, ?_,
    fun items hmc hmf hms hperm => ?_, fun freed steps out v hrest => ?_⟩
  · exact hmended.spells.remeasure hfs.2.2.2 hmended.regular.leaves_ne_nil hredrawn htree hpage
  · rw [Subtree.entries_inner]
    exact hmended.entries
  · have := hmended.refs
    rwa [Subtree.refs_inner] at this ⊢
  · exact ⟨other, hother,
      hchanged.trans (hredrawn.mono (List.cons_subset.mpr ⟨List.mem_cons_self, List.nil_subset _⟩)), hgone⟩
  · rw [htree]
    exact hmended.tree
  · have hkidsm : ∀ x ∈ (f.plug c).children, x.Measured s.tree.measures := by
      intro x hx
      rcases List.mem_append.mp hx with hx | hx
      · exact hms x (List.mem_append_left _ hx)
      · rcases List.mem_cons.mp hx with rfl | hx
        · exact hmc
        · exact hms x (List.mem_append_right _ hx)
    have hcsm := hmended.measured hkidsm
    have hitems : cs.flatMap Subtree.items = f.itemsAround c.items := by
      rw [← Frame.items_plug, Subtree.items, ← hmended.entries, List.map_flatMap]
      rfl
    refine Subtree.measured_inner.mpr ⟨hm (f.itemsAround items) hmf ?_ hcsm, hcsm⟩
    rw [hitems]
    exact f.itemsAround_perm_cons hperm
  · exact hrun freed _ _ steps out v rfl (hsub.bind hrest)

/-- The whole way up. -/
theorem shrinkUp_runs {fs : List (Frame K I)} {c : Subtree K I} (h : Spells s (plugAll fs c))
    (hfs : Spine.Fits s.tree.config.pageSize d fs) (hreg : c.Regular s.tree.config.pageSize d)
    (hle : c.size ≤ s.tree.config.pageSize) (hsize : size ≤ c.size + 1)
    (hpinned : Spine.Pinned s.tree.config.minFill pins size fs) (hc : c.ref ∈ pins)
    (hcs : ∀ x ∈ c.children, x.ref ∈ pins) (item : I) (freed : List PageRef) : ∃ T gone sibling u,
      Action.Runs (shrinkUp pins (s.tree.measures.ofItem item) c.ref (Spine.steps c.ref fs) freed) s
        (freed ++ gone) u
        ∧ Spells u T ∧ T.Regular s.tree.config.pageSize (d + fs.length) ∧ T.size ≤ s.tree.config.pageSize
        ∧ T.ref ∈ pins ∧ (∀ x ∈ T.children, x.ref ∈ pins) ∧ T.entries = (plugAll fs c).entries
        ∧ (T.refs ++ gone).Perm (plugAll fs c).refs
        ∧ (Spine.Chosen fs sibling ∧ Redrawn (Spine.around sibling c.ref fs) s u ∧ gone ⊆ Spine.around sibling c.ref fs)
        ∧ u.tree = { s.tree with rightmost := u.tree.rightmost }
        ∧ ∀ items, c.Measured s.tree.measures → Spine.Measured s.tree.measures items fs →
          items.Perm (item :: c.items) → T.Measured s.tree.measures := by
  induction fs generalizing s d c size freed with
  | nil =>
    refine ⟨c, [], fun _ => none, s, ?_, h, hreg, hle, hc, hcs, rfl, ?_,
      ⟨fun _ _ hr => absurd hr (by simp), Redrawn.refl _ s, List.nil_subset _⟩, rfl, fun _ hm _ _ => hm⟩
    · rw [List.append_nil]
      exact Action.runs_pure freed s
    · rw [List.append_nil]
      rfl
  | cons f fs ih =>
    obtain ⟨T₁, gone₁, t, h₁, href, hreg₁, hle₁, hge₁, hkids, hentries₁, hrefs₁, ⟨other, hother, hredrawn₁, hgone₁⟩,
      htree₁, hmeas₁, hrun₁⟩ := shrinkUp_step h hfs hreg hle hsize hpinned hc hcs item
    have hsame := hredrawn₁.alike
    have hcfg : t.tree.config = s.tree.config := hsame.config
    obtain ⟨T, gone₂, sibling, u, hrun₂, hT, hregT, hleT, hTp, hTk, hentries, hrefs, ⟨hchosen, hredrawn, hgone₂⟩,
      htree, hmeas⟩ :=
      ih h₁ (by rw [hcfg]; exact hfs.2.2.2)
        (by rw [hcfg]; exact hreg₁) (by rw [hcfg]; exact Nat.le_trans hle₁ hfs.2.1) hge₁
        (by rw [hcfg]; exact hpinned.2.2) (by rw [href]; exact hpinned.1.1) hkids (freed ++ gone₁)
    rw [hsame.measures] at hrun₂ hmeas
    rw [hcfg] at hregT hleT
    rw [href] at hrun₂ hredrawn hgone₂
    refine ⟨T, gone₁ ++ gone₂, Function.update sibling f.ref other, u, ?_, hT, ?_, hleT, hTp, hTk, ?_, ?_, ?_, ?_,
      fun items hmc ⟨hmf, hms, hmfs⟩ hperm => ?_⟩
    · rw [← List.append_assoc]
      exact hrun₁ freed _ _ _ hrun₂
    · rw [List.length_cons, show d + (fs.length + 1) = d + 1 + fs.length by omega]
      exact hregT
    · rw [hentries, plugAll, Spine.entries_plugAll, Spine.entries_plugAll, hentries₁]
    · -- what the step gave up comes on top of what was given up above
      have hT₁ : ((plugAll fs T₁).refs ++ gone₁).Perm (plugAll fs (f.plug c)).refs :=
        ((Spine.refs_plugAll fs T₁).append_right gone₁).trans <|
          (perm_append_right_comm _ _ _).trans <|
          (hrefs₁.append_right _).trans (Spine.refs_plugAll fs (f.plug c)).symm
      rw [← List.append_assoc]
      exact (perm_append_right_comm _ _ _).trans ((hrefs.append_right gone₁).trans hT₁)
    -- the choice at this page is added to the choices above, which are about other pages
    · have hf : f.ref ∉ fs.map Frame.ref := by
        have hnd := (Spine.refs_plugAll fs (f.plug c)).nodup_iff.mp h.nodup
        intro hmem
        obtain ⟨g, hg, heq⟩ := List.mem_map.mp hmem
        refine (List.nodup_append.mp hnd).2.2 f.ref (f.plug c).ref_mem_refs g.ref ?_ heq.symm
        exact List.mem_flatMap.mpr ⟨g, hg, List.mem_cons_self⟩
      rw [Spine.around_update hf]
      have hbelow : f.ref :: c.ref :: other.toList ⊆ c.ref :: f.ref :: other.toList
          ++ fs.flatMap fun g => g.ref :: (sibling g.ref).toList :=
        fun r hr => List.mem_append_left _ ((List.Perm.swap c.ref f.ref _).subset hr)
      have habove : Spine.around sibling f.ref fs ⊆ c.ref :: f.ref :: other.toList
          ++ fs.flatMap fun g => g.ref :: (sibling g.ref).toList :=
        List.cons_subset.mpr ⟨by simp, List.subset_append_right _ _⟩
      exact ⟨hchosen.update hother, (hredrawn₁.mono hbelow).trans (hredrawn.mono habove), List.append_subset.mpr
        ⟨fun r hr => hbelow (List.mem_cons_of_mem _ (hgone₁ hr)), fun r hr => habove (hgone₂ hr)⟩⟩
    · rw [htree, htree₁]
    · refine hmeas (f.itemsAround items) (hmeas₁ items hmc hmf hms hperm) hmfs ?_
      rw [show T₁.items = f.itemsAround c.items by
        rw [← Frame.items_plug, Subtree.items, hentries₁, Subtree.items]]
      exact f.itemsAround_perm_cons hperm

/-! ## The root -/

omit [Std.TransOrd K] in
/-- A leaf, and a page with a separator, stay the root. -/
theorem collapseRoot_stays {T : Subtree K I} (h : Spells s T) (hreg : T.Regular s.tree.config.pageSize d)
    (hpos : d ≠ 0 → 1 ≤ T.size) (hT : T.ref ∈ pins) (limit : Nat) (freed : List PageRef) :
    Action.Runs (collapseRoot pins (limit + 1) freed) s freed s := by
  have hpage := pinned_runs hT h.stored.top
  unfold collapseRoot
  refine (Action.runs_get s).bind ?_
  rw [h.root]
  refine hpage.bind ?_
  cases hreg with
  | leaf => exact Action.runs_pure freed s
  | @inner d r m ks cs _ _ _ =>
    have hne : ks.isEmpty = false := by
      have : 1 ≤ ks.length := hpos (Nat.succ_ne_zero d)
      cases ks with
      | nil => exact absurd this (by simp)
      | cons => rfl
    dsimp only [Subtree.page]
    rw [if_neg (by rw [hne]; simp)]
    exact Action.runs_pure freed s

omit [Std.TransOrd K] in
/-- A root with a single child gives way to it, and then no more. -/
theorem collapseRoot_runs {T : Subtree K I} (h : Spells s T) (hreg : T.Regular s.tree.config.pageSize d)
    (hle : T.size ≤ s.tree.config.pageSize) (hT : T.ref ∈ pins) (hkids : ∀ x ∈ T.children, x.ref ∈ pins)
    {limit : Nat} (hlimit : 2 ≤ limit) (freed : List PageRef) : ∃ T' d' gone u,
      Action.Runs (collapseRoot pins limit freed) s (freed ++ gone) u ∧ gone ⊆ [s.tree.root] ∧ Spells u T'
        ∧ T'.Whole s.tree.config.pageSize d' ∧ T'.entries = T.entries ∧ (T'.refs ++ gone).Perm T.refs
        ∧ u.pager = s.pager ∧ u.tree = { s.tree with root := u.tree.root }
        ∧ (T.Measured s.tree.measures → T'.Measured s.tree.measures) := by
  have hps := h.pageSize
  obtain ⟨limit, rfl⟩ : ∃ n, limit = n + 1 + 1 := ⟨limit - 2, by omega⟩
  by_cases hpos : d ≠ 0 → 1 ≤ T.size
  · refine ⟨T, d, [], s, ?_, List.nil_subset _, h, ⟨hreg, hle, hpos⟩, rfl, ?_, rfl, rfl, id⟩
    · rw [List.append_nil]
      exact collapseRoot_stays h hreg hpos hT (limit + 1) freed
    · rw [List.append_nil]
  · -- an inner root without separators
    rw [Classical.not_imp] at hpos
    obtain ⟨d, rfl⟩ := Nat.exists_eq_succ_of_ne_zero hpos.1
    obtain ⟨r, m, ks, cs, rfl, hlen, hr, hf⟩ := hreg.eq_inner
    obtain rfl : ks = [] := List.length_eq_zero_iff.mp (by
      have := hpos.2
      rw [Subtree.size_inner] at this
      omega)
    obtain ⟨x, rfl⟩ := List.length_eq_one_iff.mp hlen
    have hx := hf x List.mem_cons_self
    have hregx := hr x List.mem_cons_self
    have hrefs : (Subtree.inner r m [] [x]).refs = r :: x.refs := by
      rw [Subtree.refs_inner, List.flatMap_cons, List.flatMap_nil, List.append_nil]
    have hwalk : (Subtree.inner r m [] [x]).walk = x.walk := by
      rw [Subtree.walk_inner, List.map_singleton, weave, weave, List.append_nil]
    have hleaves : (Subtree.inner r m [] [x]).leaves = x.leaves := by
      rw [Subtree.leaves_inner, List.flatMap_singleton]
    have hentries : (Subtree.inner r m [] [x]).entries = x.entries := by
      rw [Subtree.entries_inner, List.flatMap_singleton]
    let u : Index K I := { s with tree := { s.tree with root := x.ref } }
    have hspells : Spells u x := by
      refine ⟨h.ready, h.pageSize, rfl, h.stored.child List.mem_cons_self, ?_, ?_, ?_, ?_, ?_⟩
      · exact (List.nodup_cons.mp (hrefs ▸ h.nodup)).2
      · exact hwalk ▸ h.ascending
      · exact hleaves ▸ h.linked
      · exact hleaves ▸ h.last
      · exact hentries ▸ h.keyed
    -- the new root has separators, so the second round ends it
    have hposx : d ≠ 0 → 1 ≤ x.size := fun _ => by
      have := hx.1
      omega
    refine ⟨x, d, [r], u, ?_, ?_, hspells, ⟨hregx, hx.2, hposx⟩, hentries.symm, ?_, rfl, rfl, fun hm => ?_⟩
    · rw [collapseRoot]
      refine (Action.runs_get s).bind ?_
      rw [h.root]
      refine (pinned_runs hT h.stored.top).bind ?_
      refine (Action.runs_pure x.ref s).bind ?_
      refine (modifyTree_runs s _).bind ?_
      exact collapseRoot_stays hspells hregx hposx (hkids x List.mem_cons_self) limit (freed ++ [r])
    · rw [h.root]
      exact List.Subset.refl _
    · rw [hrefs]
      exact List.perm_append_singleton r x.refs
    · exact (Subtree.measured_inner.mp hm).2 x List.mem_cons_self

end Index

end PagedIndex
