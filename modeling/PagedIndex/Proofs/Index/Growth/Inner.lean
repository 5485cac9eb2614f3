import PagedIndex.Proofs.Index.Growth.Basic
import PagedIndex.Proofs.Pages

/-!
# The growth of inner pages

A page above a change takes the values of the new item and, if there is one, the right half of a split. A
full page is cut in two first, and both halves are folded anew.
-/

namespace PagedIndex

variable {K I : Type}

/-- The right half of a split goes behind the left half. -/
theorem Frame.insertAfter?_eq {f : Frame K I} (hf : f.lowKeys.length = f.low.length) (t : Subtree K I)
    (key : K) (u : Subtree K I) :
    (⟨f.lowKeys ++ f.highKeys, f.low.map Subtree.ref ++ t.ref :: f.high.map Subtree.ref⟩ :
      Inner K).insertAfter? f.low.length key u.ref
      = some ⟨f.lowKeys ++ key :: f.highKeys, (f.low ++ t :: u :: f.high).map Subtree.ref⟩ := by
  rw [← hf, Inner.insertAfter?_eq rfl rfl (by rw [List.length_map, hf]), List.map_append, List.map_cons,
    List.map_cons]

/-- How many pages of a spine are full, from the bottom up to the first one with room. -/
def Spine.full (pageSize : Nat) (fs : List (Frame K I)) : Nat :=
  (fs.takeWhile fun f => pageSize ≤ f.size).length

theorem Spine.full_cons_of_full {pageSize : Nat} {f : Frame K I} (h : f.size = pageSize)
    (fs : List (Frame K I)) : full pageSize (f :: fs) = full pageSize fs + 1 := by
  rw [full, List.takeWhile_cons_of_pos (by simp [h])]
  rfl

theorem Spine.full_cons_of_room {pageSize : Nat} {f : Frame K I} (h : f.size < pageSize)
    (fs : List (Frame K I)) : full pageSize (f :: fs) = 0 := by
  rw [full, List.takeWhile_cons_of_neg (by simpa using h)]
  rfl

namespace Index

variable [Ord K] [Std.TransOrd K] {s t t' : Index K I} {e : K × I} {d : Nat} {old : Subtree K I}
  {row : Row K I} {path used : List PageRef} {split : Option (Split K)} {f : Frame K I}

/-- A page that is not split takes the values of the new item. -/
theorem addMeasures_grown (h : Grown s t e d old path used row none)
    (hf : f.Fits s.tree.config.pageSize d) (hr : f.Routes e.1) (hne : old.leaves ≠ [])
    (hold : old.Filled s.tree.config.pageSize) (hsize : f.size ≤ s.tree.config.pageSize)
    (hsides : ∀ c ∈ f.sides, c.StoredIn t.pager.page?) (hnd : ((f.plug old).refs ++ used).Nodup)
    (hpage : t.pager.page? f.ref = some (f.page old.ref)) : ∃ row' t',
      Action.Runs (addMeasures f.ref (s.tree.measures.ofItem e.2)) t () t'
        ∧ Grown s t' e (d + 1) (f.plug old) (f.ref :: path) used row' none := by
  obtain ⟨b, rfl, hb⟩ := h.carries.eq_single
  let m := s.tree.measures.add f.measures (s.tree.measures.ofItem e.2)
  refine ⟨_, t.withMeasures f.ref m, ?_, h.hang hf hr hne hold ?_ hsides hnd
    (redrawn_withMeasures t f.ref m) rfl (m := m) rfl ?_⟩
  · have := addMeasures_runs hpage (s.tree.measures.ofItem e.2)
    rw [h.redrawn.measures] at this
    exact this
  · exact hsize
  · have := page?_withMeasures hpage m
    rw [← hb] at this
    rw [this, ← Frame.plug, Frame.page_plug]
    rfl

/-- A page with room takes the right half of a split. -/
theorem addToInner_room {half : Split K} (h : Grown s t e d old path used row (some half))
    (hf : f.Fits s.tree.config.pageSize d) (hr : f.Routes e.1) (hne : old.leaves ≠ [])
    (hold : old.Filled s.tree.config.pageSize) (hroom : f.size < s.tree.config.pageSize)
    (hsides : ∀ c ∈ f.sides, c.StoredIn t.pager.page?) (hnd : ((f.plug old).refs ++ used).Nodup)
    (hpage : t.pager.page? f.ref = some (f.page old.ref)) (reserved : List PageRef) (pins : Pins) :
    ∃ row' t', Action.Runs
      (addToInner f.ref f.low.length half (s.tree.measures.ofItem e.2) reserved pins) t (none, reserved) t'
        ∧ Grown s t' e (d + 1) (f.plug old) (f.ref :: path) used row' none := by
  obtain ⟨b, key, u, rfl, hb, rfl⟩ := h.carries.eq_pair
  let m := s.tree.measures.add f.measures (s.tree.measures.ofItem e.2)
  let inner : Inner K := ⟨f.lowKeys ++ key :: f.highKeys, (f.low ++ b :: u :: f.high).map Subtree.ref⟩
  have hpage₁ := page?_withNode hpage (.inner inner)
  refine ⟨_, t.draw f.ref (.inner inner) m, ?_, h.hang hf hr hne hold ?_ hsides hnd
    (redrawn_draw t f.ref (.inner inner) m) rfl (m := m) rfl (page?_draw hpage rfl _ _)⟩
  · unfold addToInner
    refine (held_runs hpage).bind ?_
    refine (Action.runs_get t).bind ?_
    rw [if_pos]
    · refine (Action.runs_orAbort (hb ▸ Frame.insertAfter?_eq hf.low b key u) t).bind ?_
      refine (setNode_runs t f.ref _).bind ?_
      refine Action.Runs.bind (a := ()) ?_ (Action.runs_pure _ _)
      have := addMeasures_runs hpage₁ (s.tree.measures.ofItem e.2)
      rw [tree_withNode, h.redrawn.measures] at this
      exact this
    · rw [h.redrawn.config, Inner.size, List.length_append]
      exact hroom
  · exact hroom

omit [Ord K] [Std.TransOrd K] in
theorem splitInner_runs (ref new : PageRef) {inner whole : Inner K} {slot : Nat} (half : Split K)
    {median : K} {ks ks' : List K} {cs cs' : List (Subtree K I)} {pins : Pins}
    (hwhole : inner.insertAfter? slot half.separator half.right = some whole)
    (hsplit : whole.split? = some (median, ⟨ks, cs.map Subtree.ref⟩, ⟨ks', cs'.map Subtree.ref⟩))
    (hpins : ∀ c ∈ cs ++ cs', c.ref ∈ pins) (hpages : ∀ c ∈ cs ++ cs', t.pager.page? c.ref = some c.page)
    (hne : ∀ c ∈ cs ++ cs', ref ≠ c.ref) :
    Action.Runs (splitInner ref new inner slot half pins) t ⟨median, new⟩
      ((t.draw ref (.inner ⟨ks, cs.map Subtree.ref⟩)
        (t.tree.measures.fold (cs.map Subtree.measures))).draw new (.inner ⟨ks', cs'.map Subtree.ref⟩)
        (t.tree.measures.fold (cs'.map Subtree.measures))) := by
  have hlower := foldPinned_runs (s := t.withNode ref (.inner ⟨ks, cs.map Subtree.ref⟩))
    (fun c hc => hpins c (List.mem_append_left cs' hc)) fun c hc =>
      (page?_withNode_ne (hne c (List.mem_append_left cs' hc)) _).trans
        (hpages c (List.mem_append_left cs' hc))
  have hupper := foldPinned_runs
    (s := t.draw ref (.inner ⟨ks, cs.map Subtree.ref⟩) (t.tree.measures.fold (cs.map Subtree.measures)))
    (fun c hc => hpins c (List.mem_append_right cs hc)) fun c hc =>
      (page?_draw_ne (hne c (List.mem_append_right cs hc)) _ _).trans
        (hpages c (List.mem_append_right cs hc))
  unfold splitInner
  refine (Action.runs_orAbort hwhole t).bind ?_
  refine (Action.runs_orAbort hsplit t).bind ?_
  refine (setNode_runs t ref _).bind ?_
  refine hlower.bind ?_
  refine (setMeasures_runs _ ref _).bind ?_
  refine hupper.bind ?_
  refine (setNode_runs _ new _).bind ?_
  exact (setMeasures_runs _ new _).bind (Action.runs_pure _ _)

/-- A page with a row in it is cut in two, and both halves are folded from their children. -/
theorem Grown.cut (h : Grown s t e d old path used row split) (hf : f.Fits s.tree.config.pageSize d)
    (hr : f.Routes e.1) (hne : old.leaves ≠ []) (hold : old.Filled s.tree.config.pageSize)
    (hsides : ∀ c ∈ f.sides, c.StoredIn t.pager.page?) {new : PageRef}
    (hnd : ((f.plug old).refs ++ (used ++ [new])).Nodup) {median : K} {ks ks' : List K} {cs cs' : List (Subtree K I)}
    (hks : f.lowKeys ++ (row.keys ++ f.highKeys) = ks ++ median :: ks')
    (hcs : f.low ++ (row.trees ++ f.high) = cs ++ cs')
    (hlower : cs.length = ks.length + 1) (hupper : cs'.length = ks'.length + 1)
    (hsize : s.tree.config.pageSize / 2 ≤ ks.length ∧ ks.length ≤ s.tree.config.pageSize)
    (hsize' : s.tree.config.pageSize / 2 ≤ ks'.length ∧ ks'.length ≤ s.tree.config.pageSize)
    (hredrawn : Redrawn [f.ref, new] t t') (htree : t'.tree = t.tree) {m m' : List Int64}
    (hm : m = s.tree.measures.fold (cs.map Subtree.measures))
    (hm' : m' = s.tree.measures.fold (cs'.map Subtree.measures))
    (hpage : t'.pager.page? f.ref = some (Subtree.inner f.ref m ks cs).page)
    (hpage' : t'.pager.page? new = some (Subtree.inner new m' ks' cs').page) :
    Grown s t' e (d + 1) (f.plug old) (f.ref :: path) (used ++ [new])
      (.pair (.inner f.ref m ks cs) median (.inner new m' ks' cs')) (some ⟨median, new⟩) := by
  have hfits := h.fits hold
  -- the two halves share out the children of the page with the row hung into it
  have hchildren : (f.hang row).children = cs ++ cs' := hcs
  obtain ⟨-, hregular, hfilled⟩ := Subtree.regular_inner.mp (Frame.regular_hang hf hfits)
  rw [hcs] at hregular hfilled
  obtain ⟨-, hnot⟩ := h.notMem_children hnd
  have hstored := h.stored_children hsides
  rw [hchildren] at hnot hstored
  have hpages : ∀ c ∈ cs ++ cs', c.StoredIn t'.pager.page? := fun c hc =>
    (hstored c hc).congr fun r hr => hredrawn.frame r fun hmem => hnot c hc r hmem hr
  obtain ⟨hcs₁, hcs₂⟩ := List.forall_mem_append.mp hpages
  obtain ⟨hreg₁, hreg₂⟩ := List.forall_mem_append.mp hregular
  obtain ⟨hfill₁, hfill₂⟩ := List.forall_mem_append.mp hfilled
  refine {
    content := h.content.hang hf hr hne htree (Frame.surrounds_cut hf.low hfits.length hks hcs hlower _ _ _ _)
    carries := .pair _ _ _
    redrawn := ?_
    path := ?_
    stored := Row.storedIn_pair.mpr
      ⟨Subtree.storedIn_inner.mpr ⟨hpage, hcs₁⟩, Subtree.storedIn_inner.mpr ⟨hpage', hcs₂⟩⟩
    refs := ?_
    regular := List.forall_mem_cons.mpr
      ⟨.inner hlower hreg₁ hfill₁, List.forall_mem_singleton.mpr (.inner hupper hreg₂ hfill₂)⟩
    size_le := List.forall_mem_cons.mpr ⟨hsize.2, List.forall_mem_singleton.mpr hsize'.2⟩
    size_ge := List.forall_mem_cons.mpr ⟨.inr hsize.1, List.forall_mem_singleton.mpr (.inr hsize'.1)⟩
    full := fun _ => List.forall_mem_cons.mpr ⟨hsize, List.forall_mem_singleton.mpr hsize'⟩
    measured := fun hmeas => ?_ }
  · have : path ++ used ⊆ f.ref :: path ++ (used ++ [new]) := by
      intro r hr
      rcases List.mem_append.mp hr with hr | hr
      · exact List.mem_append_left _ (List.mem_cons_of_mem _ hr)
      · exact List.mem_append_right _ (List.mem_append_left _ hr)
    refine (h.redrawn.mono this).trans (hredrawn.mono ?_)
    exact List.cons_subset.mpr ⟨by simp, List.cons_subset.mpr ⟨by simp, List.nil_subset _⟩⟩
  · refine List.cons_subset.mpr ⟨Subtree.ref_mem_refs (f.plug old), fun r hr => ?_⟩
    exact (f.refs_plug old).symm.subset (List.mem_append_left _ (h.path hr))
  · have hperm := h.refs_hang (f := f).append_right [new]
    rw [Frame.hang, hcs, Subtree.refs_inner, List.append_assoc] at hperm
    refine List.Perm.trans ?_ hperm
    rw [Row.refs_pair, Subtree.refs_inner, Subtree.refs_inner, List.flatMap_append, List.cons_append,
      List.cons_append, List.append_assoc]
    exact ((List.perm_append_singleton new _).symm.append_left _).cons _
  · obtain ⟨hm₁, hm₂⟩ := List.forall_mem_append.mp (hchildren ▸ h.measured_children hmeas)
    exact Row.measured_pair.mpr ⟨Subtree.measured_inner.mpr ⟨hm.trans (Subtree.fold_measures hm₁), hm₁⟩,
      Subtree.measured_inner.mpr ⟨hm'.trans (Subtree.fold_measures hm₂), hm₂⟩⟩

/-- A full page takes the right half of a split and is cut in two. -/
theorem addToInner_full {half : Split K} (h : Grown s t e d old path used row (some half))
    (hf : f.Fits s.tree.config.pageSize d) (hr : f.Routes e.1) (hne : old.leaves ≠ [])
    (hold : old.Filled s.tree.config.pageSize) (hps : 2 ≤ s.tree.config.pageSize)
    (hfull : f.size = s.tree.config.pageSize) (hsides : ∀ c ∈ f.sides, c.StoredIn t.pager.page?)
    {new : PageRef} {page : Page K I} (hnew : t.pager.page? new = some page) (hname : page.ref = new)
    (hnd : ((f.plug old).refs ++ (used ++ [new])).Nodup)
    (hpage : t.pager.page? f.ref = some (f.page old.ref)) (reserved : List PageRef) {pins : Pins}
    (hpins : ∀ c ∈ (f.hang row).children, c.ref ∈ pins) :
    ∃ row' split' t', Action.Runs (addToInner f.ref f.low.length half (s.tree.measures.ofItem e.2)
        (new :: reserved) pins) t (split', reserved) t'
      ∧ Grown s t' e (d + 1) (f.plug old) (f.ref :: path) (used ++ [new]) row' split' ∧ split' ≠ none := by
  have hlen := (Subtree.regular_inner.mp (Frame.regular_hang hf (h.fits hold))).1
  have hstored := h.stored_children hsides
  obtain ⟨hne', hnot⟩ := h.notMem_children hnd
  obtain ⟨b, key, u, hrow, hb, rfl⟩ := h.carries.eq_pair
  have hsize : (f.lowKeys ++ (row.keys ++ f.highKeys)).length = s.tree.config.pageSize + 1 := by
    rw [← hfull, hrow]
    exact f.size_hang (.pair b key u)
  obtain ⟨ks, median, ks', cs, cs', hks, hcs, hcut, hmid, hsplit⟩ :=
    Inner.exists_split Subtree.ref hlen (by omega)
  have hupper : cs'.length = ks'.length + 1 := by
    rw [hks, hcs, List.length_append, List.length_append, List.length_cons] at hlen
    omega
  have hks' : ks.length + ks'.length = s.tree.config.pageSize := by
    rw [hks, List.length_append, List.length_cons] at hsize
    omega
  rw [show (f.hang row).children = cs ++ cs' from hcs] at hstored hpins hnot
  let m := s.tree.measures.fold (cs.map Subtree.measures)
  let m' := s.tree.measures.fold (cs'.map Subtree.measures)
  let t₁ := t.draw f.ref (.inner ⟨ks, cs.map Subtree.ref⟩) m
  let t₂ := t₁.draw new (.inner ⟨ks', cs'.map Subtree.ref⟩) m'
  have hredrawn : Redrawn [f.ref, new] t t₂ := (redrawn_draw t f.ref _ m).append (redrawn_draw t₁ new _ m')
  have hlower : t₂.pager.page? f.ref = some (Subtree.inner f.ref m ks cs).page :=
    (page?_draw_ne hne'.symm _ _).trans (page?_draw hpage rfl _ _)
  have hright : t₂.pager.page? new = some (Subtree.inner new m' ks' cs').page :=
    page?_draw ((page?_draw_ne hne' _ _).trans hnew) hname _ _
  refine ⟨_, some ⟨median, new⟩, t₂, ?_, h.cut hf hr hne hold hsides hnd hks hcs hcut hupper (by omega) (by omega)
    hredrawn rfl rfl rfl hlower hright, by simp⟩
  have hwhole := Frame.insertAfter?_eq hf.low b key u
  have hruns := splitInner_runs f.ref new ⟨key, u.ref⟩ hwhole (hrow ▸ hsplit) hpins (fun c hc => (hstored c hc).top)
    fun c hc heq => hnot c hc f.ref List.mem_cons_self (heq ▸ Subtree.ref_mem_refs c)
  rw [hb, h.redrawn.measures] at hruns
  unfold addToInner
  refine (held_runs hpage).bind ?_
  refine (Action.runs_get t).bind ?_
  rw [if_neg (by rw [h.redrawn.config, Inner.size, List.length_append]; exact hfull ▸ Nat.lt_irrefl _)]
  refine (Action.runs_pure (new, reserved) t).bind ?_
  exact hruns.bind (Action.runs_pure _ t₂)

/-- One step up. -/
theorem carryUp_step (h : Grown s t e d old path used row split) (hf : f.Fits s.tree.config.pageSize d)
    (hr : f.Routes e.1) (hne : old.leaves ≠ []) (hold : old.Filled s.tree.config.pageSize)
    (hps : 2 ≤ s.tree.config.pageSize) (hsize : f.size ≤ s.tree.config.pageSize)
    (hpage : s.pager.page? f.ref = some (f.page old.ref)) (hsides : ∀ c ∈ f.sides, c.StoredIn s.pager.page?)
    {reserved : List PageRef} (hnd : ((f.plug old).refs ++ (used ++ reserved)).Nodup)
    (hnames : ∀ n ∈ reserved, (s.pager.page? n).map Page.ref = some n)
    (hres : split ≠ none → f.size = s.tree.config.pageSize → reserved ≠ []) {pins : Pins}
    (hpins : split ≠ none → f.size = s.tree.config.pageSize → ∀ r ∈ (f.page old.ref).children, r ∈ pins)
    (steps : List (Tree.Step K I)) : ∃ row' split' used' rest pins' t', reserved = used' ++ rest
      ∧ Grown s t' e (d + 1) (f.plug old) (f.ref :: path) (used ++ used') row' split'
      ∧ pins ⊆ pins'
      ∧ used'.length = (if split ≠ none ∧ f.size = s.tree.config.pageSize then 1 else 0)
      ∧ (split' ≠ none ↔ split ≠ none ∧ f.size = s.tree.config.pageSize)
      ∧ ∀ {out u}, Action.Runs (carryUp (s.tree.measures.ofItem e.2) steps split' rest pins') t' out u →
        Action.Runs (carryUp (s.tree.measures.ofItem e.2) (⟨f.page old.ref, f.low.length⟩ :: steps) split
          reserved pins) t out u := by
  have hnd' : ((f.plug old).refs ++ used).Nodup := by
    rw [← List.append_assoc] at hnd
    exact (List.nodup_append.mp hnd).1
  have hpage' : t.pager.page? f.ref = some (f.page old.ref) := by
    rw [h.frame hnd' List.mem_cons_self, hpage]
  have hsides' : ∀ c ∈ f.sides, c.StoredIn t.pager.page? := fun c hc =>
    (hsides c hc).congr fun r hr =>
      h.frame hnd' (List.mem_cons_of_mem _ (List.mem_flatMap.mpr ⟨c, hc, hr⟩))
  cases split with
  | none =>
    obtain ⟨row', t', hrun, hgrown⟩ := addMeasures_grown h hf hr hne hold hsize hsides' hnd' hpage'
    refine ⟨row', none, [], reserved, pins, t', rfl, by rwa [List.append_nil], List.Subset.refl _, by simp,
      by simp, fun hrest => ?_⟩
    exact hrun.bind hrest
  | some half =>
    -- a split below ends at a page with room; a full page uses up one of the new pages
    rcases Nat.lt_or_ge f.size s.tree.config.pageSize with hroom | hfull
    · obtain ⟨row', t', hrun, hgrown⟩ := addToInner_room h hf hr hne hold hroom hsides' hnd' hpage' reserved
        (half.right :: pins)
      refine ⟨row', none, [], reserved, half.right :: pins, t', rfl, by rwa [List.append_nil],
        List.subset_cons_self _ _, ?_, ?_, fun hrest => ?_⟩
      · rw [if_neg (fun hc => Nat.ne_of_lt hroom hc.2)]
        rfl
      · simpa using Nat.ne_of_lt hroom
      · exact hrun.bind hrest
    · have hfull' := Nat.le_antisymm hsize hfull
      obtain ⟨new, reserved, rfl⟩ := List.exists_cons_of_ne_nil (hres (by simp) hfull')
      obtain ⟨page, hnew, hname⟩ := Option.map_eq_some_iff.mp
        ((h.redrawn.names new).trans (hnames new List.mem_cons_self))
      have hnd'' : ((f.plug old).refs ++ (used ++ [new])).Nodup := by
        rw [List.append_cons used, ← List.append_assoc] at hnd
        exact (List.nodup_append.mp hnd).1
      -- the right half below is pinned as it comes up, all others were before
      have hpins' : ∀ c ∈ (f.hang row).children, c.ref ∈ half.right :: pins := by
        obtain ⟨b, key, u, rfl, hb, rfl⟩ := h.carries.eq_pair
        intro c hc
        have hall := hpins (by simp) hfull'
        rcases List.mem_append.mp hc with hc | hc
        · exact List.mem_cons_of_mem _ (hall c.ref (List.mem_append_left _ (List.mem_map_of_mem hc)))
        · rcases List.mem_cons.mp hc with rfl | hc
          · rw [hb]
            exact List.mem_cons_of_mem _ (hall _ (List.mem_append_right _ List.mem_cons_self))
          · rcases List.mem_cons.mp hc with rfl | hc
            · exact List.mem_cons_self
            · exact List.mem_cons_of_mem _ (hall c.ref
                (List.mem_append_right _ (List.mem_cons_of_mem _ (List.mem_map_of_mem hc))))
      obtain ⟨row', split', t', hrun, hgrown, hsplit⟩ := addToInner_full h hf hr hne hold hps hfull' hsides'
        hnew hname hnd'' hpage' reserved hpins'
      refine ⟨row', split', [new], reserved, half.right :: pins, t', rfl, hgrown,
        List.subset_cons_self _ _, ?_, ?_, fun hrest => ?_⟩
      · rw [if_pos ⟨by simp, hfull'⟩]
        rfl
      · simp [hsplit, hfull']
      · exact hrun.bind hrest

/-- The way up: each page of the spine carries the growth one level further. -/
theorem carryUp_grown {fs : List (Frame K I)} (h : Grown s t e d old path used row split)
    (hfits : Spine.Fits s.tree.config.pageSize d fs) (hr : ∀ f ∈ fs, f.Routes e.1) (hne : old.leaves ≠ [])
    (hold : fs ≠ [] → old.Filled s.tree.config.pageSize) (hps : 2 ≤ s.tree.config.pageSize)
    (hst : Spine.StoredIn s.pager.page? old.ref fs) {reserved : List PageRef}
    (hnd : ((plugAll fs old).refs ++ (used ++ reserved)).Nodup)
    (hnames : ∀ n ∈ reserved, (s.pager.page? n).map Page.ref = some n)
    (hres : split ≠ none → Spine.full s.tree.config.pageSize fs ≤ reserved.length) (pins : Pins)
    (hpins : split ≠ none → ∀ step ∈ (Spine.steps old.ref fs).take (Spine.full s.tree.config.pageSize fs),
      ∀ r ∈ step.page.children, r ∈ pins) :
    ∃ row' split' used' rest t', reserved = used' ++ rest
      ∧ Action.Runs (carryUp (s.tree.measures.ofItem e.2) (Spine.steps old.ref fs) split reserved pins) t
        (split', rest) t'
      ∧ Grown s t' e (d + fs.length) (plugAll fs old) ((fs.map Frame.ref).reverse ++ path) (used ++ used')
        row' split'
      ∧ used'.length = (if split ≠ none then Spine.full s.tree.config.pageSize fs else 0)
      ∧ (split' ≠ none ↔ split ≠ none ∧ Spine.full s.tree.config.pageSize fs = fs.length) := by
  induction fs generalizing t d old path used row split reserved pins with
  | nil =>
    refine ⟨row, split, [], reserved, t, rfl, Action.runs_pure _ t, ?_, by simp [Spine.full],
      fun hs => ⟨hs, rfl⟩, fun hs => hs.1⟩
    rw [List.append_nil]
    exact h
  | cons f fs ih =>
    obtain ⟨hfit, hsize, hmin, hfits'⟩ := hfits
    obtain ⟨hpage, hsides, hst'⟩ := hst
    have hfull : ∀ n, f.size = s.tree.config.pageSize →
        n ∈ (Spine.steps f.ref fs).take (Spine.full s.tree.config.pageSize fs) →
        n ∈ (Spine.steps old.ref (f :: fs)).take (Spine.full s.tree.config.pageSize (f :: fs)) := by
      intro n hf hn
      rw [Spine.full_cons_of_full hf, Spine.steps, List.take_succ_cons]
      exact List.mem_cons_of_mem _ hn
    obtain ⟨row₁, split₁, used₁, rest₁, pins₁, t₁, rfl, hgrown, hsub, hlen, hsplit, hrun⟩ :=
      carryUp_step h hfit (hr f List.mem_cons_self) hne (hold (by simp)) hps hsize hpage hsides
        (Spine.nodup_of_plugAll (show ((plugAll fs _).refs ++ _).Nodup from hnd)) hnames
        (fun hs hf hnil => by
          have := hres hs
          rw [Spine.full_cons_of_full hf, hnil] at this
          simp at this)
        (fun hs hf => hpins hs _ (by
          rw [Spine.full_cons_of_full hf, Spine.steps, List.take_succ_cons]
          exact List.mem_cons_self))
        (Spine.steps f.ref fs)
    -- what is split here is what the rest of the way gets from below
    have hne' : (f.plug old).leaves ≠ [] := by
      rw [Frame.leaves_plug]
      simp [hne]
    obtain ⟨row', split', used', rest, t', rfl, hrun', hgrown', hlen', hsplit'⟩ :=
      ih hgrown hfits' (fun g hg => hr g (List.mem_cons_of_mem f hg)) hne'
        (fun hfs => by
          rw [if_neg hfs] at hmin
          exact ⟨by rwa [Frame.size_plug], by rwa [Frame.size_plug]⟩)
        hst' (by rw [List.append_assoc]; exact hnd)
        (fun n hn => hnames n (List.mem_append_right used₁ hn))
        (fun hs => by
          obtain ⟨hs, hf⟩ := hsplit.mp hs
          have := hres hs
          rw [if_pos ⟨hs, hf⟩] at hlen
          rw [Spine.full_cons_of_full hf, List.length_append, hlen] at this
          omega)
        pins₁
        (fun hs step hstep r hrs => by
          obtain ⟨hs, hf⟩ := hsplit.mp hs
          exact hsub (hpins hs step (hfull step hf hstep) r hrs))
    refine ⟨row', split', used₁ ++ used', rest, t', by rw [List.append_assoc], hrun hrun', ?_, ?_, ?_⟩
    · rw [List.length_cons, show d + (fs.length + 1) = d + 1 + fs.length by omega, List.map_cons,
        List.reverse_cons, List.append_assoc, ← List.append_assoc used]
      exact hgrown'
    · rw [List.length_append, hlen, hlen']
      by_cases hs : split ≠ none
      · rw [if_pos hs]
        by_cases hf : f.size = s.tree.config.pageSize
        · rw [if_pos ⟨hs, hf⟩, if_pos (hsplit.mpr ⟨hs, hf⟩), Spine.full_cons_of_full hf, Nat.add_comm]
        · rw [if_neg (fun h => hf h.2), if_neg (fun h => hf (hsplit.mp h).2),
            Spine.full_cons_of_room (Nat.lt_of_le_of_ne hsize hf)]
      · rw [if_neg hs, if_neg (fun h => hs h.1), if_neg (fun h => hs (hsplit.mp h).1)]
    · rw [hsplit', hsplit, List.length_cons]
      by_cases hf : f.size = s.tree.config.pageSize
      · rw [Spine.full_cons_of_full hf]
        simp [hf]
      · rw [Spine.full_cons_of_room (Nat.lt_of_le_of_ne hsize hf)]
        simp [hf]

end Index

end PagedIndex
