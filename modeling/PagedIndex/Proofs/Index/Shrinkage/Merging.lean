import PagedIndex.Index.Remove
import PagedIndex.Proofs.Index.Changes
import PagedIndex.Proofs.Pages
import PagedIndex.Proofs.Subtree.Measured
import PagedIndex.Proofs.Subtree.Refit

/-!
# Merging two neighbours

Two neighbouring pages, one of which may lack a slot, become one page or share their slots anew. Either way
the row that comes out has what the two had, in the same order, and its pages are filled.
-/

namespace PagedIndex

variable {K I : Type}

/-- The page that a merge leaves over, the right one being called `right`. -/
def Merged.freed (right : PageRef) : Merged K → List PageRef
  | .absorbed => [right]
  | .rebalanced _ => []

theorem Merged.freed_subset (outcome : Merged K) (right : PageRef) : outcome.freed right ⊆ [right] := by
  cases outcome with
  | absorbed => exact List.Subset.refl _
  | rebalanced => exact List.nil_subset _

/-- The last leaf after a merge: if it was the right page and this one is left over, it is the left one. -/
def Merged.redirect (left right last : PageRef) : Merged K → PageRef
  | .absorbed => if last = right then left else last
  | .rebalanced _ => last

/-- What a merge leaves in the place of two pages of these names. -/
inductive Row.MergedAs (left right : PageRef) : Merged K → Row K I → Prop where
  | absorbed {t : Subtree K I} : t.ref = left → MergedAs left right .absorbed (.single t)
  | rebalanced {t u : Subtree K I} {key : K} : t.ref = left → u.ref = right →
    MergedAs left right (.rebalanced key) (.pair t key u)

theorem Row.MergedAs.length_keys_le {left right : PageRef} {outcome : Merged K} {row : Row K I}
    (h : row.MergedAs left right outcome) : row.keys.length ≤ 1 := by
  cases h with
  | absorbed => exact Nat.zero_le 1
  | rebalanced => exact Nat.le_refl 1

/-- What comes out of a merge keeps the names of what went in. -/
theorem Row.MergedAs.ref_mem {a b : Subtree K I} {outcome : Merged K} {row : Row K I}
    (h : row.MergedAs a.ref b.ref outcome) : ∀ x ∈ row.trees, ∃ y ∈ [a, b], x.ref = y.ref := by
  cases h with
  | absorbed ht => exact List.forall_mem_singleton.mpr ⟨a, List.mem_cons_self, ht⟩
  | rebalanced ht hu =>
    refine List.forall_mem_cons.mpr ⟨⟨a, List.mem_cons_self, ht⟩, List.forall_mem_singleton.mpr ?_⟩
    exact ⟨b, List.mem_cons_of_mem a List.mem_cons_self, hu⟩

namespace Index

variable [Ord K]

/-- Between `s` and `t`, the neighbours `a` and `b` have been merged into a row. -/
structure Regrouped (s t : Index K I) (d : Nat) (a : Subtree K I) (key : K) (b : Subtree K I)
    (outcome : Merged K) (row : Row K I) : Prop where
  merged : row.MergedAs a.ref b.ref outcome
  redrawn : Redrawn [a.ref, b.ref] s t
  tree : t.tree = s.tree
  stored : row.StoredIn t.pager.page?
  fits : row.Fits s.tree.config.pageSize d
  entries : row.entries = a.entries ++ b.entries
  refits : ∀ last, (Row.pair a key b).Refits none row last (outcome.redirect a.ref b.ref last)
  refs : (row.refs ++ outcome.freed b.ref).Perm (a.refs ++ b.refs)
  measured : a.Measured s.tree.measures → b.Measured s.tree.measures → row.Measured s.tree.measures

/-- Apart from the two, every page is as it was. -/
theorem Regrouped.frame {s t : Index K I} {d : Nat} {a b : Subtree K I} {key : K} {outcome : Merged K} {row : Row K I}
    (h : Regrouped s t d a key b outcome row) {r : PageRef} (hr : r ∉ a.refs ++ b.refs) :
    t.pager.page? r = s.pager.page? r := by
  refine h.redrawn.frame r fun hin => hr ?_
  rcases List.mem_cons.mp hin with rfl | hin
  · exact List.mem_append_left _ a.ref_mem_refs
  · rw [List.mem_singleton.mp hin]
    exact List.mem_append_right _ b.ref_mem_refs

section Leaves

variable [Std.TransOrd K] {s : Index K I} {ra rb : PageRef} {ma mb : List Int64} {a b : Leaf K I}

/-- Both leaves fit into the left one. -/
theorem absorbLeaf_runs (ha : s.pager.page? ra = some ⟨ra, ma, .leaf a⟩)
    (hb : s.pager.page? rb = some ⟨rb, mb, .leaf b⟩) (hne : ra ≠ rb)
    (hlo : s.tree.config.pageSize / 2 ≤ a.size + b.size) (hle : a.size + b.size ≤ s.tree.config.pageSize)
    (hmerge : a.merge b s.tree.config.pageSize = (.absorbed, ⟨a.entries ++ b.entries, b.right⟩, .empty))
    (pins : Pins) (parent : PageRef) (key : K) : ∃ row t,
      Action.Runs (mergePages pins parent key ⟨ra, ma, .leaf a⟩ ⟨rb, mb, .leaf b⟩) s .absorbed t
        ∧ Regrouped s t 0 (.leaf ra ma a) key (.leaf rb mb b) .absorbed row := by
  let l : Leaf K I := ⟨a.entries ++ b.entries, b.right⟩
  let m := s.tree.measures.add ma mb
  let s₁ := s.withNode ra (.leaf l)
  let s₂ := s₁.withNode rb (.leaf .empty)
  have hpage : s₂.pager.page? ra = some ⟨ra, ma, .leaf l⟩ :=
    (page?_withNode_ne hne.symm _).trans (page?_withNode ha _)
  have hsize : (Subtree.leaf ra m l).size = a.size + b.size := List.length_append
  refine ⟨.single (.leaf ra m l), s₂.withMeasures ra m, ?_, {
    merged := .absorbed rfl
    redrawn := ?_
    tree := rfl
    stored := Row.storedIn_single.mpr (Subtree.storedIn_leaf.mpr (page?_withMeasures hpage m))
    fits := Row.fits_single.mpr ⟨.leaf, by rw [hsize]; exact hlo, by rw [hsize]; exact hle⟩
    entries := by
      rw [Row.entries_single, Subtree.entries_leaf, Subtree.entries_leaf, Subtree.entries_leaf]
    refits := fun last => .leaves (.single rfl) ?_ ?_ ?_
    refs := by
      rw [Row.refs_single, Subtree.refs_leaf, Subtree.refs_leaf, Subtree.refs_leaf]
      rfl
    measured := fun hma hmb => ?_ }⟩
  · unfold mergePages
    refine (Action.runs_get s).bind ?_
    dsimp only
    rw [hmerge]
    refine (setNode_runs s ra _).bind ?_
    refine (setNode_runs s₁ rb _).bind ?_
    exact (addMeasures_runs hpage mb).bind (Action.runs_pure _ _)
  · refine Redrawn.trans (t := s₂) ?_ ((redrawn_withMeasures s₂ ra m).mono (by simp [Subtree.ref]))
    exact (redrawn_withNode s ra _).append (redrawn_withNode s₁ rb _)
  · intro _
    rw [Row.leaves_single, Subtree.leaves_leaf]
    exact ⟨rfl, trivial⟩
  · intro next
    rw [Row.leaves_single, Subtree.leaves_leaf]
    rfl
  · intro rest hnd hlast
    rw [Row.leaves_single, Subtree.leaves_leaf]
    show lastRef none ((ra, l) :: rest) = some (if last = rb then ra else last)
    cases rest with
    | nil =>
      obtain rfl : rb = last := Option.some.inj hlast
      rw [if_pos rfl]
      rfl
    | cons leaf rest =>
      -- the last leaf is another one, so it is not the right page
      have hlast' : lastRef none (leaf :: rest) = some last := hlast
      have hmem := lastRef_mem hlast'
      rw [if_neg]
      · exact hlast'
      · rintro rfl
        exact (List.nodup_append.mp hnd).2.2 last (by simp) last hmem rfl
  · rw [Subtree.measured_leaf] at hma hmb
    rw [Row.measured_single, Subtree.measured_leaf]
    show s.tree.measures.add ma mb = _
    rw [hma, hmb, ← MeasureSet.ofItems_append, Leaf.items, Leaf.items, Leaf.items, List.map_append]

/-- Two leaves that do not fit into one share their entries anew. -/
theorem rebalanceLeaves_runs {lower upper : Leaf K I} {sep : K}
    (ha : s.pager.page? ra = some ⟨ra, ma, .leaf a⟩) (hb : s.pager.page? rb = some ⟨rb, mb, .leaf b⟩)
    (hne : ra ≠ rb) (hentries : lower.entries ++ upper.entries = a.entries ++ b.entries)
    (hlright : lower.right = a.right) (huright : upper.right = b.right) (hsep : upper.firstKey? = some sep)
    (hlower : (Subtree.leaf ra ma lower).Filled s.tree.config.pageSize)
    (hupper : (Subtree.leaf rb mb upper).Filled s.tree.config.pageSize)
    (hmerge : a.merge b s.tree.config.pageSize = (.rebalanced sep, lower, upper))
    (pins : Pins) (parent : PageRef) (key : K) : ∃ row t,
      Action.Runs (mergePages pins parent key ⟨ra, ma, .leaf a⟩ ⟨rb, mb, .leaf b⟩) s (.rebalanced sep) t
        ∧ Regrouped s t 0 (.leaf ra ma a) key (.leaf rb mb b) (.rebalanced sep) row := by
  let m := s.tree.measures.ofItems lower.items
  let m' := s.tree.measures.ofItems upper.items
  let s₁ := s.withNode ra (.leaf lower)
  let s₂ := s₁.withNode rb (.leaf upper)
  let s₃ := s₂.withMeasures ra m
  have hpa : s₃.pager.page? ra = some ⟨ra, m, .leaf lower⟩ :=
    page?_withMeasures ((page?_withNode_ne hne.symm _).trans (page?_withNode ha _)) m
  have hpb : s₃.pager.page? rb = some ⟨rb, mb, .leaf upper⟩ :=
    (page?_withMeasures_ne hne m).trans (page?_withNode ((page?_withNode_ne hne _).trans hb) _)
  refine ⟨.pair (.leaf ra m lower) sep (.leaf rb m' upper), s₃.withMeasures rb m', ?_, {
    merged := .rebalanced rfl rfl
    redrawn := ?_
    tree := rfl
    stored := Row.storedIn_pair.mpr
      ⟨Subtree.storedIn_leaf.mpr ((page?_withMeasures_ne hne.symm m').trans hpa),
        Subtree.storedIn_leaf.mpr (page?_withMeasures hpb m')⟩
    fits := Row.fits_pair.mpr ⟨⟨.leaf, hlower⟩, .leaf, hupper⟩
    entries := by
      rw [Row.entries_pair, Subtree.entries_leaf, Subtree.entries_leaf, Subtree.entries_leaf,
        Subtree.entries_leaf, hentries]
    refits := fun last => .leaves (.pair hentries hsep) ?_ ?_ ?_
    refs := by
      rw [Row.refs_pair, Subtree.refs_leaf, Subtree.refs_leaf, Subtree.refs_leaf, Subtree.refs_leaf,
        Merged.freed, List.append_nil]
    measured := fun _ _ => Row.measured_pair.mpr ⟨Subtree.measured_leaf.mpr rfl, Subtree.measured_leaf.mpr rfl⟩ }⟩
  · unfold mergePages
    refine (Action.runs_get s).bind ?_
    dsimp only
    rw [hmerge]
    refine (setNode_runs s ra _).bind ?_
    refine (setNode_runs s₁ rb _).bind ?_
    refine (setMeasures_runs s₂ ra m).bind ?_
    exact (setMeasures_runs s₃ rb m').bind (Action.runs_pure _ _)
  · refine Redrawn.trans (t := s₃) (Redrawn.trans (t := s₂) ?_ ?_) ?_
    · exact (redrawn_withNode s ra _).append (redrawn_withNode s₁ rb _)
    · exact (redrawn_withMeasures s₂ ra m).mono (by simp [Subtree.ref])
    · exact (redrawn_withMeasures s₃ rb m').mono (by simp [Subtree.ref])
  · intro hright
    rw [Row.leaves_pair, Subtree.leaves_leaf, Subtree.leaves_leaf]
    exact ⟨hlright.trans hright, huright, trivial⟩
  · intro next
    rw [Row.leaves_pair, Subtree.leaves_leaf]
    rfl
  · intro rest _ hlast
    rw [Row.leaves_pair, Subtree.leaves_leaf, Subtree.leaves_leaf, Merged.redirect, ← hlast]
    exact lastRef_congr rfl none

end Leaves

section Inner

variable {s : Index K I} {d : Nat} {ra rb : PageRef} {ma mb : List Int64} {ks ks' : List K}
  {cs cs' : List (Subtree K I)} {key : K}

/-- Inner pages leave order and links to what is below them, and none of them is the last leaf. -/
theorem refits_inner {row : Row K I} (hlen : cs.length = ks.length + 1)
    (hwalk : row.walk = weave (ks ++ key :: ks') ((cs ++ cs').map Subtree.walk))
    (hleaves : row.leaves = (cs ++ cs').flatMap Subtree.leaves) (outcome : Merged K) (last : PageRef) :
    (Row.pair (.inner ra ma ks cs) key (.inner rb mb ks' cs')).Refits none row last
      (outcome.redirect ra rb last) := by
  have hleaves' : row.leaves = (Row.pair (.inner ra ma ks cs) key (.inner rb mb ks' cs')).leaves := by
    rw [hleaves, Row.leaves_pair, Subtree.leaves_inner, Subtree.leaves_inner, List.flatMap_append]
  have h : (Row.pair (.inner ra ma ks cs) key (.inner rb mb ks' cs')).Refits none row last last :=
    .of_eq (hwalk.trans (Row.walk_pair_inner hlen key ks' cs').symm) hleaves'
  refine { h with last := fun rest hl hnd hlast => ?_ }
  have hsame := h.last rest hl hnd hlast
  suffices outcome.redirect ra rb last = last by rwa [this]
  cases outcome with
  | rebalanced sep => rfl
  | absorbed =>
    -- the absorbed page is inner, so it is not the last leaf
    refine if_neg ?_
    rintro rfl
    have hmem := lastRef_mem hlast
    rw [Row.leaves_pair, Subtree.leaves_inner, Subtree.leaves_inner, List.map_append, List.map_append] at hmem
    rw [Row.refs_pair, Subtree.refs_inner last, List.append_assoc] at hnd
    obtain ⟨-, hnd, hdisj⟩ := List.nodup_append.mp hnd
    rw [List.cons_append] at hnd hdisj
    rcases List.mem_append.mp hmem with hmem | hmem
    · rcases List.mem_append.mp hmem with hmem | hmem
      · refine hdisj last ?_ last List.mem_cons_self rfl
        rw [Subtree.refs_inner]
        exact List.mem_cons_of_mem _ ((Subtree.flatMap_leaves_sublist_refs cs).subset hmem)
      · refine (List.nodup_cons.mp hnd).1 (List.mem_append_left _ ?_)
        exact (Subtree.flatMap_leaves_sublist_refs cs').subset hmem
    · exact (List.nodup_cons.mp hnd).1 (List.mem_append_right _ hmem)

omit [Ord K] in
/-- Two pages of a tree lie below none of their children. -/
theorem notMem_children_of_nodup
    (h : ((Subtree.inner ra ma ks cs).refs ++ (Subtree.inner rb mb ks' cs').refs).Nodup) :
    ra ≠ rb ∧ ∀ c ∈ cs ++ cs', ∀ r ∈ c.refs, r ∉ [ra, rb] := by
  rw [Subtree.refs_inner, Subtree.refs_inner] at h
  obtain ⟨ha, hb, hdisj⟩ := List.nodup_append.mp h
  refine ⟨hdisj ra List.mem_cons_self rb List.mem_cons_self, fun c hc r hr hmem => ?_⟩
  rcases List.mem_append.mp hc with hc | hc
  · have hr' : r ∈ cs.flatMap Subtree.refs := List.mem_flatMap.mpr ⟨c, hc, hr⟩
    rcases List.mem_cons.mp hmem with rfl | hmem
    · exact (List.nodup_cons.mp ha).1 hr'
    · exact hdisj r (List.mem_cons_of_mem _ hr') r (List.mem_singleton.mp hmem ▸ List.mem_cons_self) rfl
  · have hr' : r ∈ cs'.flatMap Subtree.refs := List.mem_flatMap.mpr ⟨c, hc, hr⟩
    rcases List.mem_cons.mp hmem with rfl | hmem
    · exact hdisj r List.mem_cons_self r (List.mem_cons_of_mem _ hr') rfl
    · exact (List.nodup_cons.mp hb).1 (List.mem_singleton.mp hmem ▸ hr')

/-- Both pages fit into the left one. -/
theorem absorbInner_runs (ha : (Subtree.inner ra ma ks cs).Regular s.tree.config.pageSize (d + 1))
    (hb : (Subtree.inner rb mb ks' cs').Regular s.tree.config.pageSize (d + 1))
    (hsa : (Subtree.inner ra ma ks cs).StoredIn s.pager.page?)
    (hsb : (Subtree.inner rb mb ks' cs').StoredIn s.pager.page?)
    (hnd : ((Subtree.inner ra ma ks cs).refs ++ (Subtree.inner rb mb ks' cs').refs).Nodup)
    (hlo : s.tree.config.pageSize / 2 ≤ ks.length + ks'.length)
    (hle : ks.length + 1 + ks'.length ≤ s.tree.config.pageSize)
    (hmerge : (⟨ks, cs.map Subtree.ref⟩ : Inner K).merge? key ⟨ks', cs'.map Subtree.ref⟩ s.tree.config.pageSize
      = some (.absorbed, ⟨ks ++ key :: ks', (cs ++ cs').map Subtree.ref⟩, ⟨[], []⟩))
    (pins : Pins) (parent : PageRef) : ∃ row t,
      Action.Runs (mergePages pins parent key (Subtree.inner ra ma ks cs).page
        (Subtree.inner rb mb ks' cs').page) s .absorbed t
        ∧ Regrouped s t (d + 1) (.inner ra ma ks cs) key (.inner rb mb ks' cs') .absorbed row := by
  obtain ⟨hla, hra, hfa⟩ := Subtree.regular_inner.mp ha
  obtain ⟨hlb, hrb, hfb⟩ := Subtree.regular_inner.mp hb
  obtain ⟨hne, hapart⟩ := notMem_children_of_nodup hnd
  let inner : Inner K := ⟨ks ++ key :: ks', (cs ++ cs').map Subtree.ref⟩
  let m := s.tree.measures.add ma mb
  let s₁ := s.withNode ra (.inner inner)
  let s₂ := s₁.withNode rb (.inner ⟨[], []⟩)
  let T : Subtree K I := .inner ra m (ks ++ key :: ks') (cs ++ cs')
  have hpage : s₂.pager.page? ra = some ⟨ra, ma, .inner inner⟩ :=
    (page?_withNode_ne hne.symm _).trans (page?_withNode hsa.top _)
  have hredrawn : Redrawn [ra, rb] s (s₂.withMeasures ra m) :=
    Redrawn.trans (t := s₂) ((redrawn_withNode s ra _).append (redrawn_withNode s₁ rb _))
      ((redrawn_withMeasures s₂ ra m).mono (by simp))
  -- with the separator between them, the slots of both make up one page
  have hlen : (ks ++ key :: ks').length = ks.length + 1 + ks'.length := by
    rw [List.length_append, List.length_cons]
    omega
  have hold := List.forall_mem_append.mpr ⟨fun c hc => hsa.child hc, fun c hc => hsb.child (c := c) hc⟩
  have hstored : T.StoredIn (s₂.withMeasures ra m).pager.page? :=
    Subtree.storedIn_inner.mpr ⟨page?_withMeasures hpage m, fun c hc =>
      (hold c hc).congr fun r hr => hredrawn.frame r (hapart c hc r hr)⟩
  refine ⟨.single T, s₂.withMeasures ra m, ?_, {
    merged := .absorbed rfl
    redrawn := hredrawn
    tree := rfl
    stored := Row.storedIn_single.mpr hstored
    fits := Row.fits_single.mpr ⟨.inner ?_ (List.forall_mem_append.mpr ⟨hra, hrb⟩)
      (List.forall_mem_append.mpr ⟨hfa, hfb⟩), ?_, ?_⟩
    entries := by
      rw [Row.entries_single, Subtree.entries_inner, Subtree.entries_inner, Subtree.entries_inner,
        List.flatMap_append]
    refits := fun last => refits_inner hla ?_ ?_ .absorbed last
    refs := ?_
    measured := fun hma hmb => ?_ }⟩
  · unfold mergePages
    refine (Action.runs_get s).bind ?_
    dsimp only [Subtree.page]
    refine (Action.runs_orAbort hmerge s).bind ?_
    refine (setNode_runs s ra _).bind ?_
    refine (setNode_runs s₁ rb _).bind ?_
    exact (addMeasures_runs hpage mb).bind (Action.runs_pure _ _)
  · rw [hlen, List.length_append]
    omega
  · rw [Subtree.size_inner, hlen]
    omega
  · rw [Subtree.size_inner, hlen]
    exact hle
  · rw [Row.walk_single, Subtree.walk_inner]
  · rw [Row.leaves_single, Subtree.leaves_inner]
  · rw [Row.refs_single, Subtree.refs_inner, Subtree.refs_inner, Subtree.refs_inner, List.flatMap_append]
    simp only [Merged.freed, Subtree.ref, List.cons_append, List.append_assoc]
    exact ((List.perm_append_singleton rb _).append_left _).cons ra
  · rw [Subtree.measured_inner] at hma hmb
    rw [Row.measured_single, Subtree.measured_inner]
    refine ⟨?_, List.forall_mem_append.mpr ⟨hma.2, hmb.2⟩⟩
    show s.tree.measures.add ma mb = _
    rw [hma.1, hmb.1, ← MeasureSet.ofItems_append, List.flatMap_append]

/-- Two pages that do not fit into one are cut anew, and folded from their children. -/
theorem rebalanceInner_runs {ls us : List K} {xs ys : List (Subtree K I)} {median : K}
    (ha : (Subtree.inner ra ma ks cs).Regular s.tree.config.pageSize (d + 1))
    (hb : (Subtree.inner rb mb ks' cs').Regular s.tree.config.pageSize (d + 1))
    (hsa : (Subtree.inner ra ma ks cs).StoredIn s.pager.page?)
    (hsb : (Subtree.inner rb mb ks' cs').StoredIn s.pager.page?)
    (hnd : ((Subtree.inner ra ma ks cs).refs ++ (Subtree.inner rb mb ks' cs').refs).Nodup)
    (hks : ks ++ key :: ks' = ls ++ median :: us) (hcs : cs ++ cs' = xs ++ ys)
    (hxs : xs.length = ls.length + 1) (hys : ys.length = us.length + 1)
    (hlower : s.tree.config.pageSize / 2 ≤ ls.length ∧ ls.length ≤ s.tree.config.pageSize)
    (hupper : s.tree.config.pageSize / 2 ≤ us.length ∧ us.length ≤ s.tree.config.pageSize)
    (hmerge : (⟨ks, cs.map Subtree.ref⟩ : Inner K).merge? key ⟨ks', cs'.map Subtree.ref⟩ s.tree.config.pageSize
      = some (.rebalanced median, ⟨ls, xs.map Subtree.ref⟩, ⟨us, ys.map Subtree.ref⟩))
    {pins : Pins} (hpins : ∀ c ∈ cs ++ cs', c.ref ∈ pins) (parent : PageRef) : ∃ row t,
      Action.Runs (mergePages pins parent key (Subtree.inner ra ma ks cs).page
        (Subtree.inner rb mb ks' cs').page) s (.rebalanced median) t
        ∧ Regrouped s t (d + 1) (.inner ra ma ks cs) key (.inner rb mb ks' cs') (.rebalanced median) row := by
  obtain ⟨hla, hra, hfa⟩ := Subtree.regular_inner.mp ha
  obtain ⟨-, hrb, hfb⟩ := Subtree.regular_inner.mp hb
  obtain ⟨hne, hapart⟩ := notMem_children_of_nodup hnd
  let m := s.tree.measures.fold (xs.map Subtree.measures)
  let m' := s.tree.measures.fold (ys.map Subtree.measures)
  let s₁ := s.withNode ra (.inner ⟨ls, xs.map Subtree.ref⟩)
  let s₂ := s₁.withNode rb (.inner ⟨us, ys.map Subtree.ref⟩)
  let s₃ := s₂.withMeasures ra m
  let t := s₃.withMeasures rb m'
  have hpa : s₃.pager.page? ra = some ⟨ra, m, .inner ⟨ls, xs.map Subtree.ref⟩⟩ :=
    page?_withMeasures ((page?_withNode_ne hne.symm _).trans (page?_withNode hsa.top _)) m
  have hpb : s₃.pager.page? rb = some ⟨rb, mb, .inner ⟨us, ys.map Subtree.ref⟩⟩ :=
    (page?_withMeasures_ne hne m).trans (page?_withNode ((page?_withNode_ne hne _).trans hsb.top) _)
  have hredrawn₂ : Redrawn [ra, rb] s s₂ := (redrawn_withNode s ra _).append (redrawn_withNode s₁ rb _)
  have hredrawn₃ : Redrawn [ra, rb] s s₃ :=
    hredrawn₂.trans ((redrawn_withMeasures s₂ ra m).mono (by simp))
  have hredrawn : Redrawn [ra, rb] s t := hredrawn₃.trans ((redrawn_withMeasures s₃ rb m').mono (by simp))
  have hold := List.forall_mem_append.mpr ⟨fun c hc => hsa.child hc, fun c hc => hsb.child (c := c) hc⟩
  -- the children are as they were in every state on the way
  have hchild : ∀ {v : Index K I}, Redrawn [ra, rb] s v → ∀ c ∈ xs ++ ys, c.StoredIn v.pager.page? :=
    fun hv c hc => (hold c (hcs ▸ hc)).congr fun r hr => hv.frame r (hapart c (hcs ▸ hc) r hr)
  obtain ⟨hpx, hpy⟩ := List.forall_mem_append.mp (hcs ▸ hpins)
  obtain ⟨hrx, hry⟩ := List.forall_mem_append.mp (hcs ▸ List.forall_mem_append.mpr ⟨hra, hrb⟩)
  obtain ⟨hfx, hfy⟩ := List.forall_mem_append.mp (hcs ▸ List.forall_mem_append.mpr ⟨hfa, hfb⟩)
  obtain ⟨hsx, hsy⟩ := List.forall_mem_append.mp (hchild hredrawn)
  refine ⟨.pair (.inner ra m ls xs) median (.inner rb m' us ys), t, ?_, {
    merged := .rebalanced rfl rfl
    redrawn := hredrawn
    tree := rfl
    stored := Row.storedIn_pair.mpr
      ⟨Subtree.storedIn_inner.mpr ⟨(page?_withMeasures_ne hne.symm m').trans hpa, hsx⟩,
        Subtree.storedIn_inner.mpr ⟨page?_withMeasures hpb m', hsy⟩⟩
    fits := Row.fits_pair.mpr ⟨⟨.inner hxs hrx hfx, hlower⟩, .inner hys hry hfy, hupper⟩
    entries := ?_
    refits := fun last => refits_inner hla ?_ ?_ (.rebalanced median) last
    refs := ?_
    measured := fun hma hmb => ?_ }⟩
  · unfold mergePages
    refine (Action.runs_get s).bind ?_
    dsimp only [Subtree.page]
    refine (Action.runs_orAbort hmerge s).bind ?_
    refine (setNode_runs s ra _).bind ?_
    refine (setNode_runs s₁ rb _).bind ?_
    refine (foldPinned_runs (s := s₂) hpx fun c hc => (hchild hredrawn₂ c (List.mem_append_left _ hc)).top).bind ?_
    refine (setMeasures_runs s₂ ra m).bind ?_
    refine (foldPinned_runs (s := s₃) hpy fun c hc => (hchild hredrawn₃ c (List.mem_append_right _ hc)).top).bind ?_
    exact (setMeasures_runs s₃ rb m').bind (Action.runs_pure _ _)
  · rw [Row.entries_pair, Subtree.entries_inner, Subtree.entries_inner, Subtree.entries_inner,
      Subtree.entries_inner, ← List.flatMap_append, ← List.flatMap_append, hcs]
  · rw [Row.walk_pair_inner hxs, hks, hcs]
  · rw [Row.leaves_pair, Subtree.leaves_inner, Subtree.leaves_inner, ← List.flatMap_append, hcs]
  · rw [Row.refs_pair, Subtree.refs_inner, Subtree.refs_inner, Subtree.refs_inner, Subtree.refs_inner,
      Merged.freed, List.append_nil]
    refine List.Perm.cons ra (List.perm_middle.trans ?_)
    rw [← List.flatMap_append, ← hcs, List.flatMap_append]
    exact List.perm_middle.symm
  · rw [Subtree.measured_inner] at hma hmb
    obtain ⟨hx, hy⟩ := List.forall_mem_append.mp (hcs ▸ List.forall_mem_append.mpr ⟨hma.2, hmb.2⟩)
    exact Row.measured_pair.mpr ⟨Subtree.measured_inner.mpr ⟨Subtree.fold_measures hx, hx⟩,
      Subtree.measured_inner.mpr ⟨Subtree.fold_measures hy, hy⟩⟩

end Inner

/-- Two neighbours of which one may lack a slot are merged. -/
theorem mergePages_runs [Std.TransOrd K] {s : Index K I} {d : Nat} {a b : Subtree K I} {pins : Pins}
    (ha : a.Regular s.tree.config.pageSize d) (hb : b.Regular s.tree.config.pageSize d)
    (hsa : a.StoredIn s.pager.page?) (hsb : b.StoredIn s.pager.page?) (hnd : (a.refs ++ b.refs).Nodup)
    (hlo : s.tree.config.pageSize / 2 ≤ a.size + b.size)
    (hale : a.size ≤ s.tree.config.pageSize) (hble : b.size ≤ s.tree.config.pageSize)
    (hpins : ∀ c ∈ a.children ++ b.children, c.ref ∈ pins) (parent : PageRef) (key : K) :
    ∃ outcome row t, Action.Runs (mergePages pins parent key a.page b.page) s outcome t
      ∧ Regrouped s t d a key b outcome row := by
  cases d with
  | zero =>
    obtain ⟨ra, ma, l, rfl⟩ := ha.eq_leaf
    obtain ⟨rb, mb, l', rfl⟩ := hb.eq_leaf
    rw [Subtree.storedIn_leaf] at hsa hsb
    rw [Subtree.size_leaf] at hale hble
    rw [Subtree.size_leaf, Subtree.size_leaf] at hlo
    have hne : ra ≠ rb := by
      rw [Subtree.refs_leaf, Subtree.refs_leaf] at hnd
      exact (List.nodup_append.mp hnd).2.2 ra List.mem_cons_self rb List.mem_cons_self
    -- what is shared out is more than a page, so half of it fills each leaf
    rcases Leaf.merge_cases l l' s.tree.config.pageSize with
      ⟨hle, hmerge⟩ | ⟨hlt, lower, upper, sep, hentries, hl, hr, hsep, hsize, hsum, hmerge⟩
    · obtain ⟨row, t, h⟩ := absorbLeaf_runs hsa hsb hne hlo hle hmerge pins parent key
      exact ⟨.absorbed, row, t, h⟩
    · have hlt' : s.tree.config.pageSize < l.entries.length + l'.entries.length := hlt
      have hsize' : lower.entries.length = (l.entries.length + l'.entries.length) / 2 := hsize
      have hsum' : lower.entries.length + upper.entries.length = l.entries.length + l'.entries.length := hsum
      have hlower : (Subtree.leaf ra ma lower).Filled s.tree.config.pageSize := by
        constructor <;> rw [Subtree.size_leaf] <;> omega
      have hupper : (Subtree.leaf rb mb upper).Filled s.tree.config.pageSize := by
        constructor <;> rw [Subtree.size_leaf] <;> omega
      obtain ⟨row, t, h⟩ :=
        rebalanceLeaves_runs hsa hsb hne hentries hl hr hsep hlower hupper hmerge pins parent key
      exact ⟨.rebalanced sep, row, t, h⟩
  | succ d =>
    obtain ⟨ra, ma, ks, cs, rfl, hla, -⟩ := ha.eq_inner
    obtain ⟨rb, mb, ks', cs', rfl, hlb, -⟩ := hb.eq_inner
    rw [Subtree.size_inner] at hale hble
    rw [Subtree.size_inner, Subtree.size_inner] at hlo
    rcases Inner.merge?_cases Subtree.ref hla hlb key s.tree.config.pageSize with
      ⟨hle, hmerge⟩ | ⟨hlt, ls, median, us, xs, ys, hks, hcs, hxs, hys, hsize, hsum, hmerge⟩
    · obtain ⟨row, t, h⟩ := absorbInner_runs ha hb hsa hsb hnd hlo hle hmerge pins parent
      exact ⟨.absorbed, row, t, h⟩
    · obtain ⟨row, t, h⟩ := rebalanceInner_runs ha hb hsa hsb hnd hks hcs hxs hys (by omega) (by omega) hmerge
        hpins parent
      exact ⟨.rebalanced median, row, t, h⟩

end Index

end PagedIndex
