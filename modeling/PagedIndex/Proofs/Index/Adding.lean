import PagedIndex.Proofs.Index.Course
import PagedIndex.Proofs.Index.Growth.Inner
import PagedIndex.Proofs.Index.Growth.Leaf
import PagedIndex.Proofs.Index.Pinning

/-!
# Adding to a whole index

Before anything is changed the walk down finds the leaf, the new pages are made and the children of the pages
that will be cut are pinned; after that nothing can fail. The tree that the index holds afterwards has one
entry more, at the place where it belongs.
-/

namespace PagedIndex.Index

variable {K I : Type} [IndexKey K] [Codec I]

/-! ## New pages -/

omit [IndexKey K] [Codec I] in
/-- All of the pages are made, or one is refused and those made before are offered for release. -/
theorem reserve_cases (measures : MeasureSet I) (count : Nat) {p : Pager K I} (h : p.Ready)
    (hn : p.next.toNat + count < 2 ^ 64) (made : List PageRef) :
    (∃ news q, Action.Runs (reserve measures count made) p (made.reverse ++ news) q ∧ Pager.Grown news p q
        ∧ news.length = count ∧ p.gate.create.Grants count ∧ Pager.Called ⟨0, count, 0⟩ p q)
      ∨ ∃ news reason q₁ q, Action.Fails (reserve measures count made) p (.io (.callRefused .create reason)) q
        ∧ p.gate.create.Bars news.length reason ∧ Pager.Grown news p q₁ ∧ Pager.Called ⟨0, news.length + 1, 0⟩ p q₁
        ∧ Pager.Offered (made.reverse ++ news) q₁ q := by
  induction count generalizing p made with
  | zero =>
    exact .inl ⟨[], p, by rw [List.append_nil]; exact Action.runs_pure _ p, .refl h, rfl,
      Schedule.grants_zero _, rfl, rfl, rfl⟩
  | succ count ih =>
    rw [reserve]
    cases hg : p.gate.create.next.1 with
    | refused reason =>
      let q₁ : Pager K I := { p with gate := { p.gate with create := p.gate.create.next.2 } }
      have hcreate := Pager.create_fails hg (.leaf .empty) measures.identity
      obtain ⟨store, hs⟩ := h.started
      have hready : q₁.Ready := ⟨⟨store, hs.backing, hs.ready⟩, h.named, h.numbered⟩
      obtain ⟨q, hoffered, houtcome⟩ := Pager.releaseAll_cases made.reverse hready
      refine .inr ⟨[], reason, q₁, q, hcreate.attempt.fails ?_, ⟨Schedule.grants_zero _, hg⟩,
        ⟨hready, rfl, List.nodup_nil, by simp, by simp, fun _ _ => rfl⟩, ⟨rfl, rfl, ?_⟩,
        by rwa [List.append_nil]⟩
      · rcases houtcome with ⟨-, hrun⟩ | ⟨_, _, -, -, hfail⟩
        · exact hrun.attempt.fails (Action.fails_fail _ _)
        · exact hfail.attempt.fails (Action.fails_fail _ _)
      · show _ = _ + (p.gate.create.answers 1).count .granted
        rw [Schedule.answers, hg]
        rfl
    | granted =>
      obtain ⟨q, hcreate, hgrown, hcalled, -⟩ := Pager.create_runs h hg (by omega) (.leaf .empty) measures.identity
      have hnext := hgrown.next
      rw [List.length_singleton] at hnext
      have hschedule : q.gate.create = p.gate.create.drop 1 := by rw [hcalled.gate]; rfl
      have hone : p.gate.create.Grants 1 := (Schedule.grants_zero _).succ hg
      rcases ih hgrown.ready (by omega) (⟨p.next⟩ :: made) with
        ⟨news, q', hrun, hgrown', hlen, hgrants, hcalled'⟩ |
        ⟨news, reason, q₁, q', hfail, hbars, hgrown', hcalled', hoffered⟩
      · rw [List.reverse_cons, List.append_assoc] at hrun
        refine .inl ⟨⟨p.next⟩ :: news, q', hcreate.attempt.bind hrun, hgrown.trans hgrown',
          by rw [List.length_cons, hlen], ?_, ?_⟩
        · rw [Nat.add_comm]
          exact Schedule.grants_add.mpr ⟨hone, hschedule ▸ hgrants⟩
        · have := hcalled.trans hcalled'
          rwa [Nat.add_comm 1] at this
      · rw [List.reverse_cons, List.append_assoc] at hoffered
        refine .inr ⟨⟨p.next⟩ :: news, reason, q₁, q', hcreate.attempt.fails hfail, ?_, hgrown.trans hgrown', ?_,
          hoffered⟩
        · rw [List.length_cons, Nat.add_comm]
          exact hone.bars (hschedule ▸ hbars)
        · have := hcalled.trans hcalled'
          rwa [Nat.add_comm 1] at this

/-! ## The root -/

section Root

variable [Std.TransOrd K] {s t u : Index K I} {e : K × I} {d d' : Nat} {old new : Subtree K I}
  {row row' : Row K I} {path used : List PageRef}

omit [Codec I] [Std.TransOrd K] in
/-- Once the growth has reached the root and this one is a single page, the index holds the tree. -/
theorem Enriched.holds (h : Enriched s t e old (.single new)) (hold : Holds s d old)
    (htree : u.tree = { t.tree with root := new.ref, len := t.tree.len + 1 }) (hready : u.pager.Ready)
    (hstored : new.StoredIn u.pager.page?) (hwhole : new.Whole s.tree.config.pageSize d')
    (hnodup : new.refs.Nodup) (hkey : compare (s.tree.keyOf e.2) e.1 = .eq) : Holds u d' new := by
  have htree' : u.tree = { s.tree with
      rightmost := t.tree.rightmost, root := new.ref, len := s.tree.len + 1 } := by
    rw [htree, h.tree]
  obtain ⟨as, bs, hes, hes'⟩ := h.entries
  rw [Row.entries_single] at hes'
  refine {
    toSpells := hold.refit (by rw [htree']; exact h.refits) hready (by rw [htree']) (by rw [htree'])
      hstored hnodup fun x hx => ?_
    whole := by rw [htree']; exact hwhole
    len := ?_ }
  · rw [htree']
    rw [hes'] at hx
    rcases List.mem_append.mp hx with hx | hx
    · exact hold.keyed x (by rw [hes]; exact List.mem_append_left _ hx)
    · rcases List.mem_cons.mp hx with rfl | hx
      · exact hkey
      · exact hold.keyed x (by rw [hes]; exact List.mem_append_right _ hx)
  · rw [htree', hes', List.length_append, List.length_cons]
    have := hold.len
    rw [hes, List.length_append] at this
    dsimp only
    omega

omit [Codec I] [Std.TransOrd K] in
/-- Both halves of a root get a new page above them. -/
theorem growRoot_runs {half : Split K} (h : Grown s t e d old path used row (some half))
    (hold : Holds s d old) (hkey : compare (s.tree.keyOf e.2) e.1 = .eq) {top : PageRef} (rest : List PageRef)
    (hnd : (old.refs ++ (used ++ [top])).Nodup) (hname : (s.pager.page? top).map Page.ref = some top) :
    ∃ T u, Action.Runs (growRoot old.ref half (top :: rest)) t () u
      ∧ Holds { u with tree := { u.tree with len := u.tree.len + 1 } } (d + 1) T
      ∧ Redrawn (path ++ (used ++ [top])) s u ∧ T.refs.Perm (old.refs ++ (used ++ [top]))
      ∧ T.entries = row.entries ∧ (old.Measured s.tree.measures → T.Measured s.tree.measures) := by
  obtain ⟨b, key, c, rfl, hb, rfl⟩ := h.carries.eq_pair
  obtain ⟨hbs, hcs⟩ := Row.storedIn_pair.mp h.stored
  obtain ⟨page, hpage, hpname⟩ := Option.map_eq_some_iff.mp ((h.redrawn.names top).trans hname)
  have hperm : (top :: (Row.pair b key c).refs).Perm (old.refs ++ (used ++ [top])) := by
    rw [← List.append_assoc]
    exact (h.refs.cons top).trans (List.perm_append_singleton top _).symm
  have hnd' := hperm.nodup_iff.mpr hnd
  have htop := (List.nodup_cons.mp hnd').1
  let m := s.tree.measures.fold [b.measures, c.measures]
  let T : Subtree K I := .inner top m [key] [b, c]
  let t₁ := t.draw top (.inner (.pair b.ref key c.ref)) m
  let u : Index K I := { t₁ with tree := { t₁.tree with root := top } }
  have hroot : t.tree.root = b.ref := by rw [h.content.tree, hold.root, hb]
  have hredrawn : Redrawn [top] t u := (redrawn_draw t top _ m).trans (redrawn_tree _ _ rfl rfl rfl)
  have hrefs : T.refs = top :: (Row.pair b key c).refs := by rw [Subtree.refs_inner]; rfl
  have hstored : T.StoredIn u.pager.page? := by
    refine Subtree.storedIn_inner.mpr ⟨page?_draw hpage hpname _ _, fun x hx => ?_⟩
    refine (h.stored x hx).congr fun r hr => hredrawn.frame r fun hmem => htop ?_
    rw [← List.mem_singleton.mp hmem]
    exact List.mem_flatMap.mpr ⟨x, hx, hr⟩
  -- the new root is the last page that was made, so it is not among those redrawn on the way up
  have hredrawn' : Redrawn (path ++ (used ++ [top])) s u := by
    refine (h.redrawn.mono ?_).trans (hredrawn.mono ?_)
    · rw [← List.append_assoc]
      exact List.subset_append_left _ _
    · simp
  refine ⟨T, u, ?_, ?_, hredrawn', hrefs ▸ hperm, ?_, fun hm => ?_⟩
  · unfold growRoot
    refine (Action.runs_get t).bind ?_
    refine (Action.runs_pure (top, rest) t).bind ?_
    refine (held_runs (hb ▸ hbs.top)).bind ?_
    refine (held_runs hcs.top).bind ?_
    refine (setNode_runs t top _).bind ?_
    refine (setMeasures_runs _ top _).bind ?_
    rw [hroot, h.redrawn.measures, Subtree.measures_page, Subtree.measures_page]
    exact modifyTree_runs _ _
  · have hcontent : Enriched s t e old (.single T) := by
      refine ⟨h.content.tree, ?_, h.content.refits.congr ?_ ?_⟩
      · rw [Row.entries_single, Subtree.entries_inner]
        exact h.content.entries
      · rw [Row.walk_single, Subtree.walk_inner]
        rfl
      · rw [Row.leaves_single, Subtree.leaves_inner]
        rfl
    refine hcontent.holds hold rfl (hredrawn'.ready hold.ready) hstored ⟨?_, ?_, fun _ => Nat.le_refl 1⟩
      (by rw [hrefs]; exact hnd') hkey
    · exact Subtree.regular_inner.mpr ⟨rfl, h.regular, h.full (by simp)⟩
    · have := hold.pageSize
      show 1 ≤ _
      omega
  · rw [Subtree.entries_inner]
    rfl
  · have hrow := h.measured hm
    exact Subtree.measured_inner.mpr ⟨Subtree.fold_measures hrow, hrow⟩

end Root

/-! ## The whole operation -/

/-- How many pages adding an item makes: one for each page that is split, and one for a new root. -/
def pagesToAdd (s : Index K I) (item : I) : Nat :=
  match s.tree.path (s.tree.keyOf item) s.pager with
  | .ok (page, steps) _ =>
    match page.asLeaf with
    | .ok leaf =>
      let splits := splitCount s.tree.config.pageSize page steps
      if (leaf.seek (s.tree.keyOf item)).isExact then 0
      else if splits = steps.length + 1 then splits + 1
      else splits
    | .error _ => 0
  | .error _ _ => 0

omit [Codec I] [IndexKey K] in
theorem splitCount_steps (pageSize : Nat) (r : PageRef) (m : List Int64) (l : Leaf K I)
    (fs : List (Frame K I)) : splitCount pageSize (Subtree.leaf r m l).page (Spine.steps r fs)
      = if l.size < pageSize then 0 else 1 + Spine.full pageSize fs := by
  have key : ∀ bottom, ((Spine.steps bottom fs).takeWhile fun step => pageSize ≤ step.page.size).length
      = Spine.full pageSize fs := by
    induction fs with
    | nil => intro bottom; rfl
    | cons f fs ih =>
      intro bottom
      have hsize : (f.page bottom).size = f.size := List.length_append
      rw [Spine.steps, Spine.full, List.takeWhile_cons, List.takeWhile_cons]
      dsimp only
      rw [hsize]
      split
      · rw [List.length_cons, List.length_cons, ih]
        rfl
      · rfl
  unfold splitCount
  rw [key]
  rfl

section Add

variable [Std.TransOrd K] {s : Index K I} {d : Nat} {t : Subtree K I}

omit [Codec I] in
/-- The leaf takes the entry and the pages above follow. One page made ahead is used up for each page that is split,
and the root itself is split if all pages of the way are. -/
theorem grow_runs {fs : List (Frame K I)} {r : PageRef} {m : List Int64} {l : Leaf K I}
    (h : Holds s d (plugAll fs (.leaf r m l))) {e : K × I} {as bs : List (K × I)}
    (hway : Way s.tree.config.pageSize e.1 fs (.leaf r m l)) (hcut : l.entries = as ++ bs)
    (has : ∀ x ∈ as, compare x.1 e.1 = .lt) (hbs : ∀ x ∈ bs, compare e.1 x.1 = .lt)
    {reserved : List PageRef} {pins : Pins} {splits : Nat}
    (hsplits : splits = if l.size < s.tree.config.pageSize then 0
      else 1 + Spine.full s.tree.config.pageSize fs) (hres : splits ≤ reserved.length)
    (hnd : ((plugAll fs (.leaf r m l)).refs ++ reserved).Nodup)
    (hnames : ∀ n ∈ reserved, (s.pager.page? n).map Page.ref = some n)
    (hpins : ∀ step ∈ (Spine.steps r fs).take (splits - 1), ∀ r ∈ step.page.children, r ∈ pins) :
    ∃ row split₁ split used rest₁ rest t₁ t, reserved = used ++ rest
      ∧ Action.Runs (addToLeaf r as.length e (s.tree.measures.ofItem e.2) reserved) s (split₁, rest₁) t₁
      ∧ Action.Runs (carryUp (s.tree.measures.ofItem e.2) (Spine.steps r fs) split₁ rest₁ pins) t₁ (split, rest) t
      ∧ Grown s t e (0 + fs.length) (plugAll fs (.leaf r m l)) ((fs.map Frame.ref).reverse ++ [r]) used row split
      ∧ used.length = splits ∧ (split ≠ none ↔ splits = fs.length + 1) := by
  have hps := h.pageSize
  obtain ⟨hleaf, hspine⟩ := Spine.storedIn_plugAll.mp h.stored
  -- a full leaf is split, so there is a page for it and one for each full page right above it
  have hmany : ¬ l.size < s.tree.config.pageSize → 1 + Spine.full s.tree.config.pageSize fs ≤ reserved.length := by
    intro hfull
    rw [if_neg hfull] at hsplits
    omega
  obtain ⟨row₁, split₁, used₁, rest₁, t₁, rfl, hrun₁, hgrown₁, hlen₁, hsplit₁⟩ :=
    addToLeaf_grown (Subtree.storedIn_leaf.mp hleaf) hcut has hbs (by omega) hway.size_le
      (by have := Spine.nodup_of_plugAll hnd; rwa [Subtree.refs_leaf] at this) hnames
      (fun hfull hnil => by
        have := hmany (by omega)
        rw [hnil, List.length_nil] at this
        omega)
  obtain ⟨row, split, used₂, rest, t, rfl, hrun₂, hgrown, hlen₂, hsplit₂⟩ :=
    carryUp_grown hgrown₁ hway.fits hway.routes (by rw [Subtree.leaves_leaf]; simp) hway.filled (by omega)
      hspine hnd (fun n hn => hnames n (List.mem_append_right used₁ hn))
      (fun hs => by
        have hfull := hsplit₁.mp hs
        have := hmany hfull
        rw [if_neg hfull] at hlen₁
        rw [List.length_append, hlen₁] at this
        omega)
      pins
      (fun hs step hstep => by
        rw [if_neg (hsplit₁.mp hs)] at hsplits
        exact hpins step (by rw [hsplits, Nat.add_sub_cancel_left]; exact hstep))
  refine ⟨row, split₁, split, used₁ ++ used₂, _, rest, t₁, t, (List.append_assoc _ _ _).symm, hrun₁, hrun₂, hgrown,
    ?_, ?_⟩
  · rw [List.length_append, hlen₁, hlen₂]
    by_cases hroom : l.size < s.tree.config.pageSize
    · rw [if_pos hroom, if_neg (fun hs => hsplit₁.mp hs hroom), hsplits, if_pos hroom]
    · rw [if_neg hroom, if_pos (hsplit₁.mpr hroom), hsplits, if_neg hroom]
  · rw [hsplit₂, hsplit₁, hsplits]
    by_cases hroom : l.size < s.tree.config.pageSize
    · simp [hroom]
    · simp only [hroom, not_false_eq_true, true_and, if_false]
      omega

omit [Codec I] in
/-- Once the new pages are made and the pages to look at are pinned, the change goes through and uses the new
pages up. -/
theorem add_change {fs : List (Frame K I)} {r : PageRef} {m : List Int64} {l : Leaf K I}
    (h : Holds s d (plugAll fs (.leaf r m l))) {key : K} {item : I} {as bs : List (K × I)}
    (hkey : compare (s.tree.keyOf item) key = .eq)
    (hway : Way s.tree.config.pageSize key fs (.leaf r m l)) (hcut : l.entries = as ++ bs)
    (has : ∀ e ∈ as, compare e.1 key = .lt) (hbs : ∀ e ∈ bs, compare key e.1 = .lt)
    {reserved : List PageRef} {pins : Pins} {splits : Nat}
    (hsplits : splits = if l.size < s.tree.config.pageSize then 0
      else 1 + Spine.full s.tree.config.pageSize fs)
    (hres : reserved.length = if splits = fs.length + 1 then splits + 1 else splits)
    (hnd : ((plugAll fs (.leaf r m l)).refs ++ reserved).Nodup)
    (hnames : ∀ n ∈ reserved, (s.pager.page? n).map Page.ref = some n)
    (hpins : ∀ step ∈ (Spine.steps r fs).take (splits - 1), ∀ r ∈ step.page.children, r ∈ pins) :
    ∃ T d' u, Action.Runs (do
        let (split, reserved) ← addToLeaf r as.length (key, item) (s.tree.measures.ofItem item) reserved
        let (split, reserved) ← carryUp (s.tree.measures.ofItem item) (Spine.steps r fs) split reserved pins
        if let some split := split then
          growRoot (((Spine.steps r fs).getLast?.map (·.page.ref)).getD r) split reserved
        modifyTree fun tree => { tree with len := tree.len + 1 }) s () u
      ∧ Holds u d' T ∧ Redrawn ((fs.map Frame.ref).reverse ++ [r] ++ reserved) s u
      ∧ T.refs.Perm ((plugAll fs (.leaf r m l)).refs ++ reserved)
      ∧ (∃ as bs, (plugAll fs (.leaf r m l)).entries = as ++ bs ∧ T.entries = as ++ (key, item) :: bs)
      ∧ ((plugAll fs (.leaf r m l)).Measured s.tree.measures → T.Measured s.tree.measures) := by
  obtain ⟨row, split₁, split, used, rest₁, rest, t₁, t, rfl, hrun₁, hrun₂, hgrown, hused, hgrows⟩ :=
    grow_runs (e := (key, item)) h hway hcut has hbs hsplits (by split at hres <;> omega) hnd hnames hpins
  obtain rfl := h.whole.regular.depth_unique (Spine.regular_plugAll hway.fits .leaf hway.filled)
  have hentries := hgrown.content.entries
  -- a page was made for a new root exactly if all pages of the way are full
  cases split with
  | none =>
    obtain rfl : rest = [] := by
      rw [if_neg (fun heq => hgrows.mpr heq rfl), List.length_append, hused] at hres
      exact List.length_eq_zero_iff.mp (by omega)
    obtain ⟨T, rfl, hname⟩ := hgrown.carries.eq_single
    have hmem : T ∈ (Row.single T).trees := List.mem_cons_self
    have hperm := hgrown.refs
    rw [List.append_nil] at hrun₁ hnd ⊢
    rw [Row.refs_single] at hperm
    rw [Row.entries_single] at hentries
    refine ⟨T, 0 + fs.length, _, hrun₁.bind (hrun₂.bind (modifyTree_runs t _)), ?_,
      hgrown.redrawn.trans (redrawn_tree t _ rfl rfl rfl), hperm, hentries,
      fun hm => Row.measured_single.mp (hgrown.measured hm)⟩
    refine hgrown.content.holds h ?_ (hgrown.redrawn.ready h.ready)
      (Row.storedIn_single.mp hgrown.stored)
      ⟨hgrown.regular T hmem, hgrown.size_le T hmem, fun hd => ?_⟩ (hperm.nodup_iff.mpr hnd) hkey
    · rw [hgrown.content.tree, hname, ← h.root]
    · have := h.whole.size_pos hd
      have := h.pageSize
      rcases hgrown.size_ge T hmem with hge | hge <;> omega
  | some half =>
    obtain ⟨top, rfl⟩ : ∃ top, rest = [top] := by
      rw [if_pos (hgrows.mp (by simp)), List.length_append, hused] at hres
      exact List.length_eq_one_iff.mp (by omega)
    obtain ⟨T, u, hrun₃, hholds, hredrawn, hperm, hentries', hmeas⟩ :=
      growRoot_runs hgrown h hkey [] hnd
        (hnames top (by simp))
    rw [← Spine.root_steps] at hrun₃
    refine ⟨T, _, _, hrun₁.bind (hrun₂.bind (hrun₃.bind (modifyTree_runs u _))), hholds,
      hredrawn.trans (redrawn_tree u _ rfl rfl rfl), hperm, by rwa [hentries'], hmeas⟩

omit [Std.TransOrd K] in
/-- Once the leaf is found and the key is not in it, the pages to look at are pinned and the new pages are made. -/
theorem Holds.add_eq {fs : List (Frame K I)} {r : PageRef} {m : List Int64} {l : Leaf K I}
    (h : Holds s d (plugAll fs (.leaf r m l))) {item : I} {p : Pager K I}
    (hpath : Action.Runs (s.tree.path (s.tree.keyOf item)) s.pager ((Subtree.leaf r m l).page, Spine.steps r fs) p)
    (hex : (l.seek (s.tree.keyOf item)).isExact = false) {splits : Nat}
    (hsplits : splits = splitCount s.tree.config.pageSize (Subtree.leaf r m l).page (Spine.steps r fs)) :
    s.pagesToAdd item = (if splits = fs.length + 1 then splits + 1 else splits)
      ∧ add item s = (do
        let pins ← paging (pinForAdd ((Spine.steps r fs).take (splits - 1)) [])
        let reserved ← paging (reserve s.tree.measures (s.pagesToAdd item) [])
        let (split, reserved) ← addToLeaf r (l.seek (s.tree.keyOf item)).position (s.tree.keyOf item, item)
          (s.tree.measures.ofItem item) reserved
        let (split, reserved) ← carryUp (s.tree.measures.ofItem item) (Spine.steps r fs) split reserved pins
        if let some split := split then
          growRoot (((Spine.steps r fs).getLast?.map (·.page.ref)).getD r) split reserved
        modifyTree fun tree => { tree with len := tree.len + 1 } : Updating K I Unit) { s with pager := p } := by
  have hcount : s.pagesToAdd item = if splits = fs.length + 1 then splits + 1 else splits := by
    unfold pagesToAdd
    rw [show s.tree.path (s.tree.keyOf item) s.pager = _ from hpath]
    dsimp only [Subtree.page, Page.asLeaf]
    rw [hex, Spine.length_steps, hsplits]
    rfl
  refine ⟨hcount, ?_⟩
  refine (h.begins_eq (fun s => s.tree.keyOf item) hpath _).trans ?_
  refine ((Action.runs_ofExcept rfl _).bind_eq _).trans ?_
  dsimp only
  rw [if_neg (by rw [hex]; simp), Spine.length_steps, hcount, hsplits]
  rfl

omit [IndexKey K] [Codec I] in
/-- A page that was live is none of the new ones, so it is redrawn only if it is on the way. -/
theorem Spells.frame_of_grown [Ord K] [Std.TransOrd K] {pageSize : Nat} {fs : List (Frame K I)} {r r' : PageRef}
    {m : List Int64} {l : Leaf K I} (h : Spells s (plugAll fs (.leaf r m l))) {key : K}
    (hway : Way pageSize key fs (.leaf r m l)) {p q : Pager K I} {news : List PageRef} {u : Index K I}
    (hstill : s.pager.Still p) (hgrown : Pager.Grown news p q)
    (hredrawn : Redrawn ((fs.map Frame.ref).reverse ++ [r] ++ news) { s with pager := q } u)
    (hlive : (s.pager.page? r').isSome) (hoff : ¬ s.OnWay key r') : u.pager.page? r' = s.pager.page? r' := by
  have hnews : r' ∉ news := by
    intro hmem
    rw [← hstill.page?, hgrown.fresh r' hmem] at hlive
    exact absurd hlive (by simp)
  refine (hredrawn.frame r' fun hmem => ?_).trans ((hgrown.frame r' hnews).trans (congrFun hstill.page? r'))
  rcases List.mem_append.mp hmem with hmem | hmem
  · rw [← List.reverse_cons, List.mem_reverse] at hmem
    exact hoff ((h.onWay_iff hway).mpr hmem)
  · exact hnews hmem

/-- An item whose key is absent comes in, and all the pages that were made for it are pages of the tree; or it does
not, and every page is as it was: its key is present, or a call was refused. -/
theorem Holds.add_cases (h : Holds s d t) {item : I} (hn : s.pager.next.toNat + s.pagesToAdd item ≤ 2 ^ 64 - 2) :
    (∃ T d' n u, Action.Runs (add item) s () u ∧ Holds u d' T
        ∧ u.tree = { s.tree with root := u.tree.root, rightmost := u.tree.rightmost, len := u.tree.len }
        ∧ Pager.Called ⟨n, s.pagesToAdd item, 0⟩ s.pager u.pager
        ∧ s.pager.gate.resolve.Grants n ∧ s.pager.gate.create.Grants (s.pagesToAdd item)
        ∧ itemAt (s.tree.keyOf item) t.entries = none
        ∧ (∃ as bs, t.entries = as ++ bs ∧ T.entries = as ++ (s.tree.keyOf item, item) :: bs)
        ∧ (t.Measured s.tree.measures → T.Measured s.tree.measures)
        ∧ (∀ r, (s.pager.page? r).isSome → ¬ s.OnWay (s.tree.keyOf item) r → u.pager.page? r = s.pager.page? r)
        ∧ ∃ news, news.length = s.pagesToAdd item ∧ s.pager.Turnover news [] u.pager ∧ T.refs.Perm (t.refs ++ news))
      ∨ ∃ e calls q, Action.Fails (add item) s e { s with pager := q } ∧ Pager.Spared calls s.pager q
        ∧ (e = .duplicateKey ∧ (itemAt (s.tree.keyOf item) t.entries).isSome
            ∧ (∃ n, calls = ⟨n, 0, 0⟩ ∧ s.pager.gate.resolve.Grants n)
          ∨ s.pager.gate.Refuses calls e) := by
  have hn' : s.pager.next.toNat ≤ 2 ^ 64 - 2 := by omega
  rcases h.path_cases hn' (s.tree.keyOf item) with
    ⟨fs, r, m, l, n₁, p₁, hpath, hread₁, rfl, hway⟩ | ⟨n, _, q, hfail, hbarred⟩
  case inr =>
    exact .inr ⟨_, _, q, h.begins_fails (fun s => s.tree.keyOf item) hfail _, hbarred.spared h.ready,
      .inr hbarred.refuses⟩
  cases hitem : itemAt (s.tree.keyOf item) (plugAll fs (.leaf r m l)).entries with
  | some present =>
    obtain ⟨as, e, bs, -, -, hex, -, -⟩ := hway.exists_cut_entry h.ascending hitem
    refine .inr ⟨_, _, p₁, ?_, hread₁.spared h.ready, .inl ⟨rfl, rfl, _, rfl, hread₁.grants⟩⟩
    refine (h.begins_eq (fun s => s.tree.keyOf item) hpath _).trans ?_
    refine (Action.runs_ofExcept rfl _).fails ?_
    dsimp only
    rw [if_pos hex]
    exact (Action.fails_fail _ _).bind _
  | none =>
    obtain ⟨as, bs, hcut, hpos, hex, has, hbs⟩ := hway.exists_cut h.ascending hitem
    let splits := splitCount s.tree.config.pageSize (Subtree.leaf r m l).page (Spine.steps r fs)
    obtain ⟨hcount, hadd⟩ := h.add_eq hpath hex (show splits = _ from rfl)
    have h₁ := h.still hread₁.still
    rcases h₁.reads_cases (by rw [hread₁.still.next]; exact hn')
        (reads_pinForAdd ((Spine.steps r fs).take (splits - 1)) [] fun step hstep r' hr' =>
          h₁.exists_page (Spine.children_steps_subset (List.mem_of_mem_take hstep) hr')) with
      ⟨pins, n₂, p₂, hpinned, hread₂, -, hpins⟩ | ⟨n, _, q, hfail, hbarred⟩
    case inr =>
      have hall := hread₁.barred hbarred
      refine .inr ⟨_, _, q, ?_, hall.spared h.ready, .inr hall.refuses⟩
      unfold Action.Fails
      rw [hadd]
      exact (paging_fails hfail).bind _
    -- from here on every page to look at is pinned; only making the new pages can still fail
    have h₂ := h₁.still hread₂.still
    have hread := hread₁.trans hread₂
    have hcreates : p₂.gate.create = s.pager.gate.create := by rw [hread.gate]
    rcases reserve_cases s.tree.measures (s.pagesToAdd item) h₂.ready
        (show p₂.next.toNat + _ < _ by rw [hread.still.next]; omega) [] with
      ⟨news, q, hreserve, hgrown, hlen, hgrants, hcalled⟩ |
      ⟨news, reason, q₁, q, hfail, hbars, hgrown, hcalled, hoffered⟩
    · have h₃ := h₂.grown hgrown
      have hnews : ∀ n ∈ news, (q.page? n).map Page.ref = some n := by
        intro n hn
        obtain ⟨page, hpage⟩ := Option.isSome_iff_exists.mp (hgrown.live n hn)
        rw [hpage, Option.map_some, hgrown.ready.named n page hpage]
      obtain ⟨T, d', u, hchange, hholds, hredrawn, hperm, hentries, hmeas⟩ :=
        add_change h₃ (show compare (s.tree.keyOf item) _ = .eq from Std.ReflCmp.compare_self) hway hcut has hbs
          (splitCount_steps _ r m l fs) (by rw [hlen, hcount])
          (List.nodup_append'.mpr ⟨h₂.nodup, hgrown.nodup, fun r hr => h₂.not_mem_news hgrown hr⟩) hnews hpins
      refine .inl ⟨T, d', _, u, ?_, hholds, hredrawn.tree_eq, ?_, hread.grants, hcreates ▸ hgrants, rfl, hentries,
        hmeas, fun _ hlive hoff => h.frame_of_grown hway hread.still hgrown hredrawn hlive hoff, news, hlen,
        (hread.still.grown hgrown).turnover.congr hredrawn.live, hperm⟩
      · unfold Action.Runs
        rw [hadd, hpos]
        exact (paging_runs hpinned).bind ((paging_runs hreserve).bind hchange)
      · have := (hread.called.trans hcalled).of_blank hredrawn.blank
        rwa [Nat.zero_add] at this
    · have hspared := hread.spares (hgrown.spared hcalled hoffered)
      refine .inr ⟨_, _, q, ?_, hspared, .inr (.create hread.grants (hcreates ▸ hbars))⟩
      unfold Action.Fails
      rw [hadd]
      exact (paging_runs hpinned).fails ((paging_fails hfail).bind _)

end Add

end PagedIndex.Index
