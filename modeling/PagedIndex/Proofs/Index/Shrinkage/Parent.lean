import PagedIndex.Proofs.Index.Course
import PagedIndex.Proofs.Index.Shrinkage.Merging

/-!
# A page above a removal

When the child on the way may lack a slot, the page merges it with one of its neighbours, and afterwards takes
the removed item out of its own values. `Mended` says what is true in between: below the page everything is
as it should be, and the page itself may lack a slot now.
-/

namespace PagedIndex

variable {K I : Type}

/-! ## A child and one beside it -/

/-- With the child `c` and one beside it left out, `f` is `g`; `a` and `b` are the two, from left to right. -/
structure Frame.Window (f : Frame K I) (c : Subtree K I) (g : Frame K I) (a : Subtree K I) (key : K)
    (b : Subtree K I) : Prop where
  eq : f.plug c = g.hang (.pair a key b)
  ends : (a = c ∧ b ∈ f.beside) ∨ (b = c ∧ a ∈ f.beside)
  fits : ∀ {pageSize d}, f.Fits pageSize d → g.Fits pageSize d

namespace Frame

variable {f g : Frame K I} {a b c : Subtree K I} {key : K}

theorem window_right {k : K} {ks : List K} {x : Subtree K I} {xs : List (Subtree K I)}
    (hk : f.highKeys = k :: ks) (hx : f.high = x :: xs) (c : Subtree K I) :
    f.Window c { f with highKeys := ks, high := xs } c k x := by
  refine ⟨?_, .inl ⟨rfl, ?_⟩, fun h => ⟨h.low, ?_, fun y hy => h.regular y ?_, fun y hy => h.filled y ?_⟩⟩
  · rw [plug_eq, hk, hx]
    rfl
  · rw [beside, hx]
    exact List.mem_append_right _ List.mem_cons_self
  · have := h.high
    rw [hk, hx] at this
    exact Nat.succ.inj this
  all_goals
    rw [sides, hx]
    exact (List.mem_append.mp hy).elim (List.mem_append_left _)
      fun hy => List.mem_append_right _ (List.mem_cons_of_mem x hy)

theorem window_left {k : K} {ks : List K} {x : Subtree K I} {xs : List (Subtree K I)}
    (hk : f.lowKeys = ks ++ [k]) (hx : f.low = xs ++ [x]) (c : Subtree K I) :
    f.Window c { f with lowKeys := ks, low := xs } x k c := by
  refine ⟨?_, .inr ⟨rfl, ?_⟩, fun h => ⟨?_, h.high, fun y hy => h.regular y ?_, fun y hy => h.filled y ?_⟩⟩
  · rw [plug_eq, hk, hx, List.append_assoc, List.append_assoc]
    rfl
  · rw [beside, hx, List.getLast?_concat]
    exact List.mem_append_left _ List.mem_cons_self
  · have := h.low
    rw [hk, hx, List.length_append, List.length_append] at this
    exact Nat.succ.inj this
  all_goals
    rw [sides, hx]
    exact (List.mem_append.mp hy).elim (fun hy => List.mem_append_left _ (List.mem_append_left _ hy))
      (List.mem_append_right _)

theorem Window.page (h : f.Window c g a key b) : f.page c.ref = ⟨f.ref, f.measures,
    .inner ⟨g.lowKeys ++ key :: g.highKeys,
      g.low.map Subtree.ref ++ a.ref :: b.ref :: g.high.map Subtree.ref⟩⟩ := by
  have := congrArg Subtree.page h.eq
  rw [page_plug, hang, Subtree.page, List.map_append] at this
  obtain ⟨hr, hm, -⟩ := Page.mk.inj this
  rw [this, ← hr, ← hm]
  rfl

theorem Window.ref (h : f.Window c g a key b) : g.ref = f.ref := (congrArg Subtree.ref h.eq).symm

theorem Window.measures (h : f.Window c g a key b) : g.measures = f.measures :=
  (congrArg Subtree.measures h.eq).symm

theorem Window.children (h : f.Window c g a key b) :
    (f.plug c).children = g.low ++ a :: b :: g.high := congrArg Subtree.children h.eq

/-- With a row in the place of the two, every child is of the row or was there before. -/
theorem Window.mem_hang (h : f.Window c g a key b) {row : Row K I} {x : Subtree K I}
    (hx : x ∈ g.low ++ (row.trees ++ g.high)) : x ∈ row.trees ∨ x ∈ (f.plug c).children := by
  rw [h.children]
  rcases List.mem_append.mp hx with hx | hx
  · exact .inr (List.mem_append_left _ hx)
  · exact (List.mem_append.mp hx).imp_right fun hx =>
      List.mem_append_right _ (List.mem_cons_of_mem _ (List.mem_cons_of_mem _ hx))

theorem Window.mem_children (h : f.Window c g a key b) :
    a ∈ (f.plug c).children ∧ b ∈ (f.plug c).children := by
  rw [h.children]
  simp

theorem Window.size (h : f.Window c g a key b) : f.size = g.size + 1 := by
  rw [← f.size_plug c, h.eq, size_hang]
  rfl

/-- Besides the child, one of the two is another one. -/
theorem Window.exists_other (h : f.Window c g a key b) : ∃ x ∈ f.beside, ∀ y ∈ [a, b], y = c ∨ y = x := by
  rcases h.ends with ⟨rfl, hb⟩ | ⟨rfl, ha⟩
  · exact ⟨b, hb, by simp⟩
  · exact ⟨a, ha, by simp⟩

/-- What holds of the child and of those beside it holds of the two. -/
theorem Window.both (h : f.Window c g a key b) {P : Subtree K I → Prop} (hc : P c) (hbeside : ∀ x ∈ f.beside, P x) :
    P a ∧ P b := by
  rcases h.ends with ⟨rfl, hb⟩ | ⟨rfl, ha⟩
  · exact ⟨hc, hbeside b hb⟩
  · exact ⟨hbeside a ha, hc⟩

/-- At least one of the two lacks nothing. -/
theorem Window.size_add_ge {pageSize d : Nat} (h : f.Window c g a key b) (hf : f.Fits pageSize d) :
    pageSize / 2 ≤ a.size + b.size := by
  rcases h.ends with ⟨-, hb⟩ | ⟨-, ha⟩
  · have := (hf.filled b (mem_sides_of_mem_beside hb)).1
    omega
  · have := (hf.filled a (mem_sides_of_mem_beside ha)).1
    omega

end Frame

namespace Index

section Slot

variable {s : Index K I} {f : Frame K I} {c : Subtree K I} {pins : Pins} {pageSize d : Nat}

/-- There is a neighbour to merge with. -/
theorem mergeSlot_runs (hf : f.Fits pageSize d) (hsize : 1 ≤ f.size)
    (hpins : ∀ x ∈ (f.plug c).children, x.ref ∈ pins)
    (hpages : ∀ x ∈ (f.plug c).children, s.pager.page? x.ref = some x.page) : ∃ g a key b,
      f.Window c g a key b
        ∧ Action.Runs (mergeSlot pins (f.page c.ref).children f.low.length) s g.low.length s := by
  have hkids : (f.page c.ref).children = f.low.map Subtree.ref ++ c.ref :: f.high.map Subtree.ref := rfl
  have hlow := hf.low
  have hhigh := hf.high
  have hright : ∀ y ys, f.high = y :: ys → ∃ k ks, f.highKeys = k :: ks := by
    intro y ys hy
    rw [hy] at hhigh
    exact List.exists_cons_of_length_eq_add_one hhigh
  rcases List.eq_nil_or_concat' f.low with hnil | ⟨xs, x, hx⟩
  · -- the first child goes with its right neighbour
    obtain ⟨y, ys, hy⟩ : ∃ y ys, f.high = y :: ys := by
      refine List.exists_cons_of_length_pos ?_
      rw [hnil] at hlow
      rw [Frame.size, hlow] at hsize
      simp only [List.length_nil] at hsize
      omega
    obtain ⟨k, ks, hk⟩ := hright y ys hy
    refine ⟨_, _, _, _, Frame.window_right hk hy c, ?_⟩
    rw [hnil]
    exact Action.runs_pure 0 s
  · obtain ⟨ks, k, hk⟩ : ∃ ks k, f.lowKeys = ks ++ [k] := by
      refine (List.eq_nil_or_concat' f.lowKeys).resolve_left fun h => ?_
      rw [h, hx] at hlow
      exact absurd hlow (by simp)
    have hleft := Frame.window_left hk hx c
    have hlen : f.low.length = xs.length + 1 := by rw [hx, List.length_append]; rfl
    -- the last child goes with its left neighbour, a child between two with the smaller of them
    cases hy : f.high with
    | nil =>
      refine ⟨_, _, _, _, hleft, ?_⟩
      unfold mergeSlot
      rw [hlen]
      dsimp only
      rw [if_pos]
      · exact Action.runs_pure _ s
      · rw [hkids, hy, List.length_append, List.length_map, hlen]
        rfl
    | cons y ys =>
      obtain ⟨k', ks', hk'⟩ := hright y ys hy
      have hmem : x ∈ (f.plug c).children ∧ y ∈ (f.plug c).children := by
        show x ∈ f.low ++ c :: f.high ∧ y ∈ f.low ++ c :: f.high
        rw [hx, hy]
        simp
      have hyref := f.getElem?_after hy c.ref
      rw [hlen] at hyref
      have hrun : Action.Runs (mergeSlot pins (f.page c.ref).children f.low.length) s
          (if x.page.size < y.page.size then xs.length else f.low.length) s := by
        unfold mergeSlot
        rw [hlen]
        dsimp only
        rw [if_neg]
        · refine (Action.runs_orAbort (f.getElem?_before hx c.ref) s).bind ?_
          refine (pinned_runs (hpins x hmem.1) (hpages x hmem.1)).bind ?_
          refine (Action.runs_orAbort hyref s).bind ?_
          exact (pinned_runs (hpins y hmem.2) (hpages y hmem.2)).bind (Action.runs_pure _ s)
        · rw [hkids, hy, List.length_append, List.length_map, hlen]
          simp
      split at hrun
      · exact ⟨_, _, _, _, hleft, hrun⟩
      · exact ⟨_, _, _, _, Frame.window_right hk' hy c, hrun⟩

end Slot

/-! ## The page after the merge -/

section Merge

variable [Ord K] {s t u : Index K I} {fs : List (Frame K I)} {f g : Frame K I} {a b c : Subtree K I}
  {key : K} {d : Nat} {pins : Pins}

/-- Between `s` and `u`, the page of the frame `f` has come to have the separators `ks` and the children `cs`,
which have together what was below it before and lack nothing. The page may lack a slot, and it carries the
values from before. -/
structure Mended (s u : Index K I) (d : Nat) (fs : List (Frame K I)) (f : Frame K I) (c : Subtree K I)
    (ks : List K) (cs : List (Subtree K I)) (freed : List PageRef) : Prop where
  spells : Spells u (plugAll fs (.inner f.ref f.measures ks cs))
  regular : (Subtree.inner f.ref f.measures ks cs).Regular s.tree.config.pageSize (d + 1)
  size_le : ks.length ≤ f.size
  size_ge : f.size ≤ ks.length + 1
  entries : cs.flatMap Subtree.entries = (f.plug c).entries
  kids : ∀ x ∈ cs, ∃ y ∈ (f.plug c).children, x.ref = y.ref
  refs : ((Subtree.inner f.ref f.measures ks cs).refs ++ freed).Perm (f.plug c).refs
  /-- Of the other children, one at most was written on. -/
  narrow : ∃ other : Option PageRef, (∀ r ∈ other, r ∈ f.beside.map Subtree.ref)
    ∧ Redrawn (f.ref :: c.ref :: other.toList) s u ∧ freed ⊆ c.ref :: other.toList
  tree : u.tree = { s.tree with rightmost := u.tree.rightmost }
  measured : (∀ x ∈ (f.plug c).children, x.Measured s.tree.measures) →
    ∀ x ∈ cs, x.Measured s.tree.measures

/-- The page with the row in it that has come out of a merge. -/
def mendedNode (g : Frame K I) (row : Row K I) : Node K I :=
  .inner ⟨g.lowKeys ++ (row.keys ++ g.highKeys), (g.low ++ (row.trees ++ g.high)).map Subtree.ref⟩

/-- The tree whose last leaf is the one after a merge. -/
def redirected (s : Index K I) (left right : PageRef) (outcome : Merged K) : Index K I :=
  { s with tree := { s.tree with rightmost := outcome.redirect left right s.tree.rightmost } }

variable {outcome : Merged K} {row : Row K I}

omit [Ord K] in
/-- A merge of two pinned children, up to the moment the parent is looked at again. -/
theorem mergeChild_runs_of {inner : Inner K} {m : List Int64} {left right : Page K I} {slot slot' : Nat}
    {ra rb : PageRef} {gone : Option PageRef} {u : Index K I}
    (hpage : s.pager.page? f.ref = some ⟨f.ref, m, .inner inner⟩) (hlen : ¬ inner.children.length < 2)
    (hslot : Action.Runs (mergeSlot pins inner.children slot) s slot' s)
    (ha : inner.children[slot']? = some ra) (hb : inner.children[slot' + 1]? = some rb)
    (hsep : inner.keys[slot']? = some key) (hpa : ra ∈ pins) (hpb : rb ∈ pins)
    (hleft : s.pager.page? ra = some left) (hright : s.pager.page? rb = some right)
    (hmerge : Action.Runs (mergePages pins f.ref key left right) s outcome t)
    (hrest : Action.Runs (do
      let page ← held f.ref
      match page.node, outcome with
      | .leaf _, _ => Action.fail (.corruption f.ref (.kindChanged "merge"))
      | .inner inner, .absorbed =>
        let (_, _, smaller) ← Action.orAbort (inner.removeChild? (slot' + 1))
        setNode (I := I) f.ref (.inner smaller)
        modifyTree fun tree =>
          if tree.rightmost = rb then { tree with rightmost := ra } else tree
        return some rb
      | .inner inner, .rebalanced separator =>
        setNode (I := I) f.ref (.inner (← Action.orAbort (inner.setKey? slot' separator)))
        return none) t gone u) : Action.Runs (mergeChild pins f.ref slot) s gone u := by
  unfold mergeChild
  refine (held_runs hpage).bind ?_
  refine (Action.runs_ofExcept rfl s).bind ?_
  rw [if_neg hlen]
  refine hslot.bind ?_
  refine (Action.runs_orAbort ha s).bind ?_
  refine (Action.runs_orAbort hb s).bind ?_
  refine (Action.runs_orAbort hsep s).bind ?_
  refine (pinned_runs hpa hleft).bind ?_
  refine (pinned_runs hpb hright).bind ?_
  exact hmerge.bind hrest

omit [Ord K] in
/-- After the merge, the parent is brought into line. -/
theorem mergeChild_runs (hwin : f.Window c g a key b)
    (hpage : s.pager.page? f.ref = some (f.page c.ref)) (ha : s.pager.page? a.ref = some a.page)
    (hb : s.pager.page? b.ref = some b.page) (hpa : a.ref ∈ pins) (hpb : b.ref ∈ pins)
    (hlow : g.lowKeys.length = g.low.length)
    (hslot : Action.Runs (mergeSlot pins (f.page c.ref).children f.low.length) s g.low.length s)
    (hmerge : Action.Runs (mergePages pins f.ref key a.page b.page) s outcome t)
    (hmerged : row.MergedAs a.ref b.ref outcome) (hpage' : t.pager.page? f.ref = some (f.page c.ref)) :
    ∃ gone, gone.toList = outcome.freed b.ref ∧ Action.Runs (mergeChild pins f.ref f.low.length) s gone
      (redirected (t.withNode f.ref (mendedNode g row)) a.ref b.ref outcome) := by
  rw [hwin.page] at hpage hpage' hslot
  have hleft : (g.low.map Subtree.ref ++ a.ref :: b.ref :: g.high.map Subtree.ref)[g.low.length]? = some a.ref := by
    rw [List.getElem?_append_right (by rw [List.length_map]), List.length_map, Nat.sub_self]
    rfl
  have hright : (g.low.map Subtree.ref ++ a.ref :: b.ref :: g.high.map Subtree.ref)[g.low.length + 1]?
      = some b.ref := by
    rw [List.getElem?_append_right (by rw [List.length_map]; omega), List.length_map, Nat.add_sub_cancel_left]
    rfl
  have hsep : (g.lowKeys ++ key :: g.highKeys)[g.low.length]? = some key := by
    rw [← hlow, List.getElem?_append_right (Nat.le_refl _), Nat.sub_self]
    rfl
  have hlen : ¬ (g.low.map Subtree.ref ++ a.ref :: b.ref :: g.high.map Subtree.ref).length < 2 := by
    rw [List.length_append, List.length_cons, List.length_cons]
    omega
  -- an absorbed page leaves its parent with one child less; else only the separator changes
  cases hmerged with
  | @absorbed x hx =>
    refine ⟨some b.ref, rfl, mergeChild_runs_of hpage hlen hslot hleft hright hsep hpa hpb ha hb hmerge ?_⟩
    let inner : Inner K :=
      ⟨g.lowKeys ++ key :: g.highKeys, g.low.map Subtree.ref ++ a.ref :: b.ref :: g.high.map Subtree.ref⟩
    have hremove := Inner.removeChild?_eq (show inner.keys = _ from rfl) rfl (by rw [List.length_map, hlow])
    rw [hlow] at hremove
    have hnode : mendedNode g (.single x) = (.inner ⟨g.lowKeys ++ g.highKeys,
        g.low.map Subtree.ref ++ a.ref :: g.high.map Subtree.ref⟩ : Node K I) := by
      rw [mendedNode, List.map_append, ← hx]
      rfl
    refine (held_runs hpage').bind ?_
    refine (Action.runs_orAbort hremove t).bind ?_
    refine (setNode_runs t f.ref _).bind ?_
    rw [← hnode]
    refine Action.Runs.bind (a := ()) ?_ (Action.runs_pure _ _)
    have := modifyTree_runs (t.withNode f.ref (mendedNode g (.single x))) fun tree =>
      if tree.rightmost = b.ref then { tree with rightmost := a.ref } else tree
    convert this using 1
    unfold redirected Merged.redirect
    dsimp only
    split <;> rfl
  | @rebalanced x y sep hx hy =>
    refine ⟨none, rfl, mergeChild_runs_of hpage hlen hslot hleft hright hsep hpa hpb ha hb hmerge ?_⟩
    let inner : Inner K :=
      ⟨g.lowKeys ++ key :: g.highKeys, g.low.map Subtree.ref ++ a.ref :: b.ref :: g.high.map Subtree.ref⟩
    have hset := Inner.setKey?_eq (show inner.keys = _ from rfl) sep
    rw [hlow] at hset
    have hnode : mendedNode g (.pair x sep y) = (.inner ⟨g.lowKeys ++ sep :: g.highKeys,
        g.low.map Subtree.ref ++ a.ref :: b.ref :: g.high.map Subtree.ref⟩ : Node K I) := by
      rw [mendedNode, List.map_append, ← hx, ← hy]
      rfl
    refine (held_runs hpage').bind ?_
    refine (Action.runs_orAbort hset t).bind ?_
    rw [hnode]
    exact (setNode_runs t f.ref _).bind (Action.runs_pure _ _)

/-- Where the child lacks nothing the page stays as it is. -/
theorem Mended.refl (h : Spells s (plugAll fs (f.plug c))) (hf : f.Fits s.tree.config.pageSize d)
    (hreg : c.Regular s.tree.config.pageSize d) (hfill : c.Filled s.tree.config.pageSize) :
    Mended s s d fs f c (f.lowKeys ++ f.highKeys) (f.low ++ c :: f.high) [] where
  spells := h
  regular := Frame.regular_plug hf hreg hfill
  size_le := by rw [List.length_append]; exact Nat.le_refl _
  size_ge := by rw [List.length_append]; exact Nat.le_succ _
  entries := (Subtree.entries_inner f.ref f.measures _ _).symm
  kids x hx := ⟨x, hx, rfl⟩
  refs := by rw [List.append_nil]; rfl
  narrow := ⟨none, by simp, Redrawn.refl _ s, List.nil_subset _⟩
  tree := rfl
  measured h := h

/-- The page in which the merged row has taken the place of the two. -/
theorem Regrouped.redrawn_parent (h : Regrouped s t d a key b outcome row) (g : Frame K I) :
    Redrawn [g.ref, a.ref, b.ref] s (redirected (t.withNode g.ref (mendedNode g row)) a.ref b.ref outcome) := by
  have hnode : Redrawn [g.ref] t (redirected (t.withNode g.ref (mendedNode g row)) a.ref b.ref outcome) :=
    (redrawn_withNode t g.ref _).trans (redrawn_tree _ _ rfl rfl rfl)
  exact (h.redrawn.mono (List.subset_cons_self _ _)).trans (hnode.mono (by simp))

theorem Regrouped.storedIn_hang (h : Regrouped s t d a key b outcome row)
    (hst : (g.hang (.pair a key b)).StoredIn s.pager.page?) (hnd : (g.hang (.pair a key b)).refs.Nodup) :
    (g.hang row).StoredIn (t.withNode g.ref (mendedNode g row)).pager.page? := by
  obtain ⟨-, hpage, hsides⟩ := Frame.storedIn_hang.mp hst
  have hperm := (g.refs_hang (.pair a key b)).nodup_iff.mp hnd
  rw [Row.refs_pair] at hperm
  obtain ⟨-, hgnd, hdisj⟩ := List.nodup_append.mp hperm
  -- the merge writes on the two and on nothing else of the page
  have hout : ∀ r ∈ g.refs, t.pager.page? r = s.pager.page? r := fun r hr =>
    h.frame fun hin => hdisj r hin r hr rfl
  have hself : g.ref ∈ g.refs := List.mem_cons_self
  refine Frame.storedIn_hang.mpr ⟨?_, page?_withNode ((hout g.ref hself).trans hpage) _, fun x hx => ?_⟩
  · refine h.stored.congr fun r hr => page?_withNode_ne ?_ _
    rintro rfl
    exact hdisj g.ref (h.refs.subset (List.mem_append_left _ hr)) g.ref hself rfl
  · refine (hsides x hx).congr fun r hr => ?_
    have hmem : r ∈ g.sides.flatMap Subtree.refs := List.mem_flatMap.mpr ⟨x, hx, hr⟩
    refine (page?_withNode_ne ?_ _).trans (hout r (List.mem_cons_of_mem _ hmem))
    rintro rfl
    exact (List.nodup_cons.mp hgnd).1 hmem

theorem Regrouped.refs_hang (h : Regrouped s t d a key b outcome row) (g : Frame K I) :
    ((g.hang row).refs ++ outcome.freed b.ref).Perm (g.hang (.pair a key b)).refs := by
  refine ((g.refs_hang row).append_right _).trans ?_
  refine (perm_append_right_comm _ _ _).trans ((h.refs.append_right g.refs).trans ?_)
  rw [← Row.refs_pair]
  exact (g.refs_hang (.pair a key b)).symm

theorem Regrouped.entries_hang (h : Regrouped s t d a key b outcome row) (g : Frame K I) :
    (g.hang row).entries = (g.hang (.pair a key b)).entries := by
  rw [Frame.entries_hang, Frame.entries_hang, h.entries, Row.entries_pair]

variable [Std.TransOrd K]

/-- With the row in the place of the two, the pages are in order again. -/
theorem Regrouped.spells (h : Regrouped s t d a key b outcome row) (hs : Spells s (plugAll fs (g.hang (.pair a key b))))
    (hg : g.Fits s.tree.config.pageSize d) (hfs : Spine.Fits s.tree.config.pageSize (d + 1) fs)
    (ha : a.leaves ≠ []) : Spells (redirected (t.withNode g.ref (mendedNode g row)) a.ref b.ref outcome)
      (plugAll fs (g.hang row)) := by
  obtain ⟨hst, hnd⟩ := hs.below
  have hpair : (g.hang (.pair a key b)).leaves ≠ [] := by
    rw [Frame.leaves_hang, Row.leaves_pair]
    simp [ha]
  refine hs.replug hfs hpair ?_ (h.redrawn_parent g) ?_ ?_ rfl (h.storedIn_hang hst hnd) _ (h.refs_hang g) ?_
  · show (Row.single (g.hang (.pair a key b))).Refits none (.single (g.hang row)) s.tree.rightmost
      (outcome.redirect a.ref b.ref t.tree.rightmost)
    rw [h.tree]
    refine (h.refits _).hang hg (by simp) ?_ (Frame.surrounds_hang hg.low rfl) ?_
      (Frame.surrounds_hang hg.low h.fits.length)
    · rw [Row.leaves_pair]
      simp [ha]
    · rw [Row.refs_single]
      exact g.refs_hang (.pair a key b)
  · have hin := (g.refs_hang (.pair a key b)).symm.subset
    rw [Row.refs_pair] at hin
    refine List.cons_subset.mpr ⟨hin (List.mem_append_right _ List.mem_cons_self), List.cons_subset.mpr ⟨?_,
      List.cons_subset.mpr ⟨?_, List.nil_subset _⟩⟩⟩
    · exact hin (List.mem_append_left _ (List.mem_append_left _ a.ref_mem_refs))
    · exact hin (List.mem_append_left _ (List.mem_append_right _ b.ref_mem_refs))
  · show t.tree.root = s.tree.root
    rw [h.tree]
  · rw [h.entries_hang]
    exact hs.keyed_below

/-- The child and the one beside it can be merged. -/
theorem exists_regrouped (h : Spells s (plugAll fs (f.plug c))) (hwin : f.Window c g a key b)
    (hf : f.Fits s.tree.config.pageSize d) (hreg : c.Regular s.tree.config.pageSize d)
    (hle : c.size ≤ s.tree.config.pageSize) (hc : ∀ x ∈ c.children, x.ref ∈ pins)
    (hbeside : ∀ x ∈ f.beside, ∀ y ∈ x.children, y.ref ∈ pins) : ∃ outcome row t,
      Action.Runs (mergePages pins f.ref key a.page b.page) s outcome t ∧ Regrouped s t d a key b outcome row := by
  obtain ⟨hst, hnd⟩ := Spells.below (t := f.plug c) h
  rw [hwin.eq] at hst hnd
  obtain ⟨hsa, hsb⟩ := Row.storedIn_pair.mp (Frame.storedIn_hang.mp hst).1
  have hrow := (List.nodup_append.mp ((g.refs_hang _).nodup_iff.mp hnd)).1
  rw [Row.refs_pair] at hrow
  have hside := fun x (hx : x ∈ f.beside) => Frame.mem_sides_of_mem_beside hx
  obtain ⟨hra, hrb⟩ := hwin.both hreg fun x hx => hf.regular x (hside x hx)
  obtain ⟨hale, hble⟩ := hwin.both (P := fun x => x.size ≤ s.tree.config.pageSize) hle
    fun x hx => (hf.filled x (hside x hx)).2
  obtain ⟨hca, hcb⟩ := hwin.both (P := fun x => ∀ y ∈ x.children, y.ref ∈ pins) hc hbeside
  exact mergePages_runs hra hrb hsa hsb hrow (hwin.size_add_ge hf) hale hble
    (List.forall_mem_append.mpr ⟨hca, hcb⟩) f.ref key

/-- Where the child lacks a slot it is merged. -/
theorem exists_mended (h : Spells s (plugAll fs (f.plug c)))
    (hfs : Spine.Fits s.tree.config.pageSize d (f :: fs)) (hreg : c.Regular s.tree.config.pageSize d)
    (hle : c.size ≤ s.tree.config.pageSize) (hpins : ∀ x ∈ (f.plug c).children, x.ref ∈ pins)
    (hc : ∀ x ∈ c.children, x.ref ∈ pins) (hbeside : ∀ x ∈ f.beside, ∀ y ∈ x.children, y.ref ∈ pins) :
    ∃ ks cs gone u, Action.Runs (mergeChild pins f.ref f.low.length) s gone u
      ∧ Mended s u d fs f c ks cs gone.toList := by
  have hps := h.pageSize
  obtain ⟨hst, hnd⟩ := Spells.below (t := f.plug c) h
  have hheld := fun x hx => (Spells.child (t := f.plug c) h (x := x) hx).1
  obtain ⟨g, a, key, b, hwin, hslot⟩ := mergeSlot_runs (s := s) hfs.1 (hfs.size_ge (by omega)) hpins hheld
  obtain ⟨outcome, row, t, hmerge, hre⟩ := exists_regrouped h hwin hfs.1 hreg hle hc hbeside
  -- the two are taken out of the page, merged, and what has come out is hung in again
  have hg := hwin.fits hfs.1
  obtain ⟨hma, hmb⟩ := hwin.mem_children
  have hpage := (Frame.storedIn_plug.mp hst).2.1
  have hpage' : t.pager.page? f.ref = some (f.page c.ref) := by
    rw [← hpage]
    refine hre.frame fun hin => ?_
    rcases List.mem_append.mp hin with hin | hin
    · exact Subtree.ref_notMem_child hnd hma hin
    · exact Subtree.ref_notMem_child hnd hmb hin
  obtain ⟨gone, hgone, hrun⟩ := mergeChild_runs hwin hpage (hheld a hma) (hheld b hmb) (hpins a hma) (hpins b hmb)
    hg.low hslot hmerge hre.merged hpage'
  have hspells := hre.spells (hwin.eq ▸ h) hg hfs.2.2.2 (hwin.both hreg fun x hx =>
    hfs.1.regular x (Frame.mem_sides_of_mem_beside hx)).1.leaves_ne_nil
  have hredrawn := hre.redrawn_parent g
  have hrefs := hre.refs_hang g
  have hentries := hre.entries_hang g
  have hT : Subtree.inner f.ref f.measures (g.lowKeys ++ (row.keys ++ g.highKeys))
      (g.low ++ (row.trees ++ g.high)) = g.hang row := by
    rw [← hwin.ref, ← hwin.measures]
    rfl
  rw [hwin.ref] at hspells hredrawn
  rw [← hwin.eq] at hrefs hentries
  have hsize := hwin.size
  have hkeys := hre.merged.length_keys_le
  have hlen : (g.lowKeys ++ (row.keys ++ g.highKeys)).length = g.size + row.keys.length := g.size_hang row
  refine ⟨_, _, gone, _, hrun, {
    spells := hT ▸ hspells
    regular := hT ▸ Frame.regular_hang hg hre.fits
    size_le := by omega
    size_ge := by omega
    entries := by rw [← hentries, Frame.hang, Subtree.entries_inner]
    kids := fun x hx => ?_
    refs := by rw [hT, hgone]; exact hrefs
    narrow := ?_
    tree := ?_
    measured := fun hm x hx => ?_ }⟩
  · rcases hwin.mem_hang hx with hx | hx
    · obtain ⟨y, hy, heq⟩ := hre.merged.ref_mem x hx
      exact ⟨y, List.forall_mem_cons.mpr ⟨hma, List.forall_mem_singleton.mpr hmb⟩ y hy, heq⟩
    · exact ⟨x, hx, rfl⟩
  · obtain ⟨x, hx, hends⟩ := hwin.exists_other
    have hin : ∀ y ∈ [a, b], y.ref ∈ [c.ref, x.ref] := by
      intro y hy
      rcases hends y hy with rfl | rfl
      · exact List.mem_cons_self
      · exact List.mem_cons_of_mem _ List.mem_cons_self
    have hina := hin a List.mem_cons_self
    have hinb := hin b (List.mem_cons_of_mem _ List.mem_cons_self)
    refine ⟨some x.ref, ?_, hredrawn.mono ?_, ?_⟩
    · rintro r ⟨⟩
      exact List.mem_map_of_mem hx
    · exact List.cons_subset.mpr ⟨List.mem_cons_self, List.subset_cons_of_subset _
        (List.cons_subset.mpr ⟨hina, List.cons_subset.mpr ⟨hinb, List.nil_subset _⟩⟩)⟩
    · rw [hgone]
      exact List.Subset.trans (outcome.freed_subset b.ref) (List.cons_subset.mpr ⟨hinb, List.nil_subset _⟩)
  · show { t.tree with rightmost := outcome.redirect a.ref b.ref t.tree.rightmost }
      = { s.tree with rightmost := outcome.redirect a.ref b.ref t.tree.rightmost }
    rw [hre.tree]
  · rcases hwin.mem_hang hx with hx | hx
    · exact hre.measured (hm a hma) (hm b hmb) x hx
    · exact hm x hx

end Merge

/-! ## Its values -/

section Values

variable {s : Index K I} {r : PageRef} {m : List Int64} {ks : List K} {cs : List (Subtree K I)}

/-- The item is taken out of the values, or these are folded anew. -/
theorem subtractOrFold_runs (pins : Pins) (hpage : s.pager.page? r = some (Subtree.inner r m ks cs).page)
    (hchildren : ∀ x ∈ cs, s.pager.page? x.ref = some x.page ∧ r ≠ x.ref) (hpins : ∀ x ∈ cs, x.ref ∈ pins)
    (item : I) : ∃ m' u, Action.Runs (subtractOrFold pins r (s.tree.measures.ofItem item)) s () u
      ∧ Redrawn [r] s u ∧ u.tree = s.tree ∧ u.pager.page? r = some (Subtree.inner r m' ks cs).page
      ∧ ∀ items, m = s.tree.measures.ofItems items → items.Perm (item :: cs.flatMap Subtree.items) →
        (∀ x ∈ cs, x.Measured s.tree.measures) →
        m' = s.tree.measures.ofItems (cs.flatMap Subtree.items) := by
  let sub := s.tree.measures.subtract m (s.tree.measures.ofItem item)
  let t := s.withMeasures r sub.2
  have hpage' := page?_withMeasures hpage sub.2
  -- only where the item may have been the least or the greatest is the page folded from its children
  cases hexact : sub.1 with
  | true =>
    refine ⟨sub.2, t, ?_, redrawn_withMeasures s r sub.2, rfl, hpage', fun items hm hperm _ => ?_⟩
    · unfold subtractOrFold
      refine (held_runs hpage).bind ?_
      refine (Action.runs_get s).bind ?_
      refine (setMeasures_runs s r sub.2).bind ?_
      show Action.Runs (if (!sub.1) = true then _ else pure ()) t () t
      rw [if_neg (by rw [hexact]; simp)]
      exact Action.runs_pure () t
    · refine MeasureSet.ofItems_of_subtract ?_ hperm
      rw [← hm, ← hexact]
  | false =>
    let m' := s.tree.measures.fold (cs.map Subtree.measures)
    have hfold : Action.Runs (foldPinned pins (cs.map Subtree.ref)) t m' t :=
      foldPinned_runs hpins fun x hx =>
        (page?_withMeasures_ne (hchildren x hx).2 sub.2).trans (hchildren x hx).1
    refine ⟨m', t.withMeasures r m', ?_, (redrawn_withMeasures s r sub.2).trans (redrawn_withMeasures t r m'),
      rfl, page?_withMeasures hpage' m', fun items _ _ hmeas => Subtree.fold_measures hmeas⟩
    unfold subtractOrFold
    refine (held_runs hpage).bind ?_
    refine (Action.runs_get s).bind ?_
    refine (setMeasures_runs s r sub.2).bind ?_
    show Action.Runs (if (!sub.1) = true then _ else pure ()) t () _
    rw [if_pos (by rw [hexact]; rfl)]
    exact hfold.bind (setMeasures_runs t r m')

end Values

end Index

end PagedIndex
