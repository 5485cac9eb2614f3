import PagedIndex.Proofs.Index.Growth.Basic
import PagedIndex.Proofs.Pages

/-!
# The growth of a leaf

A leaf with room takes a new entry. A full one is cut in two, and the half where the entry belongs takes it;
the first key of the upper half goes up.
-/

namespace PagedIndex.Index

variable {K I : Type} {s : Index K I} {r : PageRef} {m : List Int64} {l : Leaf K I} {e : K × I}
  {as bs : List (K × I)}

/-- The index with the two halves of a leaf in its pages. -/
def withHalves (s : Index K I) (r new : PageRef) (lower upper : Leaf K I) : Index K I :=
  { (s.draw r (.leaf lower) (s.tree.measures.ofItems lower.items)).draw new (.leaf upper)
      (s.tree.measures.ofItems upper.items) with
    tree := if upper.right.isNone then { s.tree with rightmost := new } else s.tree }

theorem tree_withHalves (s : Index K I) (r new : PageRef) (lower upper : Leaf K I) :
    (s.withHalves r new lower upper).tree
      = { s.tree with rightmost := if upper.right.isNone then new else s.tree.rightmost } := by
  unfold withHalves
  dsimp only
  split <;> rfl

theorem withHalves_pages {new : PageRef} {page : Page K I}
    (hp : s.pager.page? r = some ⟨r, m, .leaf l⟩) (hnew : s.pager.page? new = some page)
    (hname : page.ref = new) (hne : r ≠ new) (lower upper : Leaf K I) :
    (s.withHalves r new lower upper).pager.page? r
        = some ⟨r, s.tree.measures.ofItems lower.items, .leaf lower⟩
      ∧ (s.withHalves r new lower upper).pager.page? new
        = some ⟨new, s.tree.measures.ofItems upper.items, .leaf upper⟩
      ∧ Redrawn ([r] ++ [new]) s (s.withHalves r new lower upper) := by
  refine ⟨?_, ?_, ?_⟩
  · exact (page?_draw_ne hne.symm _ _).trans (page?_draw hp rfl _ _)
  · exact page?_draw ((page?_draw_ne hne _ _).trans hnew) hname _ _
  · have h := (redrawn_draw s r (.leaf lower) (s.tree.measures.ofItems lower.items)).append
      (redrawn_draw _ new (.leaf upper) (s.tree.measures.ofItems upper.items))
    refine h.trans (redrawn_tree _ _ ?_ ?_ ?_)
    all_goals
      rw [tree_draw, tree_draw]
      split <;> rfl

/-- The halves of a split leaf find their places. -/
theorem storeHalves_runs (s : Index K I) (r new : PageRef) (lower : Leaf K I) {upper : Leaf K I} {key : K}
    (hkey : upper.firstKey? = some key) : Action.Runs (do
      setNode r (.leaf lower)
      match upper.firstKey? with
      | none => Action.fail (.corruption r .emptySplit)
      | some separator =>
        setMeasures r (s.tree.measures.ofItems lower.items)
        setNode new (.leaf upper)
        setMeasures new (s.tree.measures.ofItems upper.items)
        if upper.right.isNone then
          modifyTree fun tree => { tree with rightmost := new }
        return { separator, right := new }) s (⟨key, new⟩ : Split K) (s.withHalves r new lower upper) := by
  refine (setNode_runs s r _).bind ?_
  rw [hkey]
  refine (setMeasures_runs _ r _).bind ?_
  refine (setNode_runs _ new _).bind ?_
  refine (setMeasures_runs _ new _).bind ?_
  unfold withHalves
  by_cases hr : upper.right.isNone = true
  · rw [if_pos hr, if_pos hr]
    exact (modifyTree_runs _ _).bind (Action.runs_pure _ _)
  · rw [if_neg hr, if_neg hr]
    exact Action.runs_pure _ _

theorem splitLeaf_runs {new : PageRef} {lower upper : Leaf K I} {half : Nat} {key : K}
    (hh : half = s.tree.config.pageSize / 2) (hle : half ≤ l.size)
    (hbefore : as.length < half →
      ({ l with entries := l.entries.take half } : Leaf K I).insertAt? as.length e = some lower
        ∧ upper = { l with entries := l.entries.drop half })
    (hbehind : ¬ as.length < half → lower = { l with entries := l.entries.take half }
      ∧ ({ l with entries := l.entries.drop half } : Leaf K I).insertAt? (as.length - half) e = some upper)
    (hkey : upper.firstKey? = some key) : Action.Runs (splitLeaf r new l as.length e) s ⟨key, new⟩
      (s.withHalves r new { lower with right := some new } upper) := by
  subst hh
  unfold splitLeaf
  refine (Action.runs_get s).bind ?_
  refine (Action.runs_orAbort (Leaf.splitAt?_eq hle) s).bind ?_
  have hrest := storeHalves_runs s r new { lower with right := some new } hkey
  by_cases hlt : as.length < s.tree.config.pageSize / 2
  · obtain ⟨hl, hu⟩ := hbefore hlt
    subst hu
    dsimp only
    rw [if_pos hlt]
    exact (Action.runs_orAbort hl s).bind ((Action.runs_pure _ s).bind hrest)
  · obtain ⟨hl, hu⟩ := hbehind hlt
    subst hl
    dsimp only
    rw [if_neg hlt]
    exact (Action.runs_orAbort hu s).bind ((Action.runs_pure _ s).bind hrest)

variable [Ord K]

/-- The entries of a leaf with one more fit wherever that one fits. -/
theorem ascending_insert (hcut : l.entries = as ++ bs) (has : ∀ a ∈ as, compare a.1 e.1 = .lt)
    (hbs : ∀ b ∈ bs, compare e.1 b.1 = .lt) {u v : List (Stop K I)} (hu : ∀ x ∈ u, x.Before (.separator e.1))
    (hv : ∀ x ∈ v, compare e.1 x.key = .lt) (h : Ascending (u ++ l.entries.map .entry ++ v)) :
    Ascending (u ++ (as ++ e :: bs).map .entry ++ v) := by
  rw [hcut, List.map_append, ← List.append_assoc, List.append_assoc _ _ v] at h
  rw [List.map_append, List.map_cons, ← List.append_assoc, List.append_assoc _ _ v, List.cons_append]
  refine h.insert (fun x hx => ?_) fun x hx => ?_
  · rcases List.mem_append.mp hx with hx | hx
    · exact (hu x hx).congr rfl
    · obtain ⟨a, ha, rfl⟩ := List.mem_map.mp hx
      exact has a ha
  · rcases List.mem_append.mp hx with hx | hx
    · obtain ⟨b, hb, rfl⟩ := List.mem_map.mp hx
      exact hbs b hb
    · exact hv x hx

/-- A leaf with room takes the entry. -/
theorem addToLeaf_room (hp : s.pager.page? r = some ⟨r, m, .leaf l⟩) (hcut : l.entries = as ++ bs)
    (has : ∀ a ∈ as, compare a.1 e.1 = .lt) (hbs : ∀ b ∈ bs, compare e.1 b.1 = .lt)
    (hroom : l.size < s.tree.config.pageSize) (reserved : List PageRef) : ∃ row t,
      Action.Runs (addToLeaf r as.length e (s.tree.measures.ofItem e.2) reserved) s (none, reserved) t
        ∧ Grown s t e 0 (.leaf r m l) [r] [] row none := by
  have hsize : l.size = (as ++ bs).length := by rw [Leaf.size, hcut]
  let l' : Leaf K I := { l with entries := as ++ e :: bs }
  let m' := s.tree.measures.add m (s.tree.measures.ofItem e.2)
  have hp₁ := page?_withNode hp (.leaf l')
  have hrow : (Row.single (.leaf r m' l') : Row K I).Holds (as ++ e :: bs) := .single rfl
  refine ⟨.single (.leaf r m' l'), s.draw r (.leaf l') m', ?_, ?_⟩
  · unfold addToLeaf
    refine (held_runs hp).bind ?_
    refine (Action.runs_get s).bind ?_
    rw [if_pos hroom]
    refine (Action.runs_orAbort (Leaf.insertAt?_eq hcut e) s).bind ?_
    refine (setNode_runs s r _).bind ?_
    exact (addMeasures_runs hp₁ _).bind (Action.runs_pure _ _)
  · refine {
      content := {
        tree := rfl
        entries := ⟨as, bs, by rw [Subtree.entries_leaf, hcut], hrow.entries_eq⟩
        refits := .leaf rfl fun u v hu hv h => ascending_insert hcut has hbs (hu _ rfl) (hv _ rfl) h }
      carries := .single _
      redrawn := redrawn_draw s r _ _
      path := by rw [Subtree.refs_leaf]; exact List.Subset.refl _
      stored := Row.storedIn_single.mpr (Subtree.storedIn_leaf.mpr (page?_draw hp rfl _ _))
      refs := by rw [Row.refs_single, Subtree.refs_leaf, Subtree.refs_leaf, List.append_nil]
      regular := List.forall_mem_singleton.mpr .leaf
      size_le := List.forall_mem_singleton.mpr ?_
      size_ge := List.forall_mem_singleton.mpr (.inl ?_)
      full := fun h => absurd rfl h
      measured := fun h => ?_ }
    · rw [Subtree.size_leaf, List.length_append, List.length_cons]
      rw [List.length_append] at hsize
      omega
    · rw [Subtree.size_leaf, Subtree.size_leaf, hcut, List.length_append, List.length_append,
        List.length_cons]
      omega
    · rw [Subtree.measured_leaf] at h
      rw [Row.measured_single, Subtree.measured_leaf]
      have hperm : l'.items.Perm (e.2 :: l.items) := by
        rw [Leaf.items, Leaf.items, hcut]
        exact items_insert_perm as bs e
      rw [← s.tree.measures.add_ofItem hperm, ← h]

variable [Std.TransOrd K]

omit [Std.TransOrd K] in
/-- The upper half comes behind the lower one, and it is the last leaf if the whole leaf was. -/
theorem refits_halves {row : Row K I} {key : Option K} {new last : PageRef} {m₁ m₂ : List Int64}
    {lower upper : Leaf K I} {sep : K} (hrow : row = .pair (.leaf r m₁ lower) sep (.leaf new m₂ upper))
    (hleft : lower.right = some new) (hright : upper.right = l.right)
    (ha : ∀ u v, (∀ k ∈ key, ∀ x ∈ u, x.Before (.separator k)) → (∀ k ∈ key, ∀ x ∈ v, compare k x.key = .lt) →
      Ascending (u ++ l.entries.map .entry ++ v) → Ascending (u ++ row.walk ++ v)) :
    (Row.single (.leaf r m l)).Refits key row last (if upper.right.isNone then new else last) := by
  subst hrow
  refine ⟨fun u v hu hv h => ?_, fun next h => ?_, fun next => ?_, fun rest h _ hlast => ?_⟩
  · rw [Row.walk_single, Subtree.walk_leaf] at h
    exact ha u v hu hv h
  · rw [Row.leaves_single, Subtree.leaves_leaf] at h
    rw [Row.leaves_pair, Subtree.leaves_leaf, Subtree.leaves_leaf]
    exact ⟨hleft, hright.trans h.1, trivial⟩
  · rw [Row.leaves_pair, Row.leaves_single, Subtree.leaves_leaf, Subtree.leaves_leaf, Subtree.leaves_leaf]
    rfl
  · rw [Row.leaves_single, Subtree.leaves_leaf] at h hlast
    rw [Row.leaves_pair, Subtree.leaves_leaf, Subtree.leaves_leaf, hright, h.1]
    cases rest with
    | nil => rfl
    | cons leaf rest => exact hlast

/-- A full leaf is cut in two, and the half where the entry belongs takes it. -/
theorem addToLeaf_full (hp : s.pager.page? r = some ⟨r, m, .leaf l⟩) (hcut : l.entries = as ++ bs)
    (has : ∀ a ∈ as, compare a.1 e.1 = .lt) (hbs : ∀ b ∈ bs, compare e.1 b.1 = .lt)
    (hps : 2 ≤ s.tree.config.pageSize) (hfull : l.size = s.tree.config.pageSize) {new : PageRef}
    {page : Page K I} (hnew : s.pager.page? new = some page) (hname : page.ref = new) (hne : r ≠ new)
    (reserved : List PageRef) : ∃ row split t,
      Action.Runs (addToLeaf r as.length e (s.tree.measures.ofItem e.2) (new :: reserved)) s
        (split, reserved) t ∧ Grown s t e 0 (.leaf r m l) [r] [new] row split ∧ split ≠ none := by
  obtain ⟨lower, upper, happ, -, hright, hlo, hup, hsum, hbefore, hbehind⟩ := Leaf.exists_halves hcut
    (s.tree.config.pageSize / 2) (by omega) e
  obtain ⟨y, ys, hy⟩ : ∃ y ys, upper.entries = y :: ys := by
    refine List.exists_cons_of_ne_nil (List.length_pos_iff.mp ?_)
    show 0 < upper.size
    omega
  have hkey : upper.firstKey? = some y.1 := by rw [Leaf.firstKey?, hy]; rfl
  let linked : Leaf K I := { lower with right := some new }
  let t := s.withHalves r new linked upper
  obtain ⟨hpr, hpn, hredrawn⟩ := withHalves_pages hp hnew hname hne linked upper
  let row : Row K I := .pair (.leaf r (s.tree.measures.ofItems linked.items) linked) y.1
    (.leaf new (s.tree.measures.ofItems upper.items) upper)
  have hrow : row.Holds (as ++ e :: bs) := .pair happ hkey
  -- both halves have half a page at least, whichever of them took the entry
  have hlower : s.tree.config.pageSize / 2 ≤ linked.size ∧ linked.size ≤ s.tree.config.pageSize := by
    show _ ≤ lower.size ∧ lower.size ≤ _
    omega
  have hupper : s.tree.config.pageSize / 2 ≤ upper.size ∧ upper.size ≤ s.tree.config.pageSize := by omega
  refine ⟨row, some ⟨y.1, new⟩, t, ?_, {
    content := {
      tree := by rw [s.tree_withHalves]
      entries := ⟨as, bs, by rw [Subtree.entries_leaf, hcut], hrow.entries_eq⟩
      refits := ?_ }
    carries := .pair _ _ _
    redrawn := hredrawn
    path := by rw [Subtree.refs_leaf]; exact List.Subset.refl _
    stored := Row.storedIn_pair.mpr ⟨Subtree.storedIn_leaf.mpr hpr, Subtree.storedIn_leaf.mpr hpn⟩
    refs := by rw [Row.refs_pair, Subtree.refs_leaf, Subtree.refs_leaf, Subtree.refs_leaf]
    regular := List.forall_mem_cons.mpr ⟨.leaf, List.forall_mem_singleton.mpr .leaf⟩
    size_le := List.forall_mem_cons.mpr ⟨hlower.2, List.forall_mem_singleton.mpr hupper.2⟩
    size_ge := List.forall_mem_cons.mpr ⟨.inr hlower.1, List.forall_mem_singleton.mpr (.inr hupper.1)⟩
    full := fun _ => List.forall_mem_cons.mpr ⟨hlower, List.forall_mem_singleton.mpr hupper⟩
    measured := fun _ =>
      Row.measured_pair.mpr ⟨Subtree.measured_leaf.mpr rfl, Subtree.measured_leaf.mpr rfl⟩ }, by simp⟩
  · unfold addToLeaf
    refine (held_runs hp).bind ?_
    refine (Action.runs_get s).bind ?_
    rw [if_neg (by omega)]
    refine (Action.runs_pure (new, reserved) s).bind ?_
    exact (splitLeaf_runs rfl (by omega) hbefore hbehind hkey).bind (Action.runs_pure _ t)
  · rw [s.tree_withHalves]
    exact refits_halves rfl rfl hright fun u v hu hv h =>
      hrow.ascending (ascending_insert hcut has hbs (hu _ rfl) (hv _ rfl) h)

/-- An entry put into a leaf at the slot where it belongs. -/
theorem addToLeaf_grown (hp : s.pager.page? r = some ⟨r, m, .leaf l⟩) (hcut : l.entries = as ++ bs)
    (has : ∀ a ∈ as, compare a.1 e.1 = .lt) (hbs : ∀ b ∈ bs, compare e.1 b.1 = .lt)
    (hps : 2 ≤ s.tree.config.pageSize) (hle : l.size ≤ s.tree.config.pageSize) {reserved : List PageRef}
    (hnd : ([r] ++ reserved).Nodup) (hnames : ∀ n ∈ reserved, (s.pager.page? n).map Page.ref = some n)
    (hres : l.size = s.tree.config.pageSize → reserved ≠ []) : ∃ row split used rest t,
      reserved = used ++ rest
        ∧ Action.Runs (addToLeaf r as.length e (s.tree.measures.ofItem e.2) reserved) s (split, rest) t
        ∧ Grown s t e 0 (.leaf r m l) [r] used row split
        ∧ used.length = (if l.size < s.tree.config.pageSize then 0 else 1)
        ∧ (split ≠ none ↔ ¬ l.size < s.tree.config.pageSize) := by
  rcases Nat.lt_or_ge l.size s.tree.config.pageSize with hroom | hfull
  · obtain ⟨row, t, hrun, hgrown⟩ := addToLeaf_room hp hcut has hbs hroom reserved
    exact ⟨row, none, [], reserved, t, rfl, hrun, hgrown, by rw [if_pos hroom]; rfl, by simpa using hroom⟩
  · have hfull' := Nat.le_antisymm hle hfull
    obtain ⟨new, rest, rfl⟩ := List.exists_cons_of_ne_nil (hres hfull')
    obtain ⟨page, hnew, hname⟩ := Option.map_eq_some_iff.mp (hnames new List.mem_cons_self)
    have hne : r ≠ new := (List.nodup_append.mp hnd).2.2 r List.mem_cons_self new List.mem_cons_self
    obtain ⟨row, split, t, hrun, hgrown, hsplit⟩ := addToLeaf_full hp hcut has hbs hps hfull' hnew hname hne
      rest
    exact ⟨row, split, [new], rest, t, rfl, hrun, hgrown, by rw [if_neg (by omega)]; rfl,
      by simp [hsplit, hfull]⟩

end PagedIndex.Index
