import PagedIndex.Proofs.Subtree.Routing

/-!
# One row in the place of another

A change is made at one place of a tree, and order and links are facts about the whole of it. A row `Refits`
into the place of another when it does so whatever is around: then it does in a frame (`Refits.hang`), and
from there on all the way up (`Refits.plugAll`). Where a new entry comes in, not everything may be around it;
a row that refits for a key asks of its surroundings that they leave room for that key.
-/

namespace PagedIndex

variable {K I : Type}

/-- The row `whole` is met as if `row` hung in the page. -/
structure Frame.Surrounds (f : Frame K I) (row whole : Row K I) : Prop where
  walk : whole.walk = f.before ++ row.walk ++ f.after
  leaves : whole.leaves = f.low.flatMap Subtree.leaves ++ row.leaves ++ f.high.flatMap Subtree.leaves

theorem Frame.surrounds_hang {f : Frame K I} (hf : f.lowKeys.length = f.low.length) {row : Row K I}
    (hr : row.trees.length = row.keys.length + 1) : f.Surrounds row (.single (f.hang row)) :=
  ⟨by rw [Row.walk_single, walk_hang hf hr], by rw [Row.leaves_single, leaves_hang]⟩

theorem Frame.surrounds_plug {f : Frame K I} (hf : f.lowKeys.length = f.low.length) (t : Subtree K I) :
    f.Surrounds (.single t) (.single (f.plug t)) := surrounds_hang hf rfl

/-- A page with a row in it may be cut in two. -/
theorem Frame.surrounds_cut {f : Frame K I} (hf : f.lowKeys.length = f.low.length) {row : Row K I}
    (hr : row.trees.length = row.keys.length + 1) {key : K} {ks ks' : List K} {cs cs' : List (Subtree K I)}
    (hks : f.lowKeys ++ (row.keys ++ f.highKeys) = ks ++ key :: ks') (hcs : f.low ++ (row.trees ++ f.high) = cs ++ cs')
    (hlen : cs.length = ks.length + 1) (r r' : PageRef) (m m' : List Int64) :
    f.Surrounds row (.pair (.inner r m ks cs) key (.inner r' m' ks' cs')) := by
  refine ⟨?_, ?_⟩
  · rw [← walk_hang hf hr, Row.walk_pair_inner hlen, ← hks, ← hcs, hang, Subtree.walk_inner]
  · rw [← leaves_hang, Row.leaves_pair, Subtree.leaves_inner, Subtree.leaves_inner, ← List.flatMap_append, ← hcs,
      hang, Subtree.leaves_inner]

theorem Frame.surrounds_measures {f : Frame K I} {m : List Int64} {row whole : Row K I} :
    ({ f with measures := m } : Frame K I).Surrounds row whole ↔ f.Surrounds row whole :=
  ⟨fun h => ⟨h.walk, h.leaves⟩, fun h => ⟨h.walk, h.leaves⟩⟩

theorem Frame.Surrounds.entries {f : Frame K I} {row whole : Row K I} (h : f.Surrounds row whole) :
    whole.entries
      = f.low.flatMap Subtree.entries ++ row.entries ++ f.high.flatMap Subtree.entries := by
  have : ∀ cs : List (Subtree K I), (cs.flatMap Subtree.leaves).flatMap (fun leaf => leaf.2.entries)
      = cs.flatMap Subtree.entries := fun cs => by rw [List.flatMap_assoc]; rfl
  rw [Row.entries_eq, h.leaves, List.flatMap_append, List.flatMap_append, ← Row.entries_eq, this, this]

/-- The names of the leaves beside the way are names beside the way. -/
theorem Frame.high_sublist_refs (f : Frame K I) :
    ((f.high.flatMap Subtree.leaves).map Prod.fst).Sublist f.refs := by
  refine (Subtree.flatMap_leaves_sublist_refs f.high).trans (.cons f.ref ?_)
  rw [sides, List.flatMap_append]
  exact List.sublist_append_right _ _

theorem firstRef_ne_nil {as bs : List (PageRef × Leaf K I)} (h : ∀ next, firstRef next bs = firstRef next as)
    (hne : as ≠ []) : bs ≠ [] := by
  rintro rfl
  obtain ⟨leaf, rest, rfl⟩ := List.exists_cons_of_ne_nil hne
  exact absurd (h none) (by simp [firstRef])

theorem lastRef_of_ne_nil {as : List (PageRef × Leaf K I)} (h : as ≠ []) (before before' : Option PageRef) :
    lastRef before as = lastRef before' as := by
  rw [lastRef_eq_getLast? before h, lastRef_eq_getLast? before' h]

variable [Ord K]

/-- In the place of `row`, the other row keeps order and links, whatever is around it, and the last leaf of
all, which was `last`, is `last'`. With a key this is said of surroundings that the key fits into. -/
structure Row.Refits (key : Option K) (row row' : Row K I) (last last' : PageRef) : Prop where
  ascending : ∀ u v, (∀ k ∈ key, ∀ x ∈ u, x.Before (.separator k)) →
    (∀ k ∈ key, ∀ x ∈ v, compare k x.key = .lt) → Ascending (u ++ row.walk ++ v) →
    Ascending (u ++ row'.walk ++ v)
  linked : ∀ next, Linked next row.leaves → Linked next row'.leaves
  first : ∀ next, firstRef next row'.leaves = firstRef next row.leaves
  last : ∀ rest, Linked none (row.leaves ++ rest) → (row.refs ++ rest.map Prod.fst).Nodup →
    lastRef none (row.leaves ++ rest) = some last → lastRef none (row'.leaves ++ rest) = some last'

namespace Row.Refits

variable {key : Option K} {row row' : Row K I} {l l' : PageRef}

/-- Nothing but walk and leaves matters. -/
theorem of_eq (hwalk : row'.walk = row.walk) (hleaves : row'.leaves = row.leaves) :
    row.Refits key row' l l where
  ascending u v _ _ h := by rwa [hwalk]
  linked next h := by rwa [hleaves]
  first next := by rw [hleaves]
  last rest _ _ h := by rwa [hleaves]

theorem congr (h : row.Refits key row' l l') {row'' : Row K I} (hwalk : row''.walk = row'.walk)
    (hleaves : row''.leaves = row'.leaves) : row.Refits key row'' l l' where
  ascending u v hu hv ha := by rw [hwalk]; exact h.ascending u v hu hv ha
  linked next hl := by rw [hleaves]; exact h.linked next hl
  first next := by rw [hleaves]; exact h.first next
  last rest hl hnd hlast := by rw [hleaves]; exact h.last rest hl hnd hlast

/-- The values that a page carries have no part in order and links. -/
theorem remeasure (r : PageRef) (m m' : List Int64) (ks : List K) (cs : List (Subtree K I)) :
    (single (.inner r m ks cs)).Refits key (single (.inner r m' ks cs)) l l := by
  refine of_eq ?_ ?_
  · rw [walk_single, walk_single, Subtree.walk_inner, Subtree.walk_inner]
  · rw [leaves_single, leaves_single, Subtree.leaves_inner, Subtree.leaves_inner]

/-- A leaf may have other entries as long as these are in order among what is around. -/
theorem leaf {r : PageRef} {m m' : List Int64} {a b : Leaf K I} (hright : b.right = a.right)
    (ha : ∀ u v, (∀ k ∈ key, ∀ x ∈ u, x.Before (.separator k)) → (∀ k ∈ key, ∀ x ∈ v, compare k x.key = .lt) →
      Ascending (u ++ a.entries.map .entry ++ v) → Ascending (u ++ b.entries.map .entry ++ v)) :
    (single (.leaf r m a)).Refits key (single (.leaf r m' b)) l l := by
  refine ⟨fun u v hu hv h => ?_, fun next h => ?_, fun next => ?_, fun rest _ _ h => ?_⟩
  · rw [walk_single, Subtree.walk_leaf] at h ⊢
    exact ha u v hu hv h
  · rw [leaves_single, Subtree.leaves_leaf] at h ⊢
    exact ⟨hright.trans h.1, trivial⟩
  · rw [leaves_single, leaves_single, Subtree.leaves_leaf, Subtree.leaves_leaf]
    rfl
  · rw [leaves_single, Subtree.leaves_leaf] at h ⊢
    exact h

/-- Two neighbouring leaves may share their entries in another way, as long as the links are as if each had
kept its own. -/
theorem leaves [Std.TransOrd K] {r r' : PageRef} {m m' : List Int64} {a b : Leaf K I} {sep : K}
    {row : Row K I} (hrow : row.Holds (a.entries ++ b.entries))
    (hlinked : a.right = some r' → Linked b.right row.leaves) (hfirst : ∀ next, firstRef next row.leaves = some r)
    (hlast : ∀ rest, ([r, r'] ++ rest.map Prod.fst).Nodup → lastRef none ((r, a) :: (r', b) :: rest) = some l →
      lastRef none (row.leaves ++ rest) = some l') :
    (pair (.leaf r m a) sep (.leaf r' m' b)).Refits key row l l' := by
  have hleaves : (pair (.leaf r m a) sep (.leaf r' m' b)).leaves = [(r, a), (r', b)] := by
    rw [leaves_pair, Subtree.leaves_leaf, Subtree.leaves_leaf]
    rfl
  refine ⟨fun u v _ _ ha => ?_, fun next h => ?_, fun next => ?_, fun rest _ hnd h => ?_⟩
  · refine hrow.ascending (ha.sublist ?_)
    rw [walk_pair, Subtree.walk_leaf, Subtree.walk_leaf, List.map_append]
    refine ((List.Sublist.refl _).append ?_).append (List.Sublist.refl _)
    exact (List.Sublist.refl _).append (List.sublist_cons_self _ _)
  · rw [hleaves] at h
    obtain ⟨ha, hb, -⟩ := h
    have := hlinked ha
    rwa [show b.right = next from hb] at this
  · rw [hfirst, hleaves]
    rfl
  · rw [hleaves] at h
    refine hlast rest ?_ h
    rwa [refs_pair, Subtree.refs_leaf, Subtree.refs_leaf] at hnd

variable [Std.TransOrd K] {f : Frame K I} {old new : Row K I} {pageSize d : Nat}

/-- What refits below a page refits around it. -/
theorem hang (h : row.Refits key row' l l') (hf : f.Fits pageSize d) (hr : ∀ k ∈ key, f.Routes k)
    (hne : row.leaves ≠ []) (hold : f.Surrounds row old) (hrefs : old.refs.Perm (row.refs ++ f.refs))
    (hnew : f.Surrounds row' new) : old.Refits key new l l' := by
  refine ⟨fun u v hu hv ha => ?_, fun next hl => ?_, fun next => ?_, fun rest hl hnd hlast => ?_⟩
  · rw [hold.walk] at ha
    rw [hnew.walk]
    have hsub : (f.before ++ row.walk ++ f.after).Sublist (u ++ (f.before ++ row.walk ++ f.after) ++ v) :=
      (List.sublist_append_right u _).trans (List.sublist_append_left _ v)
    obtain ⟨hleft, hafter, _⟩ := List.pairwise_append.mp (ha.sublist hsub)
    have hbefore := (List.pairwise_append.mp hleft).1
    -- the page itself is part of what is around the row
    have := h.ascending (u ++ f.before) (f.after ++ v) ?_ ?_ ?_
    · simpa only [List.append_assoc] using this
    · intro k hk x hx
      rcases List.mem_append.mp hx with hx | hx
      · exact hu k hk x hx
      · exact Frame.before_key hf (hr k hk) hbefore hx rfl
    · intro k hk x hx
      rcases List.mem_append.mp hx with hx | hx
      · exact Frame.after_key hf (hr k hk) hafter hx
      · exact hv k hk x hx
    · simpa only [List.append_assoc] using ha
  · rw [hold.leaves, linked_append, linked_append] at hl
    rw [hnew.leaves, linked_append, linked_append]
    refine ⟨⟨?_, h.linked _ hl.1.2⟩, hl.2⟩
    rw [h.first]
    exact hl.1.1
  · rw [hnew.leaves, hold.leaves]
    simp only [firstRef_append, h.first]
  · have hne' := firstRef_ne_nil h.first hne
    rw [hold.leaves, List.append_assoc, List.append_assoc] at hl hlast
    rw [lastRef_append, lastRef_of_ne_nil (by simp [hne]) _ none] at hlast
    rw [hnew.leaves, List.append_assoc, List.append_assoc, lastRef_append,
      lastRef_of_ne_nil (by simp [hne']) _ none]
    refine h.last _ (linked_append.mp hl).2 ?_ hlast
    rw [List.map_append, ← List.append_assoc]
    refine (List.Sublist.append ?_ (List.Sublist.refl _)).nodup
      ((hrefs.append_right (rest.map Prod.fst)).nodup_iff.mp hnd)
    exact (List.Sublist.refl _).append f.high_sublist_refs

/-- What refits at the end of a spine refits at its top. -/
theorem plugAll {fs : List (Frame K I)} {t t' : Subtree K I} (h : (single t).Refits key (single t') l l')
    (hfs : Spine.Fits pageSize d fs) (hr : ∀ k ∈ key, ∀ f ∈ fs, f.Routes k) (hne : t.leaves ≠ []) :
    (single (PagedIndex.plugAll fs t)).Refits key (single (PagedIndex.plugAll fs t')) l l' := by
  induction fs generalizing t t' d with
  | nil => exact h
  | cons f fs ih =>
    refine ih (h.hang hfs.1 (fun k hk => hr k hk f List.mem_cons_self) (by simpa using hne)
      (f.surrounds_plug hfs.1.low t) ?_ (f.surrounds_plug hfs.1.low t')) hfs.2.2.2
      (fun k hk g hg => hr k hk g (List.mem_cons_of_mem f hg)) ?_
    · rw [refs_single, refs_single]
      exact f.refs_plug t
    · rw [Frame.leaves_plug]
      simp [hne]

end Row.Refits

end PagedIndex
