import PagedIndex.Proofs.Subtree.Measured
import PagedIndex.Proofs.Subtree.Sound
import PagedIndex.Tree.Basic

/-!
# Checks that go down a tree

A tree can be checked page by page while bounds are handed down from each page to its children (`Checks`): each
page is asked only for its own keys, its own size and its own values. What is asked of the tree as a whole follows
(`Checks.sound`), also what no page is asked for: a page that were met twice would bring its entries in twice, and
keys ascend strictly (`nodup_of_ascending`).
-/

namespace PagedIndex

/-- Between two separators, a key is between the bounds of the page as well. -/
theorem InRange.widen {K : Type} [Ord K] [Std.TransOrd K] {lower upper : Option K} {ks : List K} {i : Nat} {key : K}
    (hks : ∀ k ∈ ks, InRange lower upper k) (hi : i ≤ ks.length)
    (h : InRange (lowerAt lower ks i) (ks[i]?.or upper) key) : InRange lower upper key := by
  obtain ⟨hlow, hup⟩ := h
  constructor
  · cases i with
    | zero => exact hlow
    | succ i =>
      have hk : AtLeast (some ks[i]) key := by
        rw [lowerAt, List.getElem?_eq_getElem (by omega)] at hlow
        exact hlow
      have hle := (hks ks[i] (List.getElem_mem _)).1
      cases lower with
      | none => trivial
      | some l => exact Std.TransCmp.isLE_trans hle hk
  · rcases Nat.lt_or_ge i ks.length with hlt | hge
    · rw [List.getElem?_eq_getElem hlt] at hup
      have hlt' := (hks ks[i] (List.getElem_mem _)).2
      cases upper with
      | none => trivial
      | some u => exact Std.TransCmp.lt_trans hup hlt'
    · rw [List.getElem?_eq_none hge] at hup
      exact hup

/-- What keeps to the bounds of a page and to the separators beside a child keeps to the bounds of the child. -/
theorem InRange.narrow {K : Type} [Ord K] {lower upper : Option K} {ks : List K} {i : Nat} {key : K}
    (h : InRange lower upper key) (hbeside : InRange (lowerAt none ks i) ks[i]? key) :
    InRange (lowerAt lower ks i) (ks[i]?.or upper) key := by
  constructor
  · cases i with
    | zero => exact h.1
    | succ i => exact hbeside.1
  · have hup := hbeside.2
    cases hk : ks[i]? with
    | none => exact h.2
    | some k => rwa [hk] at hup

/-- What keeps to the bounds of a child keeps to the separators beside it. -/
theorem InRange.beside {K : Type} [Ord K] {lower upper : Option K} {ks : List K} {i : Nat} {key : K}
    (h : InRange (lowerAt lower ks i) (ks[i]?.or upper) key) : InRange (lowerAt none ks i) ks[i]? key := by
  constructor
  · cases i with
    | zero => trivial
    | succ i => exact h.1
  · have hup := h.2
    cases hk : ks[i]? with
    | none => trivial
    | some k => rwa [hk] at hup

namespace Subtree

variable {K I : Type}

/-! ## No page is met twice -/

theorem mem_subtrees_of_child {s t c : Subtree K I} (hc : c ∈ t.children) (hs : s ∈ c.subtrees) : s ∈ t.subtrees := by
  cases t with
  | leaf => exact absurd hc List.not_mem_nil
  | inner => exact mem_subtrees_inner.mpr (.inr ⟨c, hc, hs⟩)

theorem mem_subtrees_cases {s t : Subtree K I} (h : s ∈ t.subtrees) : s = t ∨ ∃ c ∈ t.children, s ∈ c.subtrees := by
  cases t with
  | leaf =>
    rw [subtrees_leaf, List.mem_singleton] at h
    exact .inl h
  | inner => exact mem_subtrees_inner.mp h

theorem length_refs_le {s t : Subtree K I} (h : s ∈ t.subtrees) : s.refs.length ≤ t.refs.length := by
  induction t using subtrees.induct with
  | case1 r m l =>
    rw [subtrees_leaf, List.mem_singleton] at h
    exact h ▸ Nat.le_refl _
  | case2 r m ks cs ih =>
    rcases mem_subtrees_inner.mp h with rfl | ⟨c, hc, hs⟩
    · exact Nat.le_refl _
    · have hsub : c.refs.Sublist (cs.flatMap refs) := by
        rw [List.flatMap_def]
        exact List.sublist_flatten_of_mem (List.mem_map_of_mem hc)
      have := hsub.length_le
      have := ih c hc hs
      rw [refs_inner, List.length_cons]
      omega

/-- A tree is not a part of one of its children. -/
theorem notMem_subtrees_child {t c : Subtree K I} (hc : c ∈ t.children) : t ∉ c.subtrees := by
  intro h
  cases t with
  | leaf => exact absurd hc List.not_mem_nil
  | inner r m ks cs =>
    have hle := length_refs_le h
    have hsub : c.refs.Sublist (cs.flatMap refs) := by
      rw [List.flatMap_def]
      exact List.sublist_flatten_of_mem (List.mem_map_of_mem hc)
    have := hsub.length_le
    rw [refs_inner, List.length_cons] at hle
    omega

theorem StoredIn.of_mem {view : PageRef → Option (Page K I)} {s t : Subtree K I} (h : StoredIn view t)
    (hs : s ∈ t.subtrees) : StoredIn view s := fun u hu => h u (mem_subtrees_trans hu hs)

/-- In a store, what stands at the top does not stand below it once more. -/
theorem StoredIn.ref_notMem_child {view : PageRef → Option (Page K I)} {t c : Subtree K I} (h : StoredIn view t)
    (hc : c ∈ t.children) : t.ref ∉ c.refs := by
  intro hr
  obtain ⟨s, hs, href⟩ := List.mem_map.mp hr
  obtain rfl := (h.of_mem (mem_subtrees_of_child hc hs)).unique h href
  exact notMem_subtrees_child hc hs

variable [Ord K] [Std.TransOrd K] {pageSize d : Nat}

/-- Where keys ascend and no page is empty, no page is met twice. -/
theorem nodup_of_ascending {view : PageRef → Option (Page K I)} {t : Subtree K I} (hp : 2 ≤ pageSize)
    (hst : StoredIn view t) (h : t.Regular pageSize d) (ha : Ascending t.walk) : t.refs.Nodup := by
  induction h with
  | leaf =>
    rw [refs_leaf]
    simp
  | @inner d r m ks cs hl hreg hf ih =>
    have hpart : ∀ c ∈ cs, Ascending c.walk := fun c hc => by
      rw [walk_inner] at ha
      exact ha.sublist (part_sublist_weave (List.mem_map_of_mem hc))
    rw [refs_inner]
    refine List.nodup_cons.mpr ⟨fun hr => ?_,
      List.pairwise_flatMap.mpr ⟨fun c hc => ih c hc (hst.child hc) (hpart c hc), ?_⟩⟩
    · obtain ⟨c, hc, hrc⟩ := List.mem_flatMap.mp hr
      exact hst.ref_notMem_child (show c ∈ (Subtree.inner r m ks cs).children from hc) hrc
    · -- a page below two children would bring an entry in under both
      have hinc := increasing_entries ha
      rw [entries_inner, List.map_flatMap, Increasing, List.pairwise_flatMap] at hinc
      refine hinc.2.imp_of_mem fun {c c'} hc hc' hlt => ?_
      rintro x hx _ hx' rfl
      obtain ⟨s, hs, rfl⟩ := List.mem_map.mp hx
      obtain ⟨s', hs', href⟩ := List.mem_map.mp hx'
      obtain rfl := ((hst.child hc').of_mem hs').unique ((hst.child hc).of_mem hs) href
      obtain ⟨d', hregs⟩ := (hreg c hc).of_mem hs
      have hfs := (hreg c hc).filled_of_mem (hf c hc) hs
      obtain ⟨e, he⟩ := List.exists_mem_of_ne_nil _ (hregs.entries_ne_nil hp (by have := hfs.1; omega))
      have hmem : ∀ {u : Subtree K I}, s' ∈ u.subtrees → e.1 ∈ u.entries.map Prod.fst := fun hu =>
        List.mem_map_of_mem (entry_mem_walk.mp ((walk_sublist_of_mem hu).subset (entry_mem_walk.mpr he)))
      have hself := hlt e.1 (hmem hs) e.1 (hmem hs')
      exact absurd (hself.symm.trans Std.ReflCmp.compare_self) (by decide)

/-! ## Checks with bounds -/

omit [Ord K] [Std.TransOrd K] in
theorem lowerAt_cons {lower : Option K} {key : K} {keys : List K} {i : Nat} :
    lowerAt lower (key :: keys) (i + 1) = lowerAt (some key) keys i := by
  cases i <;> rfl

/-- What is asked of one page of a tree, everything below it being known. -/
structure PageChecks (tree : Tree K I) (s : Subtree K I) : Prop where
  size_le : s.size ≤ tree.config.pageSize
  size_ge : s.ref = tree.root ∨ tree.config.minFill ≤ s.size
  /-- An inner root has a separator. -/
  size_pos : s.ref = tree.root → s.children ≠ [] → 1 ≤ s.size
  /-- An inner page has one more child than separators. -/
  arity : ∀ r m ks cs, s = .inner r m ks cs → cs.length = ks.length + 1
  routed : s.Routed
  measured : s.measures = tree.measures.ofItems s.items

/-- What is asked of a part of a tree that serves the keys from `lower` up to `upper`. -/
structure Checks (view : PageRef → Option (Page K I)) (tree : Tree K I) (lower upper : Option K)
    (t : Subtree K I) : Prop where
  stored : t.StoredIn view
  pages : ∀ s ∈ t.subtrees, PageChecks tree s
  range : ∀ s ∈ t.walk, InRange lower upper s.key
  keyed : ∀ e ∈ t.entries, compare (tree.keyOf e.2) e.1 = .eq

variable {view : PageRef → Option (Page K I)} {tree : Tree K I} {lower upper : Option K} {t : Subtree K I}

omit [Std.TransOrd K] in
theorem checks_leaf {r : PageRef} {m : List Int64} {l : Leaf K I} :
    Checks view tree lower upper (.leaf r m l) ↔ view r = some ⟨r, m, .leaf l⟩
      ∧ (l.size ≤ tree.config.pageSize ∧ (r = tree.root ∨ tree.config.minFill ≤ l.size))
      ∧ Increasing l.keys ∧ (∀ k ∈ l.keys, InRange lower upper k)
      ∧ (∀ e ∈ l.entries, compare (tree.keyOf e.2) e.1 = .eq) ∧ tree.measures.ofItems l.items = m := by
  constructor
  · intro h
    have htop := h.pages _ (mem_subtrees_self _)
    refine ⟨storedIn_leaf.mp h.stored, ⟨htop.size_le, htop.size_ge⟩, htop.routed, fun k hk => ?_, ?_, ?_⟩
    · obtain ⟨e, he, rfl⟩ := List.mem_map.mp hk
      exact h.range (.entry e) (entry_mem_walk.mpr (by rwa [entries_leaf]))
    · rw [← entries_leaf r m l]
      exact h.keyed
    · rw [← items_leaf r m l]
      exact htop.measured.symm
  · rintro ⟨hst, ⟨hle, hge⟩, hinc, hrange, hkeyed, hm⟩
    refine ⟨storedIn_leaf.mpr hst, fun s hs => ?_, fun s hs => ?_, by rwa [entries_leaf]⟩
    · rw [subtrees_leaf, List.mem_singleton] at hs
      subst hs
      exact ⟨hle, hge, fun _ hne => absurd rfl hne, fun _ _ _ _ => nofun, hinc, by rw [items_leaf]; exact hm.symm⟩
    · rw [walk_leaf] at hs
      obtain ⟨e, he, rfl⟩ := List.mem_map.mp hs
      exact hrange e.1 (List.mem_map_of_mem he)

/-- The bounds of a page are handed down to its children, each of which is checked between the separators beside
it. -/
theorem checks_inner {r : PageRef} {m : List Int64} {ks : List K} {cs : List (Subtree K I)}
    (hl : cs.length = ks.length + 1) : Checks view tree lower upper (.inner r m ks cs)
      ↔ view r = some ⟨r, m, .inner ⟨ks, cs.map ref⟩⟩
      ∧ (ks.length ≤ tree.config.pageSize ∧ (r = tree.root ∨ tree.config.minFill ≤ ks.length))
      ∧ ((r = tree.root → ks ≠ []) ∧ Increasing ks ∧ ∀ k ∈ ks, InRange lower upper k)
      ∧ tree.measures.fold (cs.map Subtree.measures) = m
      ∧ ∀ i c, cs[i]? = some c → Checks view tree (lowerAt lower ks i) (ks[i]?.or upper) c := by
  constructor
  · intro h
    have htop := h.pages _ (mem_subtrees_self _)
    obtain ⟨hinc, hrouted⟩ := htop.routed
    have hbelow : ∀ c ∈ cs, ∀ s ∈ c.subtrees, PageChecks tree s := fun c hc s hs =>
      h.pages s (mem_subtrees_inner.mpr (.inr ⟨c, hc, hs⟩))
    refine ⟨h.stored.top, ⟨htop.size_le, htop.size_ge⟩, ⟨fun hr => ?_, hinc, fun k hk => ?_⟩, ?_, fun i c hc => ?_⟩
    · exact List.ne_nil_of_length_pos (htop.size_pos hr (List.ne_nil_of_length_pos (l := cs) (by omega)))
    · refine h.range (.separator k) ?_
      rw [walk_inner]
      exact separator_mem_weave (by rw [List.length_map]; omega) hk
    · rw [fold_measures fun c hc s hs => (hbelow c hc s hs).measured, ← items_inner r m ks cs]
      exact htop.measured.symm
    · have hmem := List.mem_of_getElem? hc
      have hsub : c.walk ⊆ (Subtree.inner r m ks cs).walk := by
        rw [walk_inner]
        exact (part_sublist_weave (List.mem_map_of_mem hmem)).subset
      refine ⟨h.stored.child hmem, hbelow c hmem, fun s hs => ?_, fun e he => h.keyed e ?_⟩
      · exact (h.range s (hsub hs)).narrow (hrouted i c hc s hs)
      · rw [entries_inner]
        exact List.mem_flatMap.mpr ⟨c, hmem, he⟩
  · rintro ⟨hst, ⟨hle, hge⟩, ⟨hroot, hinc, hrange⟩, hm, hcs⟩
    -- each child is checked at its place, and every place has bounds of its own
    have hchild : ∀ c ∈ cs, ∃ i, cs[i]? = some c := fun c hc => List.mem_iff_getElem?.mp hc
    have hmeasured : ∀ c ∈ cs, c.Measured tree.measures := by
      intro c hc s hs
      obtain ⟨i, hi⟩ := hchild c hc
      exact ((hcs i c hi).pages s hs).measured
    refine ⟨storedIn_inner.mpr ⟨hst, fun c hc => ?_⟩, fun s hs => ?_, fun s hs => ?_, fun e he => ?_⟩
    · obtain ⟨i, hi⟩ := hchild c hc
      exact (hcs i c hi).stored
    · rcases mem_subtrees_inner.mp hs with rfl | ⟨c, hc, hsc⟩
      · refine ⟨hle, hge, fun hr _ => List.length_pos_of_ne_nil (hroot hr), ?_, ⟨hinc, fun i c hi s hs => ?_⟩, ?_⟩
        · rintro _ _ _ _ ⟨⟩
          exact hl
        · exact ((hcs i c hi).range s hs).beside
        · rw [items_inner, ← fold_measures hmeasured]
          exact hm.symm
      · obtain ⟨i, hi⟩ := hchild c hc
        exact (hcs i c hi).pages s hsc
    · rw [walk_inner] at hs
      rcases mem_weave hs with ⟨part, hpart, hsp⟩ | ⟨k, hk, rfl⟩
      · obtain ⟨c, hc, rfl⟩ := List.mem_map.mp hpart
        obtain ⟨i, hi⟩ := hchild c hc
        have hlt := (List.getElem?_eq_some_iff.mp hi).1
        exact InRange.widen hrange (by omega) ((hcs i c hi).range s hsp)
      · exact hrange k hk
    · rw [entries_inner] at he
      obtain ⟨c, hc, hec⟩ := List.mem_flatMap.mp he
      obtain ⟨i, hi⟩ := hchild c hc
      exact (hcs i c hi).keyed e hec

/-! ## Checks of a whole tree -/

omit [Std.TransOrd K] in
/-- In a whole tree that passes, every page below the root is filled: the root is not below itself. -/
theorem Checks.filled (h : Checks view tree none none t) (href : t.ref = tree.root) :
    ∀ c ∈ t.children, ∀ s ∈ c.subtrees, s.Filled tree.config.pageSize := by
  intro c hc s hs
  have hpage := h.pages s (mem_subtrees_of_child hc hs)
  refine ⟨hpage.size_ge.resolve_left fun hroot => ?_, hpage.size_le⟩
  exact h.stored.ref_notMem_child hc (href.trans hroot.symm ▸ mem_refs_of_mem hs)

/-- A whole tree that passes is regular if its leaves lie at one depth, and no page is met twice then. -/
theorem Checks.regular (h : Checks view tree none none t) (hp : 4 ≤ tree.config.pageSize) (href : t.ref = tree.root)
    (hdepth : ∀ n ∈ t.depths, n = d) : t.Regular tree.config.pageSize d ∧ t.refs.Nodup := by
  have hreg : t.Regular tree.config.pageSize d :=
    regular_of (fun r m ks cs hs => (h.pages _ hs).arity r m ks cs rfl) (h.filled href) hdepth
  exact ⟨hreg, nodup_of_ascending (by omega) h.stored hreg
    (ascending_of_routed hreg fun s hs => (h.pages s hs).routed)⟩

/-- The checks of a whole tree, with the depth of its leaves and their chain, ask for what is asked of it. -/
theorem checks_iff_sound (hp : 4 ≤ tree.config.pageSize) (href : t.ref = tree.root) :
    Checks view tree none none t ∧ (∃ d, ∀ n ∈ t.depths, n = d) ∧ Linked none t.leaves
      ↔ t.StoredIn view ∧ t.Sound tree.config.pageSize ∧ (∀ e ∈ t.entries, compare (tree.keyOf e.2) e.1 = .eq)
        ∧ t.Measured tree.measures := by
  constructor
  · rintro ⟨h, ⟨d, hdepth⟩, hlinked⟩
    have harity : ∀ r m ks cs, .inner r m ks cs ∈ t.subtrees → cs.length = ks.length + 1 :=
      fun r m ks cs hs => (h.pages _ hs).arity r m ks cs rfl
    have hrouted : ∀ s ∈ t.subtrees, s.Routed := fun s hs => (h.pages s hs).routed
    have hbelow := h.filled href
    have hnd := (h.regular hp href hdepth).2
    exact ⟨h.stored, ⟨harity, hrouted, fun s hs => (h.pages s hs).size_le, fun c hc s hs => (hbelow c hc s hs).1,
      (h.pages t (mem_subtrees_self t)).size_pos href, ⟨d, hdepth⟩, hnd, hlinked⟩, h.keyed,
      fun s hs => (h.pages s hs).measured⟩
  · rintro ⟨hst, h, hkeyed, hm⟩
    refine ⟨⟨hst, fun s hs => ?_, fun _ _ => ⟨trivial, trivial⟩, hkeyed⟩, h.level, h.linked⟩
    refine ⟨h.size_le s hs, ?_, fun hroot => ?_, ?_, h.routed s hs, hm s hs⟩
    · rcases mem_subtrees_cases hs with rfl | ⟨c, hc, hsc⟩
      · exact .inl href
      · exact .inr (h.size_ge c hc s hsc)
    · obtain rfl := (hst.of_mem hs).unique hst (hroot.trans href.symm)
      exact h.size_pos
    · rintro r m ks cs rfl
      exact h.children r m ks cs hs

end Subtree

end PagedIndex
