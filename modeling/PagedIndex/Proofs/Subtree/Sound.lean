import PagedIndex.Proofs.Subtree.Links
import PagedIndex.Proofs.Subtree.Order

/-!
# What is asked of a tree

`Sound` lists what is asked of a tree of pages, page by page: how many children a page has, which keys are below
which child, how many slots are in use. For proofs there is a shorter form (`sound_iff`): the tree is whole, a
walk through it ascends, and no page is met twice.
-/

namespace PagedIndex.Subtree

variable {K I : Type}

/-- How deep each leaf lies, from left to right. -/
def depths : Subtree K I → List Nat
  | .leaf .. => [0]
  | .inner _ _ _ children => (children.flatMap depths).map (· + 1)

theorem depths_leaf (r : PageRef) (m : List Int64) (l : Leaf K I) : (Subtree.leaf r m l).depths = [0] := by
  rw [depths]

theorem depths_inner (r : PageRef) (m : List Int64) (ks : List K) (cs : List (Subtree K I)) :
    (Subtree.inner r m ks cs).depths = (cs.flatMap depths).map (· + 1) := by
  rw [depths]

/-- What is asked of a tree whose pages have `pageSize` slots. -/
structure Sound [Ord K] (pageSize : Nat) (t : Subtree K I) : Prop where
  /-- An inner page has exactly one more child than separators. -/
  children : ∀ r m ks cs, .inner r m ks cs ∈ t.subtrees → cs.length = ks.length + 1
  /-- Keys ascend, and everything below a child lies between the separators beside it. -/
  routed : ∀ s ∈ t.subtrees, s.Routed
  size_le : ∀ s ∈ t.subtrees, s.size ≤ pageSize
  /-- Every page below the root is at least half full. -/
  size_ge : ∀ c ∈ t.children, ∀ s ∈ c.subtrees, pageSize / 2 ≤ s.size
  /-- An inner root has a separator. -/
  size_pos : t.children ≠ [] → 1 ≤ t.size
  /-- All leaves are at the same depth. -/
  level : ∃ d, ∀ n ∈ t.depths, n = d
  /-- No page is reached by two paths. -/
  nodup : t.refs.Nodup
  /-- The right links lead through the leaves from left to right, and end there. -/
  linked : Linked none t.leaves

variable {pageSize d : Nat} {t : Subtree K I}

theorem Regular.eq_depth (h : t.Regular pageSize d) : ∀ n ∈ t.depths, n = d := by
  induction h with
  | leaf => rw [depths_leaf]; simp
  | inner _ _ _ ih =>
    intro n hn
    rw [depths_inner, List.mem_map] at hn
    obtain ⟨k, hk, rfl⟩ := hn
    obtain ⟨c, hc, hkc⟩ := List.mem_flatMap.mp hk
    rw [ih c hc k hkc]

theorem depths_ne_nil (h : ∀ r m ks cs, .inner r m ks cs ∈ t.subtrees → cs.length = ks.length + 1) :
    t.depths ≠ [] := by
  induction t using subtrees.induct with
  | case1 r m l => rw [depths_leaf]; simp
  | case2 r m ks cs ih =>
    have hlen := h r m ks cs (mem_subtrees_self _)
    obtain ⟨c, hc⟩ := List.exists_mem_of_length_pos (l := cs) (by omega)
    have hne := ih c hc fun r' m' ks' cs' hmem =>
      h r' m' ks' cs' (mem_subtrees_inner.mpr (.inr ⟨c, hc, hmem⟩))
    obtain ⟨n, hn⟩ := List.exists_mem_of_ne_nil _ hne
    rw [depths_inner]
    exact List.ne_nil_of_mem (List.mem_map_of_mem (List.mem_flatMap.mpr ⟨c, hc, hn⟩))

/-- Page by page, a tree is regular. -/
theorem regular_of (hchildren : ∀ r m ks cs, .inner r m ks cs ∈ t.subtrees → cs.length = ks.length + 1)
    (hfilled : ∀ c ∈ t.children, ∀ s ∈ c.subtrees, s.Filled pageSize) (hdepth : ∀ n ∈ t.depths, n = d) :
    t.Regular pageSize d := by
  induction t using subtrees.induct generalizing d with
  | case1 r m l =>
    rw [depths_leaf, List.forall_mem_singleton] at hdepth
    exact hdepth ▸ .leaf
  | case2 r m ks cs ih =>
    have hlen := hchildren r m ks cs (mem_subtrees_self _)
    have hbelow : ∀ c ∈ cs, ∀ r' m' ks' cs', .inner r' m' ks' cs' ∈ c.subtrees → cs'.length = ks'.length + 1 :=
      fun c hc r' m' ks' cs' hmem => hchildren r' m' ks' cs' (mem_subtrees_inner.mpr (.inr ⟨c, hc, hmem⟩))
    have hstep : ∀ c ∈ cs, ∀ n ∈ c.depths, n + 1 = d := by
      intro c hc n hn
      refine hdepth (n + 1) ?_
      rw [depths_inner]
      exact List.mem_map_of_mem (List.mem_flatMap.mpr ⟨c, hc, hn⟩)
    obtain ⟨d, rfl⟩ : ∃ d', d = d' + 1 := by
      obtain ⟨c, hc⟩ := List.exists_mem_of_length_pos (l := cs) (by omega)
      obtain ⟨n, hn⟩ := List.exists_mem_of_ne_nil _ (depths_ne_nil (hbelow c hc))
      exact ⟨n, (hstep c hc n hn).symm⟩
    refine .inner hlen (fun c hc => ih c hc (hbelow c hc) ?_ ?_) fun c hc => hfilled c hc c (mem_subtrees_self c)
    · intro x hx s hs
      refine hfilled c hc s ?_
      cases c with
      | leaf => exact absurd hx List.not_mem_nil
      | inner r' m' ks' cs' => exact mem_subtrees_inner.mpr (.inr ⟨x, hx, hs⟩)
    · intro n hn
      have := hstep c hc n hn
      omega

/-- What is asked of a tree, in short. -/
theorem sound_iff [Ord K] [Std.TransOrd K] (hp : 2 ≤ pageSize) : t.Sound pageSize
    ↔ (∃ d, t.Whole pageSize d) ∧ Ascending t.walk ∧ t.refs.Nodup ∧ Linked none t.leaves := by
  constructor
  · intro h
    have hbelow : ∀ c ∈ t.children, ∀ s ∈ c.subtrees, s ∈ t.subtrees := by
      intro c hc s hs
      cases t with
      | leaf => exact absurd hc List.not_mem_nil
      | inner r m ks cs => exact mem_subtrees_inner.mpr (.inr ⟨c, hc, hs⟩)
    obtain ⟨d, hdepth⟩ := h.level
    have hreg : t.Regular pageSize d := regular_of h.children
      (fun c hc s hs => ⟨h.size_ge c hc s hs, h.size_le s (hbelow c hc s hs)⟩) hdepth
    refine ⟨⟨d, hreg, h.size_le t (mem_subtrees_self t), fun hd => h.size_pos ?_⟩,
      (routed_iff_ascending hp hreg).mp h.routed, h.nodup, h.linked⟩
    obtain ⟨d, rfl⟩ := Nat.exists_eq_succ_of_ne_zero hd
    obtain ⟨r, m, ks, cs, rfl, hlen, -, -⟩ := hreg.eq_inner
    exact List.ne_nil_of_length_pos (show 0 < cs.length by omega)
  · rintro ⟨⟨d, hw⟩, ha, hnd, hl⟩
    have hbelow : ∀ c ∈ t.children, ∀ s ∈ c.subtrees, s.Filled pageSize := by
      intro c hc s hs
      cases hw.regular with
      | leaf => exact absurd hc List.not_mem_nil
      | inner _ hreg hf => exact (hreg c hc).filled_of_mem (hf c hc) hs
    refine ⟨fun r m ks cs hmem => ?_, (routed_iff_ascending hp hw.regular).mpr ha, fun s hs => ?_,
      fun c hc s hs => (hbelow c hc s hs).1, fun hne => ?_, ⟨d, hw.regular.eq_depth⟩, hnd, hl⟩
    · obtain ⟨d', hreg⟩ := hw.regular.of_mem hmem
      cases hreg with
      | inner hlen _ _ => exact hlen
    · cases t with
      | leaf r m l =>
        rw [subtrees_leaf, List.mem_singleton] at hs
        exact hs ▸ hw.size_le
      | inner r m ks cs =>
        rcases mem_subtrees_inner.mp hs with rfl | ⟨c, hc, hsc⟩
        · exact hw.size_le
        · exact (hbelow c hc s hsc).2
    · refine hw.size_pos fun hd => hne ?_
      subst hd
      obtain ⟨r, m, l, rfl⟩ := hw.regular.eq_leaf
      rfl

end PagedIndex.Subtree
