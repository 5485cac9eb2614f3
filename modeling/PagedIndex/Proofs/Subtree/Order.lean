import PagedIndex.Proofs.Subtree.Regular

/-!
# Order, page by page

What is demanded of a tree's order speaks of its pages: the keys of a page ascend, and everything below a
child lies in the range that the separators beside it leave to it (`Routed`). In a regular tree of pages
that are not empty this is the same as an ascending walk (`routed_iff_ascending`), which is the form that
all changes are argued in.
-/

namespace PagedIndex

/-- A lower bound, absent at the left edge of a tree. -/
def AtLeast {K : Type} [Ord K] : Option K → K → Prop
  | none, _ => True
  | some lower, key => (compare lower key).isLE

/-- An upper bound, absent at the right edge of a tree. -/
def Under {K : Type} [Ord K] : Option K → K → Prop
  | none, _ => True
  | some upper, key => compare key upper = .lt

/-- The half-open range from `lower` up to `upper`. -/
def InRange {K : Type} [Ord K] (lower upper : Option K) (key : K) : Prop :=
  AtLeast lower key ∧ Under upper key

/-- Each key is below all that come after it. -/
def Increasing {K : Type} [Ord K] (keys : List K) : Prop := keys.Pairwise fun a b => compare a b = .lt

/-- The separator in front of child `i`: before the first child there is only the bound of the page. -/
def lowerAt {K : Type} (lower : Option K) (keys : List K) : Nat → Option K
  | 0 => lower
  | i + 1 => keys[i]?

namespace Subtree

variable {K I : Type} [Ord K]

/-- The keys of the page ascend, and everything below child `i` is at least the separator in front of the
child and below the one behind it. -/
def Routed : Subtree K I → Prop
  | .leaf _ _ l => Increasing l.keys
  | .inner _ _ ks cs => Increasing ks ∧
    ∀ i c, cs[i]? = some c → ∀ s ∈ c.walk, InRange (lowerAt none ks i) ks[i]? s.key

theorem increasing_of_ascending {es : List (K × I)} :
    Ascending (es.map Stop.entry) ↔ Increasing (es.map Prod.fst) := by
  unfold Ascending Increasing
  rw [List.pairwise_map, List.pairwise_map]
  exact Iff.rfl

/-- The keys of an ascending tree ascend across its leaves. -/
theorem increasing_entries {t : Subtree K I} (h : Ascending t.walk) : Increasing (t.entries.map Prod.fst) := by
  unfold Increasing
  rw [List.pairwise_map, ← entries_walk, List.pairwise_filterMap]
  refine h.imp fun {a b} hab e he e' he' => ?_
  obtain rfl := Stop.entry?_eq_some.mp he
  obtain rfl := Stop.entry?_eq_some.mp he'
  exact hab

variable [Std.TransOrd K]

/-! ## From pages to the walk -/

/-- Parts that keep to their ranges can be woven into an ascending walk that keeps to the first bound. -/
theorem ascending_weave (lower : Option K) {ks : List K} {ps : List (List (Stop K I))}
    (hl : ps.length = ks.length + 1) (hk : Increasing ks) (hlow : ∀ k ∈ ks, AtLeast lower k)
    (hp : ∀ p ∈ ps, Ascending p)
    (hr : ∀ i p, ps[i]? = some p → ∀ s ∈ p, InRange (lowerAt lower ks i) ks[i]? s.key) :
    Ascending (weave ks ps) ∧ ∀ s ∈ weave ks ps, AtLeast lower s.key := by
  induction ks generalizing ps lower with
  | nil =>
    obtain ⟨p, rfl⟩ := List.length_eq_one_iff.mp hl
    rw [weave, weave, List.append_nil]
    exact ⟨hp p List.mem_cons_self, fun s hs => (hr 0 p rfl s hs).1⟩
  | cons k ks ih =>
    cases ps with
    | nil => exact absurd hl (by simp)
    | cons p ps =>
      obtain ⟨hkks, hks⟩ := List.pairwise_cons.mp hk
      have hfirst : ∀ s ∈ p, InRange lower (some k) s.key := hr 0 p rfl
      obtain ⟨ha, hge⟩ := ih (some k) (by simpa using hl) hks
        (fun k' hk' => Ordering.isLE_of_eq_lt (hkks k' hk'))
        (fun q hq => hp q (List.mem_cons_of_mem p hq))
        (fun i q hq s hs => by
          have h := hr (i + 1) q (by rw [List.getElem?_cons_succ]; exact hq) s hs
          cases i <;> exact h)
      have hklow : AtLeast lower k := hlow k List.mem_cons_self
      have trans : ∀ x, (compare k x).isLE → AtLeast lower x := by
        intro x hx
        cases lower with
        | none => trivial
        | some l => exact Std.TransCmp.isLE_trans hklow hx
      rw [weave]
      refine ⟨List.pairwise_append.mpr ⟨hp p List.mem_cons_self, List.pairwise_cons.mpr ⟨hge, ha⟩, ?_⟩, ?_⟩
      · intro a hap b hb
        have hak : compare a.key k = .lt := (hfirst a hap).2
        rcases List.mem_cons.mp hb with rfl | hb
        · exact Stop.before_of_lt hak
        · exact Stop.before_of_lt (Std.TransCmp.lt_of_lt_of_isLE hak (hge b hb))
      · intro s hs
        rcases List.mem_append.mp hs with hs | hs
        · exact (hfirst s hs).1
        · rcases List.mem_cons.mp hs with rfl | hs
          · exact hklow
          · exact trans _ (hge s hs)

theorem ascending_of_routed {pageSize d : Nat} {t : Subtree K I} (h : t.Regular pageSize d)
    (hr : ∀ s ∈ t.subtrees, s.Routed) : Ascending t.walk := by
  induction h with
  | @leaf r m l =>
    rw [walk_leaf]
    exact increasing_of_ascending.mpr (hr _ (mem_subtrees_self _))
  | @inner d r m ks cs hl _ _ ih =>
    obtain ⟨hk, hrange⟩ : (Subtree.inner r m ks cs).Routed := hr _ (mem_subtrees_self _)
    rw [walk_inner]
    refine (ascending_weave none (by rwa [List.length_map]) hk (fun _ _ => trivial) ?_ ?_).1
    · intro p hp
      obtain ⟨c, hc, rfl⟩ := List.mem_map.mp hp
      exact ih c hc fun s hs => hr s (mem_subtrees_inner.mpr (.inr ⟨c, hc, hs⟩))
    · intro i p hp s hs
      rw [List.getElem?_map] at hp
      obtain ⟨c, hc, rfl⟩ := Option.map_eq_some_iff.mp hp
      exact hrange i c hc s hs

/-! ## From the walk to pages -/

theorem routed_inner_of_ascending {pageSize d : Nat} {r : PageRef} {m : List Int64} {ks : List K}
    {cs : List (Subtree K I)} (hp : 2 ≤ pageSize) (h : (Subtree.inner r m ks cs).Regular pageSize d)
    (ha : Ascending (Subtree.inner r m ks cs).walk) : (Subtree.inner r m ks cs).Routed := by
  cases h with
  | @inner d _ _ _ _ hl hreg hf =>
    rw [walk_inner] at ha
    have hpart : ∀ c ∈ cs, Ascending c.walk := fun c hc =>
      ha.sublist (part_sublist_weave (List.mem_map_of_mem hc))
    have hrange : ∀ i c, cs[i]? = some c → ∀ s ∈ c.walk, InRange (lowerAt none ks i) ks[i]? s.key := by
      intro i c hc s hs
      have hmem : c ∈ cs := List.mem_of_getElem? hc
      have hi := (List.getElem?_eq_some_iff.mp hc).1
      rw [walk_eq_around hl hc] at ha
      obtain ⟨hleft, _, hright⟩ := List.pairwise_append.mp ha
      constructor
      · cases i with
        | zero => trivial
        | succ i =>
          have hik : i < ks.length := by omega
          show AtLeast ks[i]? s.key
          rw [List.getElem?_eq_getElem hik]
          refine (List.pairwise_append.mp hleft).2.2 (.separator ks[i]) ?_ s hs
          refine separator_mem_weave ?_ (List.mem_take_iff_getElem.mpr ⟨i, by omega, rfl⟩)
          rw [List.length_map, List.length_take, List.length_take]; omega
      · rcases Nat.lt_or_ge i ks.length with hik | hik
        · -- a separator below the child is not above one of the child's entries, which are below `ks[i]`
          obtain ⟨e, he, hle⟩ := (hreg c hmem).exists_entry_ge hp
            (by have := (hf c hmem).1; omega) (hpart c hmem) hs
          rw [List.getElem?_eq_getElem hik]
          refine Std.TransCmp.lt_of_isLE_of_lt hle ?_
          refine hright (.entry e) (List.mem_append_right _ he) (.separator ks[i]) ?_
          rw [List.drop_eq_getElem_cons hik, trail]
          exact List.mem_cons_self
        · rw [List.getElem?_eq_none hik]
          trivial
    refine ⟨List.pairwise_iff_getElem.mpr fun i j hi hj hij => ?_, hrange⟩
    -- between two separators there is a page, and in it an entry
    have hic : i + 1 < cs.length := by omega
    obtain ⟨e, he⟩ := List.exists_mem_of_ne_nil _ ((hreg cs[i + 1] (List.getElem_mem hic)).entries_ne_nil
      hp (by have := (hf cs[i + 1] (List.getElem_mem hic)).1; omega))
    have hin := hrange (i + 1) cs[i + 1] (List.getElem?_eq_getElem hic) (.entry e) (entry_mem_walk.mpr he)
    have h1 : (compare ks[i] e.1).isLE := by
      have := hin.1
      rw [lowerAt, List.getElem?_eq_getElem hi] at this
      exact this
    have hi1 : i + 1 < ks.length := by omega
    have h2 : compare e.1 ks[i + 1] = .lt := by
      have := hin.2
      rw [List.getElem?_eq_getElem hi1] at this
      exact this
    have h12 : compare ks[i] ks[i + 1] = .lt := Std.TransCmp.lt_of_isLE_of_lt h1 h2
    rcases Nat.eq_or_lt_of_le (show i + 1 ≤ j from hij) with rfl | hlt
    · exact h12
    · refine Std.TransCmp.lt_of_lt_of_isLE h12 ?_
      have hs : (weave ks (cs.map walk)).Pairwise Stop.Before := ha
      have hsub : (ks.map Stop.separator : List (Stop K I)).Sublist (weave ks (cs.map walk)) :=
        separators_sublist_weave (by rw [List.length_map]; omega)
      have := List.pairwise_iff_getElem.mp (List.pairwise_map.mp (hs.sublist hsub)) (i + 1) j hi1 hj hlt
      exact this

/-- A regular tree is in order page by page exactly when the walk through it ascends. -/
theorem routed_iff_ascending {pageSize d : Nat} {t : Subtree K I} (hp : 2 ≤ pageSize)
    (h : t.Regular pageSize d) : (∀ s ∈ t.subtrees, s.Routed) ↔ Ascending t.walk := by
  refine ⟨ascending_of_routed h, fun ha s hs => ?_⟩
  obtain ⟨d', hreg⟩ := h.of_mem hs
  have hw : Ascending s.walk := ha.sublist (walk_sublist_of_mem hs)
  cases s with
  | leaf r m l =>
    rw [walk_leaf] at hw
    exact increasing_of_ascending.mp hw
  | inner r m ks cs => exact routed_inner_of_ascending hp hreg hw

end Subtree

end PagedIndex
