import PagedIndex.Proofs.Index.Holding

/-!
# The way of a key

A descent for a key comes through one page on each level, from the root to a leaf. In terms of the pages alone,
`OnWay` says which ones these are and `Beside` which ones lie next to them, below the same page. When the pages
spell out a tree, the way is the spine of the key (`Spells.onWay_iff`), which is what the program keeps of its descent
(`Holds.onWay_iff_path`), and beside it lie the neighbours of its frames (`Spells.beside`).
-/

namespace PagedIndex

variable {K I : Type}

namespace Frame

/-- The children beside the one left out. -/
def beside (f : Frame K I) : List (Subtree K I) := f.low.getLast?.toList ++ f.high.head?.toList

/-- The separators and children of the page, the child being called `child`. -/
def inner (f : Frame K I) (child : PageRef) : Inner K :=
  ⟨f.lowKeys ++ f.highKeys, f.low.map Subtree.ref ++ child :: f.high.map Subtree.ref⟩

variable {f : Frame K I} {x : Subtree K I}

theorem mem_sides_of_mem_beside (hx : x ∈ f.beside) : x ∈ f.sides := by
  rcases List.mem_append.mp hx with hx | hx
  · exact List.mem_append_left _ (List.mem_of_getLast? (Option.mem_toList.mp hx))
  · exact List.mem_append_right _ (List.mem_of_mem_head? (Option.mem_toList.mp hx))

theorem getElem?_child (f : Frame K I) (child : PageRef) : (f.inner child).children[f.low.length]? = some child := by
  show (f.low.map Subtree.ref ++ child :: f.high.map Subtree.ref)[f.low.length]? = some child
  rw [List.getElem?_append_right (by rw [List.length_map]), List.length_map, Nat.sub_self]
  rfl

/-- A child beside the one left out has the slot before or behind it. -/
theorem exists_slot_beside (hx : x ∈ f.beside) (child : PageRef) : ∃ slot, (f.inner child).children[slot]? = some x.ref
    ∧ (slot + 1 = f.low.length ∨ slot = f.low.length + 1) := by
  rcases List.mem_append.mp hx with hx | hx
  · obtain ⟨xs, hxs⟩ := List.getLast?_eq_some_iff.mp (Option.mem_toList.mp hx)
    refine ⟨xs.length, f.getElem?_before hxs child, .inl ?_⟩
    rw [hxs, List.length_append]
    rfl
  · obtain ⟨xs, hxs⟩ := List.head?_eq_some_iff.mp (Option.mem_toList.mp hx)
    exact ⟨_, f.getElem?_after hxs child, .inr rfl⟩

/-- A search for the key finds the child left out. -/
theorem Routes.position [Ord K] [Std.TransOrd K] {key : K} (h : f.Routes key) (hlow : f.lowKeys.length = f.low.length)
    (child : PageRef) : ((f.inner child).seek key).position = f.low.length := by
  have hhigh : f.highKeys.takeWhile (fun k => (compare k key).isLE) = [] := by
    cases hk : f.highKeys with
    | nil => rfl
    | cons k ks =>
      refine List.takeWhile_cons_of_neg ?_
      rw [Std.OrientedCmp.gt_of_lt (h.high k (by rw [hk]; rfl))]
      simp
  rw [Inner.seek_position, inner, List.takeWhile_append_of_pos h.low, hhigh, List.append_nil, hlow]

end Frame

/-- The page at the top of a spine is one of its pages, or the one at its end. -/
theorem Spine.top_mem (bottom : PageRef) (fs : List (Frame K I)) : top bottom fs ∈ bottom :: fs.map Frame.ref := by
  induction fs generalizing bottom with
  | nil => exact List.mem_cons_self
  | cons f fs ih => exact List.mem_cons_of_mem bottom (ih f.ref)

namespace Index

section

variable [Ord K]

/-- The pages that a descent for the key comes through. -/
inductive OnWay (s : Index K I) (key : K) : PageRef → Prop
  | root : OnWay s key s.tree.root
  | child {parent child : PageRef} {page : Page K I} {inner : Inner K} : OnWay s key parent →
    s.pager.page? parent = some page → page.node = .inner inner →
    inner.children[(inner.seek key).position]? = some child → OnWay s key child

/-- The page is a child of `parent`, which is on the way, and next to the child with which the way goes on. -/
inductive Beside (s : Index K I) (key : K) (parent ref : PageRef) : Prop
  | intro {page : Page K I} {inner : Inner K} {slot : Nat} : s.OnWay key parent →
    s.pager.page? parent = some page → page.node = .inner inner → inner.children[slot]? = some ref →
    slot + 1 = (inner.seek key).position ∨ slot = (inner.seek key).position + 1 → Beside s key parent ref

variable [Std.TransOrd K] {s : Index K I} {key : K} {pageSize d : Nat} {fs : List (Frame K I)} {c : Subtree K I}

/-- From each page of a spine the way goes on with the page below it on the spine. -/
theorem Spells.onWay (h : Spells s (plugAll fs c)) (hfs : Spine.Fits pageSize d fs)
    (hroutes : ∀ f ∈ fs, f.Routes key) : s.OnWay key c.ref ∧ ∀ f ∈ fs, s.OnWay key f.ref
      ∧ ∃ child ∈ c.ref :: fs.map Frame.ref, s.pager.page? f.ref = some (f.page child)
        ∧ ((f.inner child).seek key).position = f.low.length := by
  induction fs generalizing d c with
  | nil =>
    refine ⟨?_, by simp⟩
    rw [show c.ref = s.tree.root from h.root.symm]
    exact .root
  | cons f fs ih =>
    obtain ⟨hroute, hroutes⟩ := List.forall_mem_cons.mp hroutes
    -- the spine is given from its end, the way from the root, so the frames above come first
    obtain ⟨hparent, hrest⟩ := ih (c := f.plug c) h hfs.2.2.2 hroutes
    have hpage := (Frame.storedIn_plug.mp (Spells.below (t := f.plug c) h).1).2.1
    have hslot := hroute.position hfs.1.low c.ref
    refine ⟨hparent.child hpage rfl (hslot.symm ▸ f.getElem?_child c.ref), List.forall_mem_cons.mpr
      ⟨⟨hparent, c.ref, List.mem_cons_self, hpage, hslot⟩, fun g hg => ?_⟩⟩
    obtain ⟨hg, child, hchild, hbelow⟩ := hrest g hg
    exact ⟨hg, child, List.mem_cons_of_mem c.ref hchild, hbelow⟩

/-- The neighbours of the frames of a spine lie beside the way. -/
theorem Spells.beside (h : Spells s (plugAll fs c)) (hfs : Spine.Fits pageSize d fs)
    (hroutes : ∀ f ∈ fs, f.Routes key) {f : Frame K I} (hf : f ∈ fs) {x : Subtree K I} (hx : x ∈ f.beside) :
    s.Beside key f.ref x.ref := by
  obtain ⟨honway, child, -, hpage, hslot⟩ := (h.onWay hfs hroutes).2 f hf
  obtain ⟨slot, hx, hnext⟩ := Frame.exists_slot_beside hx child
  exact .intro honway hpage rfl hx (hslot.symm ▸ hnext)

variable {r r' : PageRef} {m : List Int64} {l : Leaf K I}

/-- The way is the spine, from the root down to the leaf. -/
theorem Spells.onWay_iff (h : Spells s (plugAll fs (.leaf r m l))) (hway : Way pageSize key fs (.leaf r m l)) :
    s.OnWay key r' ↔ r' ∈ r :: fs.map Frame.ref := by
  obtain ⟨hend, hspine⟩ := h.onWay hway.fits hway.routes
  constructor
  · intro hr
    induction hr with
    | root =>
      rw [h.root, Spine.ref_plugAll]
      exact Spine.top_mem r fs
    | @child parent child page inner _ hpage hnode hchild ih =>
      rcases List.mem_cons.mp ih with rfl | hmem
      · -- the way ends at the leaf
        rw [Subtree.storedIn_leaf.mp h.below.1] at hpage
        obtain rfl := Option.some.inj hpage
        exact absurd hnode (by simp)
      · obtain ⟨f, hf, rfl⟩ := List.mem_map.mp hmem
        obtain ⟨-, next, hnext, hstored, hslot⟩ := hspine f hf
        rw [hstored] at hpage
        obtain rfl := Option.some.inj hpage
        obtain rfl := Node.inner.inj hnode
        have hnext' : some next = some child := (f.getElem?_child next).symm.trans (hslot ▸ hchild)
        rw [← Option.some.inj hnext']
        exact hnext
  · intro hmem
    rcases List.mem_cons.mp hmem with rfl | hmem
    · exact hend
    · obtain ⟨f, hf, rfl⟩ := List.mem_map.mp hmem
      exact (hspine f hf).1

end

section

variable [IndexKey K] [Codec I] [Std.TransOrd K] {s : Index K I} {d : Nat} {t : Subtree K I} {key : K}

/-- The way is what the program keeps of its descent for the key: the leaf and the pages of the steps. -/
theorem Holds.onWay_iff_path (h : Holds s d t) (hn : s.pager.next.toNat ≤ 2 ^ 64 - 2) {page : Page K I}
    {steps : List (Tree.Step K I)} {pager : Pager K I}
    (hpath : Action.Runs (s.tree.path key) s.pager (page, steps) pager) {r : PageRef} :
    s.OnWay key r ↔ r ∈ page.ref :: steps.map (·.page.ref) := by
  rcases h.path_cases hn key with ⟨fs, r', m, l, n, p, hrun, -, rfl, hway⟩ | ⟨_, _, p, hfail, -⟩
  · obtain ⟨heq, -⟩ := hrun.unique hpath
    obtain ⟨rfl, rfl⟩ := Prod.mk.inj heq
    rw [h.onWay_iff hway, Spine.refs_steps]
    rfl
  · exact absurd hpath hfail.not_runs

end

end Index

end PagedIndex
