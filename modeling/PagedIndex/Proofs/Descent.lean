import PagedIndex.Proofs.Lookup
import PagedIndex.Proofs.Reading
import PagedIndex.Tree.Lookup

/-!
# Where the walks down end

Behind any pager that serves the pages of a tree, the walk for a key ends at the leaf where the key belongs
(`reads_path`, `reads_locate`), and the walks along first or last children at the first or last leaf. None
of them gives up, since a tree is less deep than it has pages.
-/

namespace PagedIndex

variable {K I : Type} {pageSize d : Nat}

/-- The leaf at the end of the way to a key, and the spine above it. -/
structure Way [Ord K] (pageSize : Nat) (key : K) (fs : List (Frame K I)) (t : Subtree K I) : Prop where
  fits : Spine.Fits pageSize 0 fs
  routes : ∀ f ∈ fs, f.Routes key
  filled : fs ≠ [] → t.Filled pageSize
  size_le : t.size ≤ pageSize

section Way

variable [Ord K] {fs : List (Frame K I)} {r : PageRef} {m : List Int64} {l : Leaf K I} {key : K}

/-- The leaf at the end of a way is in order. -/
theorem Way.increasing (h : Way pageSize key fs (.leaf r m l))
    (ha : Ascending (plugAll fs (.leaf r m l)).walk) : Increasing l.keys := by
  rw [Spine.walk_plugAll h.fits, List.append_assoc] at ha
  have := (List.pairwise_append.mp (List.pairwise_append.mp ha).2.1).1
  exact Subtree.increasing_of_ascending.mp (by rwa [Subtree.walk_leaf] at this)

variable [Std.TransOrd K]

/-- What is stored under the key is stored in the leaf. -/
theorem Way.itemAt_eq (h : Way pageSize key fs (.leaf r m l))
    (ha : Ascending (plugAll fs (.leaf r m l)).walk) :
    itemAt key (plugAll fs (.leaf r m l)).entries = itemAt key l.entries := by
  rw [Spine.itemAt_plugAll h.fits h.routes ha, Subtree.entries_leaf]

/-- If the key is absent, a search cuts the leaf where the key belongs. -/
theorem Way.exists_cut (h : Way pageSize key fs (.leaf r m l))
    (ha : Ascending (plugAll fs (.leaf r m l)).walk)
    (habs : itemAt key (plugAll fs (.leaf r m l)).entries = none) : ∃ as bs, l.entries = as ++ bs
      ∧ (l.seek key).position = as.length ∧ (l.seek key).isExact = false
      ∧ (∀ e ∈ as, compare e.1 key = .lt) ∧ ∀ e ∈ bs, compare key e.1 = .lt := by
  have hinc := h.increasing ha
  rw [h.itemAt_eq ha] at habs
  have hex : (l.seek key).isExact = false := by rw [Leaf.isExact_seek hinc, habs]; rfl
  obtain ⟨as, bs, hcut, hpos, has, ⟨e, bs', -, -, hex', -⟩ | ⟨-, hbs⟩⟩ := l.exists_cut hinc key
  · rw [hex] at hex'
    exact absurd hex' (by simp)
  · exact ⟨as, bs, hcut, hpos, hex, has, hbs⟩

/-- If the key is present, a search cuts the leaf in front of its entry. -/
theorem Way.exists_cut_entry (h : Way pageSize key fs (.leaf r m l))
    (ha : Ascending (plugAll fs (.leaf r m l)).walk) {item : I}
    (hitem : itemAt key (plugAll fs (.leaf r m l)).entries = some item) : ∃ as e bs,
      l.entries = as ++ e :: bs ∧ (l.seek key).position = as.length ∧ (l.seek key).isExact = true
      ∧ compare e.1 key = .eq ∧ e.2 = item := by
  have hinc := h.increasing ha
  rw [h.itemAt_eq ha] at hitem
  have hex : (l.seek key).isExact = true := by rw [Leaf.isExact_seek hinc, hitem]; rfl
  obtain ⟨as, bs, hcut, hpos, has, ⟨e, bs', rfl, heq, -, -⟩ | ⟨hex', -⟩⟩ := l.exists_cut hinc key
  · rw [hcut, itemAt_append_of_absent (absent_of_lt has), itemAt_cons_eq heq] at hitem
    exact ⟨as, e, bs', hcut, hpos, hex, heq, Option.some.inj hitem⟩
  · rw [hex] at hex'
    exact absurd hex' (by simp)

end Way

/-- A subtree on the way to a key, `d` levels above the leaf, and the spine above it. -/
structure Partway [Ord K] (pageSize d : Nat) (key : K) (fs : List (Frame K I)) (t : Subtree K I) : Prop where
  regular : t.Regular pageSize d
  fits : Spine.Fits pageSize d fs
  routes : ∀ f ∈ fs, f.Routes key
  filled : fs ≠ [] → t.Filled pageSize
  size_le : t.size ≤ pageSize
  /-- A root above the leaves has a key to go by. -/
  size_pos : fs = [] → d ≠ 0 → 1 ≤ t.size

section Partway

variable [Ord K] {fs : List (Frame K I)} {t : Subtree K I} {key : K}

/-- The way starts at the root. -/
theorem Subtree.Whole.partway (h : t.Whole pageSize d) (key : K) : Partway pageSize d key [] t where
  regular := h.regular
  fits := trivial
  routes := by simp
  filled := fun hne => absurd rfl hne
  size_le := h.size_le
  size_pos := fun _ => h.size_pos

/-- The way ends at a leaf. -/
theorem Partway.exists_leaf (h : Partway pageSize 0 key fs t) :
    ∃ r m l, t = .leaf r m l ∧ Way pageSize key fs (.leaf r m l) := by
  obtain ⟨r, m, l, rfl⟩ := h.regular.eq_leaf
  exact ⟨r, m, l, rfl, h.fits, h.routes, h.filled, h.size_le⟩

/-- From an inner page the way goes on with the child that a search for the key leads to. -/
theorem Partway.exists_child [Std.TransOrd K] (h : Partway pageSize (d + 1) key fs t) : ∃ f c, t = f.plug c
    ∧ (Inner.seek ⟨f.lowKeys ++ f.highKeys, f.low.map Subtree.ref ++ c.ref :: f.high.map Subtree.ref⟩ key).position
      = f.low.length
    ∧ Partway pageSize d key (f :: fs) c := by
  obtain ⟨r, m, ks, cs, rfl, -⟩ := h.regular.eq_inner
  obtain ⟨f, c, heq, hfit, hroute, hslot, hreg, hfill⟩ := h.regular.exists_frame key
  obtain ⟨rfl, rfl, rfl, rfl⟩ := Subtree.inner.inj (heq.trans (f.plug_eq c))
  rw [List.map_append, List.map_cons] at hslot
  refine ⟨f, c, rfl, hslot.symm, hreg, ⟨hfit, ?_, ?_, h.fits⟩, ?_, fun _ => hfill, hfill.2, by simp⟩
  · exact (f.size_plug c).symm.trans_le h.size_le
  · rw [← f.size_plug c]
    split
    · exact h.size_pos ‹_› (Nat.succ_ne_zero d)
    · exact (h.filled ‹_›).1
  · exact List.forall_mem_cons.mpr ⟨hroute, h.routes⟩

end Partway

theorem Frame.getElem?_children (f : Frame K I) (c : Subtree K I) :
    (f.plug c).page.children[f.low.length]? = some c.ref := by
  rw [page_plug]
  show (f.low.map Subtree.ref ++ c.ref :: f.high.map Subtree.ref)[f.low.length]? = some c.ref
  rw [List.getElem?_append_right (by rw [List.length_map]), List.length_map, Nat.sub_self]
  rfl

/-- The deepest subtree that lies directly left of a spine. -/
def Spine.neighbour : List (Frame K I) → Option (Subtree K I)
  | [] => none
  | f :: fs => f.low.getLast?.or (neighbour fs)

namespace Service

variable [IndexKey K] [Codec I] {srv : Service K I} {t : Subtree K I}

/-! ## First and last children -/

theorem reads_firstChild?_leaf {r : PageRef} {m : List Int64} {l : Leaf K I}
    (hst : (Subtree.leaf r m l).StoredIn srv.view) : srv.Reads (Tree.firstChild? r) (· = none) := by
  refine (reads_top hst).bind_eq ?_
  exact reads_pure rfl

theorem reads_firstChild?_inner {r : PageRef} {m : List Int64} {ks : List K} {c : Subtree K I}
    {cs : List (Subtree K I)} (hst : (Subtree.inner r m ks (c :: cs)).StoredIn srv.view) :
    srv.Reads (Tree.firstChild? r) (· = some c.ref) := by
  refine (reads_top hst).bind_eq ?_
  exact (reads_orAbort rfl).bind_eq (reads_pure rfl)

/-- The walk along first children ends at the first leaf and counts the levels. -/
theorem reads_descendFirst {limit : Nat} (hst : t.StoredIn srv.view) (h : t.Regular pageSize d)
    (hl : d < limit) : srv.Reads (Tree.descendFirst limit t.ref)
      fun out => (∃ l rest, t.leaves = (out.1, l) :: rest) ∧ out.2 = d + 1 := by
  induction limit generalizing t d with
  | zero => exact absurd hl (Nat.not_lt_zero d)
  | succ limit ih =>
    rw [Tree.descendFirst]
    cases d with
    | zero =>
      obtain ⟨r, m, l, rfl⟩ := h.eq_leaf
      refine (reads_firstChild?_leaf hst).bind_eq ?_
      exact reads_pure ⟨⟨l, [], by rw [Subtree.leaves_leaf]; rfl⟩, rfl⟩
    | succ d =>
      obtain ⟨r, m, ks, cs, rfl, hlen, hreg, _⟩ := h.eq_inner
      cases cs with
      | nil => exact absurd hlen (by simp)
      | cons c cs =>
        refine (reads_firstChild?_inner hst).bind_eq ?_
        refine (ih (hst.child List.mem_cons_self) (hreg c List.mem_cons_self)
          (Nat.lt_of_succ_lt_succ hl)).bind fun out hout => ?_
        obtain ⟨⟨l, rest, hleaves⟩, hlevels⟩ := hout
        refine reads_pure ⟨⟨l, rest ++ cs.flatMap Subtree.leaves, ?_⟩, by rw [hlevels]⟩
        rw [Subtree.leaves_inner, List.flatMap_cons, hleaves]
        rfl

/-- The walk along last children ends at the last leaf. -/
theorem reads_descendLast {limit : Nat} (hst : t.StoredIn srv.view) (h : t.Regular pageSize d)
    (hl : d < limit) : srv.Reads (Tree.descendLast limit t.ref)
      fun page => ∃ r m l rest, page = (Subtree.leaf r m l).page ∧ .leaf r m l ∈ t.subtrees
        ∧ t.leaves = rest ++ [(r, l)] := by
  induction limit generalizing t d with
  | zero => exact absurd hl (Nat.not_lt_zero d)
  | succ limit ih =>
    rw [Tree.descendLast]
    refine (reads_top hst).bind_eq ?_
    rw [Subtree.children_page]
    cases d with
    | zero =>
      obtain ⟨r, m, l, rfl⟩ := h.eq_leaf
      refine reads_pure ⟨r, m, l, [], rfl, Subtree.mem_subtrees_self _, ?_⟩
      rw [Subtree.leaves_leaf]
      rfl
    | succ d =>
      obtain ⟨r, m, ks, cs, rfl, hlen, hreg, _⟩ := h.eq_inner
      obtain ⟨cs, c, rfl⟩ := (List.eq_nil_or_concat' cs).resolve_left (by rintro rfl; simp at hlen)
      have hmem : c ∈ cs ++ [c] := List.mem_append_right _ List.mem_cons_self
      rw [show (Subtree.inner r m ks (cs ++ [c])).children = cs ++ [c] from rfl, List.map_append,
        List.map_singleton, List.getLast?_concat]
      refine (ih (hst.child hmem) (hreg c hmem) (Nat.lt_of_succ_lt_succ hl)).mono fun page hpage => ?_
      obtain ⟨r', m', l, rest, hp, hsub, hleaves⟩ := hpage
      refine ⟨r', m', l, cs.flatMap Subtree.leaves ++ rest, hp, ?_, ?_⟩
      · exact Subtree.mem_subtrees_inner.mpr (.inr ⟨c, hmem, hsub⟩)
      · rw [Subtree.leaves_inner, List.flatMap_append, List.flatMap_singleton, hleaves, List.append_assoc]

/-! ## The way to a key -/

variable [Std.TransOrd K] {key : K}

/-- The walk down that keeps its steps: what has been passed is the upper part of the spine. -/
theorem reads_pathFrom {limit : Nat} {fs : List (Frame K I)} (hst : t.StoredIn srv.view)
    (h : Partway pageSize d key fs t) (hl : d < limit) :
    srv.Reads (Tree.pathFrom key limit t.page (Spine.steps t.ref fs)) fun out => ∃ gs r m l,
      out = ((Subtree.leaf r m l).page, Spine.steps r gs) ∧ plugAll fs t = plugAll gs (.leaf r m l)
        ∧ Way pageSize key gs (.leaf r m l) := by
  induction limit generalizing t d fs with
  | zero => exact absurd hl (Nat.not_lt_zero d)
  | succ limit ih =>
    cases d with
    | zero =>
      obtain ⟨r, m, l, rfl, hway⟩ := h.exists_leaf
      rw [Tree.pathFrom]
      exact reads_pure ⟨fs, r, m, l, rfl, rfl, hway⟩
    | succ d =>
      obtain ⟨f, c, rfl, hslot, hnext⟩ := h.exists_child
      obtain ⟨hc, -, -⟩ := Frame.storedIn_plug.mp hst
      have hchild := f.getElem?_children c
      rw [Frame.page_plug] at hchild ⊢
      rw [Tree.pathFrom]
      dsimp only [Frame.page]
      rw [hslot]
      refine (reads_orAbort hchild).bind_eq ?_
      refine (reads_top hc).bind fun page hcp => ?_
      subst hcp
      rw [Frame.ref_plug]
      exact ih hc hnext (Nat.lt_of_succ_lt_succ hl)

/-- The walk down that remembers what lies left of it. -/
theorem reads_locateFrom {limit : Nat} {fs : List (Frame K I)} (hst : t.StoredIn srv.view)
    (h : Partway pageSize d key fs t) (hl : d < limit) :
    srv.Reads (Tree.locateFrom key limit t.ref ((Spine.neighbour fs).map Subtree.ref)) fun out =>
      ∃ gs r m l, out = ((Subtree.leaf r m l).page, (Spine.neighbour gs).map Subtree.ref)
        ∧ plugAll fs t = plugAll gs (.leaf r m l) ∧ Way pageSize key gs (.leaf r m l) := by
  induction limit generalizing t d fs with
  | zero => exact absurd hl (Nat.not_lt_zero d)
  | succ limit ih =>
    rw [Tree.locateFrom]
    refine (reads_top hst).bind_eq ?_
    cases d with
    | zero =>
      obtain ⟨r, m, l, rfl, hway⟩ := h.exists_leaf
      exact reads_pure ⟨fs, r, m, l, rfl, rfl, hway⟩
    | succ d =>
      obtain ⟨f, c, rfl, hslot, hway⟩ := h.exists_child
      obtain ⟨hc, -, -⟩ := Frame.storedIn_plug.mp hst
      have hchild := f.getElem?_children c
      have hnext := ih hc hway (Nat.lt_of_succ_lt_succ hl)
      rw [Frame.page_plug] at hchild ⊢
      dsimp only [Frame.page]
      rw [hslot]
      -- the neighbour changes only if there is a child left of the way
      rcases List.eq_nil_or_concat' f.low with hnil | ⟨low, u, hcat⟩
      · rw [show f.low.length = 0 by rw [hnil]; rfl] at hchild ⊢
        rw [show Spine.neighbour (f :: fs) = Spine.neighbour fs by rw [Spine.neighbour, hnil]; rfl]
          at hnext
        exact (reads_orAbort hchild).bind_eq hnext
      · rw [show Spine.neighbour (f :: fs) = some u by
          rw [Spine.neighbour, hcat, List.getLast?_concat]; rfl] at hnext
        have hu := f.getElem?_before hcat c.ref
        rw [show f.low.length = low.length + 1 by rw [hcat, List.length_append]; rfl] at hchild ⊢
        exact (reads_orAbort hu).bind_eq ((reads_orAbort hchild).bind_eq hnext)

variable {tree : Tree K I}

/-- The walk for a key ends at the leaf where the key belongs. -/
theorem reads_path (hst : t.StoredIn srv.view) (hroot : tree.root = t.ref) (h : t.Whole pageSize d)
    (hd : d < srv.limit) : srv.Reads (tree.path key) fun out => ∃ gs r m l,
      out = ((Subtree.leaf r m l).page, Spine.steps r gs) ∧ t = plugAll gs (.leaf r m l)
        ∧ Way pageSize key gs (.leaf r m l) := by
  refine reads_get.bind fun pager hp => ?_
  rw [hroot]
  refine (reads_top hst).bind_eq ?_
  exact reads_pathFrom hst (h.partway key) (Nat.lt_of_lt_of_le hd (srv.limit_le hp))

theorem reads_locate (hst : t.StoredIn srv.view) (hroot : tree.root = t.ref) (h : t.Whole pageSize d)
    (hd : d < srv.limit) : srv.Reads (tree.locate key) fun out => ∃ gs r m l,
      out = ((Subtree.leaf r m l).page, (Spine.neighbour gs).map Subtree.ref)
        ∧ t = plugAll gs (.leaf r m l) ∧ Way pageSize key gs (.leaf r m l) := by
  refine reads_get.bind fun pager hp => ?_
  rw [hroot]
  exact reads_locateFrom hst (h.partway key) (Nat.lt_of_lt_of_le hd (srv.limit_le hp))

theorem reads_leafFor (hst : t.StoredIn srv.view) (hroot : tree.root = t.ref) (h : t.Whole pageSize d)
    (hd : d < srv.limit) : srv.Reads (tree.leafFor key) fun page => ∃ gs r m l,
      page = (Subtree.leaf r m l).page ∧ t = plugAll gs (.leaf r m l) ∧ Way pageSize key gs (.leaf r m l) := by
  refine (reads_locate hst hroot h hd).bind fun out hout => ?_
  obtain ⟨gs, r, m, l, rfl, heq, hway⟩ := hout
  exact reads_pure ⟨gs, r, m, l, rfl, heq, hway⟩

end Service

end PagedIndex
