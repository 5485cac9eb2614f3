import PagedIndex.Proofs.Finding
import PagedIndex.Tree.SeekRay

/-!
# Where a ray starts

A cursor cuts the entries of a tree in two (`Subtree.Cut`). Behind any pager that serves the pages of a tree, an
ascending ray starts where everything in front of the cut lies off the ray and everything behind it on the ray, and
a descending ray at the last entry that lies on it (`Service.reads_seekRay`). An empty leaf is found only in a tree
that has no other.
-/

namespace PagedIndex

variable {K I : Type}

/-- The entries of some leaves, from left to right. -/
def entriesIn (leaves : List (PageRef × Leaf K I)) : List (K × I) := leaves.flatMap fun leaf => leaf.2.entries

@[simp]
theorem entriesIn_nil : entriesIn ([] : List (PageRef × Leaf K I)) = [] := rfl

@[simp]
theorem entriesIn_cons (leaf : PageRef × Leaf K I) (leaves : List (PageRef × Leaf K I)) :
    entriesIn (leaf :: leaves) = leaf.2.entries ++ entriesIn leaves := List.flatMap_cons

@[simp]
theorem entriesIn_append (as bs : List (PageRef × Leaf K I)) :
    entriesIn (as ++ bs) = entriesIn as ++ entriesIn bs := List.flatMap_append

/-! ## Rays -/

namespace Ray

variable [Ord K]

/-- Whether a key lies on the ray. -/
def covers (ray : Ray K) (key : K) : Bool :=
  match ray.point, ray.direction with
  | .bottom, .ascending | .top, .descending => true
  | .top, .ascending | .bottom, .descending => false
  | .key point, .ascending => (compare key point).isGE
  | .key point, .descending => (compare key point).isLE

/-- The entries along the ray, in its direction. -/
def along (ray : Ray K) (entries : List (K × I)) : List (K × I) :=
  match ray.direction with
  | .ascending => entries.filter fun e => ray.covers e.1
  | .descending => (entries.filter fun e => ray.covers e.1).reverse

/-- How well the entry at which the ray starts fits its point. -/
def fitOf (ray : Ray K) : Option (K × I) → Fit
  | none => .outside
  | some entry =>
    match ray.point with
    | .key point => if compare entry.1 point == .eq then .exact else .nearest
    | _ => .nearest

theorem along_upward (entries : List (K × I)) : upward.along entries = entries := by
  show entries.filter (fun _ => true) = entries
  rw [List.filter_true]

theorem along_downward (entries : List (K × I)) : downward.along entries = entries.reverse := by
  show (entries.filter fun _ => true).reverse = entries.reverse
  rw [List.filter_true]

theorem fitOf_ne_outside (ray : Ray K) (entry : K × I) : ray.fitOf (some entry) ≠ .outside := by
  rw [fitOf]
  split
  · split <;> simp
  · simp

end Ray

/-! ## Cursors -/

/-- The cursor stands behind `as` and in front of `bs`, in the leaf where `bs` starts or, if that is nothing, at the
end of the last leaf. -/
inductive Subtree.Cut (t : Subtree K I) : Cursor → List (K × I) → List (K × I) → Prop
  | mk {front rest : List (PageRef × Leaf K I)} {r : PageRef} {l : Leaf K I} {as bs : List (K × I)} :
    t.leaves = front ++ (r, l) :: rest → l.entries = as ++ bs → (bs = [] → rest = []) →
    Cut t ⟨r, as.length⟩ (entriesIn front ++ as) (bs ++ entriesIn rest)

theorem Subtree.Cut.entries_eq {t : Subtree K I} {cursor : Cursor} {as bs : List (K × I)}
    (h : t.Cut cursor as bs) : t.entries = as ++ bs := by
  obtain ⟨hleaves, hcut, -⟩ := h
  show entriesIn t.leaves = _
  rw [hleaves, entriesIn_append, entriesIn_cons, hcut]
  simp only [List.append_assoc]

/-- Where a ray starts in a tree: an ascending one in front of the entries that lie on it, a descending one at the
last of them or, if there is none, at the very front. -/
inductive Ray.Start [Ord K] (ray : Ray K) (t : Subtree K I) : Found Cursor → Prop
  | ascending {cursor : Cursor} {as bs : List (K × I)} : ray.direction = .ascending → t.Cut cursor as bs →
    (∀ e ∈ as, ray.covers e.1 = false) → (∀ e ∈ bs, ray.covers e.1 = true) →
    Start ray t ⟨ray.fitOf bs.head?, cursor⟩
  | descending {cursor : Cursor} {as bs : List (K × I)} {e : K × I} : ray.direction = .descending →
    t.Cut cursor as (e :: bs) → (∀ x ∈ as, ray.covers x.1 = true) → ray.covers e.1 = true →
    (∀ x ∈ bs, ray.covers x.1 = false) → Start ray t ⟨ray.fitOf (some e), cursor⟩
  | nowhere {r : PageRef} {l : Leaf K I} {rest : List (PageRef × Leaf K I)} : ray.direction = .descending →
    t.leaves = (r, l) :: rest → (∀ e ∈ t.entries, ray.covers e.1 = false) → Start ray t ⟨.outside, ⟨r, 0⟩⟩

/-- A ray starts in front of the entries that lie on it. -/
theorem Ray.start_of_cut [Ord K] {key : K} {t : Subtree K I} {cursor : Cursor} {as bs : List (K × I)} {fit : Fit}
    (hcut : t.Cut cursor as bs) (has : ∀ e ∈ as, compare e.1 key = .lt)
    (hbs : ∀ e ∈ bs, (compare e.1 key).isGE) (hfit : fit = Ray.fitOf ⟨.key key, .ascending⟩ bs.head?) :
    Ray.Start ⟨.key key, .ascending⟩ t ⟨fit, cursor⟩ := by
  rw [hfit]
  refine .ascending rfl hcut (fun e he => ?_) hbs
  show (compare e.1 key).isGE = false
  rw [has e he]
  rfl

/-- A ray starts at the last of the entries that lie on it. -/
theorem Ray.start_at_last [Ord K] {key : K} {t : Subtree K I} {cursor : Cursor} {as bs : List (K × I)} {e : K × I}
    {fit : Fit} (hcut : t.Cut cursor as (e :: bs)) (has : ∀ x ∈ as, compare x.1 key = .lt)
    (he : (compare e.1 key).isLE) (hbs : ∀ x ∈ bs, compare x.1 key = .gt)
    (hfit : fit = Ray.fitOf ⟨.key key, .descending⟩ (some e)) :
    Ray.Start ⟨.key key, .descending⟩ t ⟨fit, cursor⟩ := by
  rw [hfit]
  refine .descending rfl hcut (fun x hx => ?_) he fun x hx => ?_
  · show (compare x.1 key).isLE = true
    rw [has x hx]
    rfl
  · show (compare x.1 key).isLE = false
    rw [hbs x hx]
    rfl

/-- A ray starts at the last of the entries below its point. -/
theorem Ray.start_below [Ord K] {key : K} {t : Subtree K I} {cursor : Cursor} {as bs : List (K × I)} {e : K × I}
    (hcut : t.Cut cursor as (e :: bs)) (has : ∀ x ∈ as ++ [e], compare x.1 key = .lt)
    (hbs : ∀ x ∈ bs, compare x.1 key = .gt) : Ray.Start ⟨.key key, .descending⟩ t ⟨.nearest, cursor⟩ := by
  obtain ⟨has, he⟩ := List.forall_mem_append.mp has
  have he := he e List.mem_cons_self
  refine start_at_last hcut has ?_ hbs (if_neg ?_).symm
  · rw [he]
    rfl
  · rw [he]
    simp

/-! ## Leaves -/

/-- Only a leaf that is the whole tree may be empty. -/
theorem Subtree.Whole.entries_ne_nil {pageSize d : Nat} {t : Subtree K I} (h : t.Whole pageSize d)
    (hp : 2 ≤ pageSize) {front rest : List (PageRef × Leaf K I)} {r : PageRef} {l : Leaf K I}
    (hleaves : t.leaves = front ++ (r, l) :: rest) (hmore : front ≠ [] ∨ rest ≠ []) : l.entries ≠ [] := by
  cases d with
  | zero =>
    obtain ⟨r', m, l', rfl⟩ := h.regular.eq_leaf
    have hlen := congrArg List.length hleaves
    rw [leaves_leaf, List.length_append, List.length_singleton, List.length_cons] at hlen
    rcases hmore with hne | hne
    · exact absurd (List.length_eq_zero_iff.mp (by omega)) hne
    · exact absurd (List.length_eq_zero_iff.mp (by omega)) hne
  | succ d =>
    obtain ⟨r', m, ks, cs, rfl, -, hreg, hfill⟩ := h.regular.eq_inner
    have hmem : (r, l) ∈ cs.flatMap leaves := by
      rw [← leaves_inner r' m ks cs, hleaves]
      exact List.mem_append_right _ List.mem_cons_self
    obtain ⟨c, hc, hmem⟩ := List.mem_flatMap.mp hmem
    obtain ⟨m', hsub⟩ := mem_leaves_iff.mp hmem
    have hsize := ((hreg c hc).filled_of_mem (hfill c hc) hsub).1
    rw [size_leaf] at hsize
    intro hnil
    rw [hnil, List.length_nil] at hsize
    omega

theorem Leaf.getElem?_seek [Ord K] {l : Leaf K I} {key : K} {as bs : List (K × I)} (hcut : l.entries = as ++ bs)
    (hpos : (l.seek key).position = as.length) : l.entries[l.rank key false]? = bs.head? := by
  rw [← position_seek, hpos, hcut, List.getElem?_append_right (Nat.le_refl _), Nat.sub_self,
    List.head?_eq_getElem?]

/-- Behind the last entry there is nothing to fit. -/
theorem Leaf.fit_seek_nil [Ord K] {l : Leaf K I} {key : K} {as : List (K × I)} (hcut : l.entries = as ++ [])
    (hpos : (l.seek key).position = as.length) : (l.seek key).fit = .outside := by
  unfold Leaf.seek
  dsimp only
  rw [getElem?_seek hcut hpos]
  rfl

/-- A slot of a leaf fits as its entry does, but the first one fits only exactly. -/
theorem Leaf.fit_seek_cons [Ord K] {l : Leaf K I} {key : K} {as bs : List (K × I)} {e : K × I}
    (hcut : l.entries = as ++ e :: bs) (hpos : (l.seek key).position = as.length) : (l.seek key).fit
      = if as = [] ∧ compare e.1 key ≠ .eq then .outside else Ray.fitOf ⟨.key key, .ascending⟩ (some e) := by
  have hslot : l.rank key false = 0 ↔ as = [] := by
    rw [← position_seek, hpos, List.length_eq_zero_iff]
  unfold Leaf.seek Ray.fitOf
  dsimp only
  rw [getElem?_seek hcut hpos]
  dsimp only [List.head?_cons]
  simp only [beq_iff_eq, hslot]
  by_cases heq : compare e.1 key = .eq
  · simp [heq]
  · by_cases hnil : as = []
    · simp [heq, hnil]
    · simp [heq, hnil]

/-! ## Around the way to a key -/

/-- The subtree left of the way is the last one of those that lie left of it. -/
theorem Spine.neighbour_eq (fs : List (Frame K I)) : neighbour fs = (low fs).getLast? := by
  induction fs with
  | nil => rfl
  | cons f fs ih => rw [neighbour, low, List.getLast?_append, ih]

theorem Spine.Fits.regular_low {pageSize k : Nat} {fs : List (Frame K I)} (h : Fits pageSize k fs) :
    ∀ u ∈ low fs, ∃ d, u.Regular pageSize d ∧ d < k + fs.length := by
  induction fs generalizing k with
  | nil => exact fun u hu => absurd hu List.not_mem_nil
  | cons f fs ih =>
    intro u hu
    rw [List.length_cons]
    rcases List.mem_append.mp hu with hu | hu
    · obtain ⟨d, hreg, hd⟩ := ih h.2.2.2 u hu
      exact ⟨d, hreg, by omega⟩
    · exact ⟨k, h.1.regular u (List.mem_append_left _ hu), by omega⟩

theorem Spine.StoredIn.low {view : PageRef → Option (Page K I)} {bottom : PageRef} {fs : List (Frame K I)}
    (h : StoredIn view bottom fs) : ∀ u ∈ low fs, u.StoredIn view := by
  induction fs generalizing bottom with
  | nil => exact fun u hu => absurd hu List.not_mem_nil
  | cons f fs ih =>
    intro u hu
    rcases List.mem_append.mp hu with hu | hu
    · exact ih h.2.2 u hu
    · exact h.2.1 u (List.mem_append_left _ hu)

/-! ## Seeking -/

namespace Service

variable [IndexKey K] [Codec I]

/-- The service has the pages of `t`, and `t` is in shape and is the tree that `tree` knows. -/
structure Carries (srv : Service K I) (tree : Tree K I) (d : Nat) (t : Subtree K I) : Prop where
  pageSize : 2 ≤ tree.config.pageSize
  stored : t.StoredIn srv.view
  root : tree.root = t.ref
  whole : t.Whole tree.config.pageSize d
  ascending : Ascending t.walk
  linked : Linked none t.leaves
  last : lastRef none t.leaves = some tree.rightmost
  depth : d < srv.limit

variable {srv : Service K I} {tree : Tree K I} {d : Nat} {t : Subtree K I}

/-- A leaf knows the next one. -/
theorem Carries.right_eq (h : srv.Carries tree d t) {front rest : List (PageRef × Leaf K I)} {r : PageRef}
    {l : Leaf K I} (hleaves : t.leaves = front ++ (r, l) :: rest) : l.right = firstRef none rest := by
  have hlinked := h.linked
  rw [hleaves, linked_append] at hlinked
  exact hlinked.2.1

/-- The end of a leaf is the front of the next one, which is not empty. -/
theorem Carries.cut_next (h : srv.Carries tree d t) {front rest : List (PageRef × Leaf K I)}
    {leaf next : PageRef × Leaf K I} (hleaves : t.leaves = front ++ leaf :: next :: rest) :
    ∃ e es, next.2.entries = e :: es
      ∧ t.Cut ⟨next.1, 0⟩ (entriesIn front ++ leaf.2.entries) (e :: es ++ entriesIn rest) := by
  have hleaves' : t.leaves = (front ++ [leaf]) ++ (next.1, next.2) :: rest := by rw [hleaves]; simp
  obtain ⟨e, es, hes⟩ : ∃ e es, next.2.entries = [] ++ e :: es :=
    List.exists_cons_of_ne_nil (h.whole.entries_ne_nil h.pageSize hleaves' (.inl (by simp)))
  have hcut : t.Cut ⟨next.1, 0⟩ (entriesIn (front ++ [leaf]) ++ []) (e :: es ++ entriesIn rest) :=
    .mk hleaves' hes (by simp)
  rw [entriesIn_append, entriesIn_cons, entriesIn_nil, List.append_nil, List.append_nil] at hcut
  exact ⟨e, es, hes, hcut⟩

/-- The last entry of a leaf that is not the only one. -/
theorem Carries.cut_last (h : srv.Carries tree d t) {front rest : List (PageRef × Leaf K I)} {r : PageRef}
    {l : Leaf K I} (hleaves : t.leaves = front ++ [(r, l)] ++ rest) (hrest : rest ≠ []) : ∃ es e,
      l.entries = es ++ [e] ∧ t.Cut ⟨r, es.length⟩ (entriesIn front ++ es) (e :: entriesIn rest) := by
  rw [List.append_assoc] at hleaves
  obtain ⟨es, e, hes⟩ := (List.eq_nil_or_concat' l.entries).resolve_left
    (h.whole.entries_ne_nil h.pageSize hleaves (.inr hrest))
  exact ⟨es, e, hes, .mk hleaves hes (by simp)⟩

/-- The page of a leaf. -/
theorem Carries.reads_leaf (h : srv.Carries tree d t) {r : PageRef} {l : Leaf K I} (hmem : (r, l) ∈ t.leaves) :
    srv.Reads (Pager.resolve r) fun page => page.ref = r ∧ page.asLeaf = .ok l := by
  obtain ⟨m, hsub⟩ := Subtree.mem_leaves_iff.mp hmem
  refine (reads_resolve (h.stored _ hsub)).mono fun page hpage => ?_
  subst hpage
  exact ⟨rfl, rfl⟩

/-- The first leaf. -/
theorem Carries.reads_firstLeaf (h : srv.Carries tree d t) : srv.Reads tree.firstLeaf fun page =>
    ∃ l rest, t.leaves = (page.ref, l) :: rest ∧ page.asLeaf = .ok l := by
  refine reads_get.bind fun pager hp => ?_
  rw [h.root]
  refine (reads_descendFirst h.stored h.whole.regular
    (Nat.lt_of_lt_of_le h.depth (srv.limit_le hp))).bind fun out hout => ?_
  obtain ⟨⟨l, rest, hleaves⟩, -⟩ := hout
  refine (h.reads_leaf (by rw [hleaves]; exact List.mem_cons_self)).mono fun page hpage => ?_
  exact ⟨l, rest, by rw [hpage.1]; exact hleaves, hpage.2⟩

/-- The last leaf. -/
theorem Carries.reads_rightmost (h : srv.Carries tree d t) : srv.Reads (Pager.resolve tree.rightmost) fun page =>
    ∃ front l, t.leaves = front ++ [(page.ref, l)] ∧ page.asLeaf = .ok l := by
  have hlast := h.last
  rw [lastRef_eq_getLast? none h.whole.regular.leaves_ne_nil, Option.map_eq_some_iff] at hlast
  obtain ⟨⟨r, l⟩, hget, rfl⟩ := hlast
  obtain ⟨front, hleaves⟩ := List.getLast?_eq_some_iff.mp hget
  refine (h.reads_leaf (l := l) (by rw [hleaves]; simp)).mono fun page hpage => ?_
  exact ⟨front, l, by rw [hpage.1]; exact hleaves, hpage.2⟩

/-- The last leaf below a subtree left of a way. -/
theorem Carries.reads_lastLeafBelow (h : srv.Carries tree d t) {fs : List (Frame K I)} {r : PageRef}
    {m : List Int64} {l : Leaf K I} (ht : t = plugAll fs (.leaf r m l)) (hfs : Spine.Fits tree.config.pageSize 0 fs)
    (hfill : fs ≠ [] → (Subtree.leaf r m l).Filled tree.config.pageSize) {u : Subtree K I}
    (hu : Spine.neighbour fs = some u) : srv.Reads (Tree.lastLeafBelow u.ref) fun page =>
      ∃ front l', (Spine.low fs).flatMap Subtree.leaves = front ++ [(page.ref, l')] ∧ page.asLeaf = .ok l' := by
  rw [Spine.neighbour_eq] at hu
  obtain ⟨low, hlow⟩ := List.getLast?_eq_some_iff.mp hu
  have hmem : u ∈ Spine.low fs := by
    rw [hlow]
    exact List.mem_append_right _ List.mem_cons_self
  obtain ⟨k, hreg, hk⟩ := hfs.regular_low u hmem
  have hd : d = 0 + fs.length := by
    refine h.whole.regular.depth_unique ?_
    rw [ht]
    exact Spine.regular_plugAll hfs .leaf hfill
  have hst := (Spine.storedIn_plugAll.mp (ht ▸ h.stored)).2.low u hmem
  refine reads_get.bind fun pager hp => ?_
  have hlimit := Nat.lt_of_lt_of_le h.depth (srv.limit_le hp)
  refine (reads_descendLast hst hreg (by omega)).mono fun page hpage => ?_
  obtain ⟨r', m', l', rest, rfl, -, hleaves⟩ := hpage
  refine ⟨low.flatMap Subtree.leaves ++ rest, l', ?_, rfl⟩
  rw [hlow, List.flatMap_append, List.flatMap_singleton, hleaves, List.append_assoc]
  rfl

variable [Std.TransOrd K]

/-- What lies around the leaf at the end of a way. -/
theorem Carries.around (h : srv.Carries tree d t) {key : K} {fs : List (Frame K I)} {r : PageRef} {m : List Int64}
    {l : Leaf K I} (ht : t = plugAll fs (.leaf r m l)) (hway : Way tree.config.pageSize key fs (.leaf r m l)) :
    t.leaves = (Spine.low fs).flatMap Subtree.leaves ++ (r, l) :: (Spine.high fs).flatMap Subtree.leaves
      ∧ (∀ e ∈ entriesIn ((Spine.low fs).flatMap Subtree.leaves), compare e.1 key = .lt)
      ∧ ∀ e ∈ entriesIn ((Spine.high fs).flatMap Subtree.leaves), compare key e.1 = .lt := by
  have hflat : ∀ cs : List (Subtree K I), entriesIn (cs.flatMap Subtree.leaves) = cs.flatMap Subtree.entries :=
    fun cs => List.flatMap_assoc
  have ha := h.ascending
  rw [ht, Spine.walk_plugAll hway.fits] at ha
  obtain ⟨hleft, hafter, -⟩ := List.pairwise_append.mp ha
  refine ⟨?_, ?_, ?_⟩
  · rw [ht, Spine.leaves_plugAll, Subtree.leaves_leaf, List.append_assoc]
    rfl
  · rw [hflat]
    exact Spine.lt_of_mem_low hway.fits hway.routes (List.pairwise_append.mp hleft).1
  · rw [hflat]
    exact Spine.lt_of_mem_high hway.fits hway.routes hafter

/-- The leaf at the end of a way is cut at the key: in front of the cut all keys are below it, and behind the cut, but
for the key itself, all are above it. -/
theorem Carries.exists_cut (h : srv.Carries tree d t) {key : K} {fs : List (Frame K I)} {r : PageRef} {m : List Int64}
    {l : Leaf K I} (ht : t = plugAll fs (.leaf r m l)) (hway : Way tree.config.pageSize key fs (.leaf r m l)) :
    ∃ rest as bs, t.leaves = (Spine.low fs).flatMap Subtree.leaves ++ (r, l) :: rest ∧ l.entries = as ++ bs
      ∧ (l.seek key).position = as.length
      ∧ (∀ e ∈ entriesIn ((Spine.low fs).flatMap Subtree.leaves) ++ as, compare e.1 key = .lt)
      ∧ ((∃ e bs', bs = e :: bs' ∧ compare e.1 key = .eq ∧ (l.seek key).isExact
          ∧ ∀ x ∈ bs' ++ entriesIn rest, compare x.1 key = .gt)
        ∨ (l.seek key).isExact = false ∧ ∀ x ∈ bs ++ entriesIn rest, compare x.1 key = .gt) := by
  obtain ⟨hleaves, hlow, hhigh⟩ := h.around ht hway
  obtain ⟨as, bs, hcut, hpos, has, hcases⟩ := l.exists_cut (hway.increasing (ht ▸ h.ascending)) key
  have habove : ∀ {es : List (K × I)}, (∀ x ∈ es, compare key x.1 = .lt) →
      ∀ x ∈ es ++ entriesIn ((Spine.high fs).flatMap Subtree.leaves), compare x.1 key = .gt := fun hes x hx =>
    Std.OrientedCmp.gt_of_lt (List.forall_mem_append.mpr ⟨hes, hhigh⟩ x hx)
  refine ⟨_, as, bs, hleaves, hcut, hpos, List.forall_mem_append.mpr ⟨hlow, has⟩, ?_⟩
  rcases hcases with ⟨e, bs', hbs', heq, hex, hbs⟩ | ⟨hex, hbs⟩
  · exact .inl ⟨e, bs', hbs', heq, hex, habove hbs⟩
  · exact .inr ⟨hex, habove hbs⟩

/-- The smallest key that is not below `key`. -/
theorem Carries.reads_seekUp (h : srv.Carries tree d t) (key : K) :
    srv.Reads (tree.seekUp key) (Ray.Start ⟨.key key, .ascending⟩ t) := by
  refine (reads_leafFor h.stored h.root h.whole h.depth).bind fun page hpage => ?_
  obtain ⟨fs, r, m, l, rfl, ht, hway⟩ := hpage
  refine (reads_ofExcept rfl).bind_eq ?_
  obtain ⟨rest, as, bs, hleaves, hcut, hpos, hbefore, hcases⟩ := h.exists_cut ht hway
  generalize (Spine.low fs).flatMap Subtree.leaves = front at hleaves hbefore
  have hbehind : ∀ e ∈ bs ++ entriesIn rest, (compare e.1 key).isGE := by
    rcases hcases with ⟨e, bs', rfl, heq, -, hgt⟩ | ⟨-, hgt⟩
    · exact List.forall_mem_cons.mpr ⟨by rw [heq]; rfl, fun x hx => by rw [hgt x hx]; rfl⟩
    · exact fun x hx => by rw [hgt x hx]; rfl
  dsimp only [Subtree.page]
  rw [hpos]
  cases bs with
  | cons e bs =>
    -- the ray starts in this leaf
    have hhere : t.Cut ⟨r, as.length⟩ (entriesIn front ++ as) (e :: bs ++ entriesIn rest) :=
      .mk hleaves hcut (by simp)
    have hfit := Leaf.fit_seek_cons hcut hpos
    by_cases hfirst : as = [] ∧ compare e.1 key ≠ .eq
    · rw [if_pos hfirst] at hfit
      rw [hfit, if_neg (by simp), if_neg (by simp [hfirst.1]), if_neg (by rw [hcut]; simp)]
      exact reads_pure (Ray.start_of_cut hhere hbefore hbehind (if_neg (by simpa using hfirst.2)).symm)
    · rw [if_neg hfirst] at hfit
      rw [hfit, if_pos (Ray.fitOf_ne_outside _ e)]
      exact reads_pure (Ray.start_of_cut hhere hbefore hbehind rfl)
  | nil =>
    rw [Leaf.fit_seek_nil hcut hpos, if_neg (by simp)]
    rw [List.append_nil] at hcut
    -- no entry is in this leaf that lies on the ray
    by_cases hnil : as = []
    · have hrest : rest = [] := by
        by_contra hne
        exact h.whole.entries_ne_nil h.pageSize hleaves (.inr hne) (hcut.trans hnil)
      rw [if_neg (by simp [hnil]), if_pos (by rw [hcut, hnil]; rfl)]
      exact reads_pure (Ray.start_of_cut (.mk hleaves (hcut.trans (List.append_nil as).symm) fun _ => hrest) hbefore
        hbehind (by rw [hrest]; rfl))
    · rw [if_pos (List.length_pos_iff.mpr hnil), h.right_eq hleaves]
      cases rest with
      | nil =>
        exact reads_pure (Ray.start_of_cut (.mk hleaves (hcut.trans (List.append_nil as).symm) fun _ => rfl) hbefore
          hbehind rfl)
      | cons next rest =>
        -- it starts in the next leaf, which is not empty
        obtain ⟨e, es, hes, hnext⟩ := h.cut_next hleaves
        rw [hcut] at hnext
        rw [entriesIn_cons, hes] at hbehind hcases
        have hgt : compare e.1 key = .gt := by
          rcases hcases with ⟨_, _, hnil, -⟩ | ⟨-, hgt⟩
          · exact absurd hnil (by simp)
          · exact hgt e List.mem_cons_self
        refine reads_pure (Ray.start_of_cut hnext hbefore hbehind (if_neg ?_).symm)
        rw [hgt]
        simp

/-- The greatest key that is not above `key`. -/
theorem Carries.reads_seekDown (h : srv.Carries tree d t) (key : K) :
    srv.Reads (tree.seekDown key) (Ray.Start ⟨.key key, .descending⟩ t) := by
  refine (reads_locate h.stored h.root h.whole h.depth).bind fun out hout => ?_
  obtain ⟨fs, r, m, l, rfl, ht, hway⟩ := hout
  refine (reads_ofExcept rfl).bind_eq ?_
  obtain ⟨rest, as, bs, hleaves, hcut, hpos, hbefore, hcases⟩ := h.exists_cut ht hway
  rcases hcases with ⟨e, bs, rfl, heq, hex, hbehind⟩ | ⟨hex, hbehind⟩
  · -- the key itself is there
    rw [if_pos hex, hpos]
    exact reads_pure (Ray.start_at_last (.mk hleaves hcut (by simp)) hbefore (by rw [heq]; rfl) hbehind
      (if_pos (by simpa using heq)).symm)
  rw [if_neg (by rw [hex]; simp), ← Leaf.position_seek, hpos]
  rcases List.eq_nil_or_concat' as with rfl | ⟨as, x, rfl⟩
  · rw [List.append_nil] at hbefore
    -- all entries of this leaf are above the key
    cases hleft : Spine.neighbour fs with
    | none =>
      rw [Spine.neighbour_eq, List.getLast?_eq_none_iff] at hleft
      rw [hleft] at hleaves
      refine reads_pure (.nowhere rfl hleaves fun e he => ?_)
      have hmem : e ∈ entriesIn t.leaves := he
      rw [hleaves, List.flatMap_nil, List.nil_append, entriesIn_cons, hcut] at hmem
      show (compare e.1 key).isLE = false
      rw [hbehind e hmem]
      rfl
    | some u =>
      -- the leaf before, which is not empty, ends with the entry
      refine (h.reads_lastLeafBelow ht hway.fits hway.filled hleft).bind fun page hpage => ?_
      obtain ⟨front, l', hfront, hleaf⟩ := hpage
      rw [hfront] at hleaves hbefore
      refine (reads_ofExcept hleaf).bind_eq ?_
      obtain ⟨es, x, hes, hlast⟩ := h.cut_last hleaves (by simp)
      rw [show l'.size = es.length + 1 by rw [Leaf.size, hes, List.length_append]; rfl]
      rw [entriesIn_append, entriesIn_cons, entriesIn_nil, List.append_nil, hes, ← List.append_assoc] at hbefore
      rw [entriesIn_cons, hcut] at hlast
      exact reads_pure (Ray.start_below hlast hbefore hbehind)
  · -- the entry in front of where the key belongs
    rw [List.append_assoc] at hcut
    rw [← List.append_assoc] at hbefore
    rw [List.length_append, List.length_singleton]
    exact reads_pure (Ray.start_below (.mk hleaves hcut (by simp)) hbefore hbehind)

/-- Where a ray starts. -/
theorem Carries.reads_seekRay (h : srv.Carries tree d t) (ray : Ray K) :
    srv.Reads (tree.seekRay ray) (ray.Start t) := by
  obtain ⟨point, direction⟩ := ray
  unfold Tree.seekRay
  cases point with
  | key key =>
    cases direction with
    | ascending => exact h.reads_seekUp key
    | descending => exact h.reads_seekDown key
  | bottom =>
    cases direction with
    | ascending =>
      refine h.reads_firstLeaf.bind fun page hpage => ?_
      obtain ⟨l, rest, hleaves, hleaf⟩ := hpage
      refine (reads_ofExcept hleaf).bind_eq ?_
      have hempty : l.entries = [] → rest = [] := fun hnil => by
        by_contra hne
        have hleaves' : t.leaves = [] ++ (page.ref, l) :: rest := hleaves
        exact h.whole.entries_ne_nil h.pageSize hleaves' (.inr hne) hnil
      have hcut : t.Cut ⟨page.ref, ([] : List (K × I)).length⟩ (entriesIn [] ++ []) (l.entries ++ entriesIn rest) :=
        .mk hleaves rfl hempty
      have hfit : (if l.entries.isEmpty then Fit.outside else .nearest)
          = Ray.fitOf (⟨.bottom, .ascending⟩ : Ray K) (l.entries ++ entriesIn rest).head? := by
        cases hes : l.entries with
        | nil =>
          rw [hempty hes]
          rfl
        | cons e es => rfl
      rw [hfit]
      exact reads_pure (.ascending rfl hcut (fun e he => absurd he List.not_mem_nil) fun _ _ => rfl)
    | descending =>
      refine h.reads_firstLeaf.bind fun page hpage => ?_
      obtain ⟨l, rest, hleaves, -⟩ := hpage
      exact reads_pure (.nowhere rfl hleaves fun _ _ => rfl)
  | top =>
    cases direction with
    | ascending =>
      refine h.reads_rightmost.bind fun page hpage => ?_
      obtain ⟨front, l, hleaves, hleaf⟩ := hpage
      refine (reads_ofExcept hleaf).bind_eq ?_
      have hcut : t.Cut ⟨page.ref, l.size⟩ (entriesIn front ++ l.entries) ([] ++ entriesIn []) :=
        .mk hleaves (List.append_nil _).symm fun _ => rfl
      exact reads_pure (.ascending rfl hcut (fun _ _ => rfl) fun e he => absurd he List.not_mem_nil)
    | descending =>
      refine h.reads_rightmost.bind fun page hpage => ?_
      obtain ⟨front, l, hleaves, hleaf⟩ := hpage
      refine (reads_ofExcept hleaf).bind_eq ?_
      rcases List.eq_nil_or_concat' l.entries with hnil | ⟨es, x, hes⟩
      · have hfront : front = [] := by
          by_contra hne
          exact h.whole.entries_ne_nil h.pageSize hleaves (.inl hne) hnil
        rw [hfront, List.nil_append] at hleaves
        rw [show l.size = 0 from congrArg List.length hnil]
        refine reads_pure (.nowhere rfl hleaves fun e he => ?_)
        have hmem : e ∈ entriesIn t.leaves := he
        rw [hleaves, entriesIn_cons, hnil] at hmem
        exact absurd hmem List.not_mem_nil
      · rw [show l.size = es.length + 1 by rw [Leaf.size, hes, List.length_append]; rfl]
        have hcut : t.Cut ⟨page.ref, es.length⟩ (entriesIn front ++ es) ([x] ++ entriesIn []) :=
          .mk hleaves hes (by simp)
        exact reads_pure (.descending rfl hcut (fun _ _ => rfl) rfl fun e he => absurd he List.not_mem_nil)

end Service

end PagedIndex
