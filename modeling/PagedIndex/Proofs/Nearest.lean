import PagedIndex.Proofs.Agreement

/-!
# A seek finds the nearest entry

Of the entries that lie on a ray, the one that is nearest to its point is where the ray starts
(`seek_nearest`): the smallest key that is not below the point, or downwards the greatest that is not above it.
It may lie in the leaf that the way to the point leads to, in the one behind it, or in the one before it. A ray on
which nothing lies starts at an end of the tree, in no entry's place.
-/

namespace PagedIndex

variable {K I : Type}

/-- The entry stands in the slot of the leaf that the cursor names. -/
def Subtree.HasAt (t : Subtree K I) (cursor : Cursor) (e : K × I) : Prop :=
  ∃ l, (cursor.page, l) ∈ t.leaves ∧ l.entries[cursor.slot]? = some e

namespace Subtree.Cut

variable {t : Subtree K I} {cursor : Cursor} {as bs : List (K × I)} {e : K × I}

/-- A cursor in front of an entry is in its place. -/
theorem hasAt (h : t.Cut cursor as (e :: bs)) : t.HasAt cursor e := by
  generalize hcut : e :: bs = behind at h
  obtain @⟨front, rest, r, l, as, bs', hleaves, hentries, hend⟩ := h
  refine ⟨l, ?_, ?_⟩
  · rw [hleaves]
    exact List.mem_append_right _ List.mem_cons_self
  · cases bs' with
    | nil =>
      -- at the end of a leaf that has a successor there is no cut
      rw [hend rfl] at hcut
      exact absurd hcut (by simp)
    | cons e' bs' =>
      obtain rfl := (List.cons.inj hcut).1
      rw [hentries, List.getElem?_append_right (Nat.le_refl _), Nat.sub_self]
      rfl

/-- A cursor behind all entries is at the end of the last leaf. -/
theorem at_end (h : t.Cut cursor as []) : ∃ l, t.leaves.getLast? = some (cursor.page, l) ∧ cursor.slot = l.size := by
  generalize hcut : [] = behind at h
  obtain @⟨front, rest, r, l, as, bs, hleaves, hentries, hend⟩ := h
  obtain ⟨rfl, -⟩ := List.append_eq_nil_iff.mp hcut.symm
  refine ⟨l, ?_, ?_⟩
  · rw [hleaves, hend rfl, List.getLast?_append]
    rfl
  · rw [Leaf.size, hentries, List.append_nil]

end Subtree.Cut

namespace Ray

variable [Ord K]

/-- Whether a key is at least as near to the start of a ray in this direction as another. -/
def noFarther (direction : Direction) (key other : K) : Prop :=
  match direction with
  | .ascending => (compare key other).isLE
  | .descending => (compare other key).isLE

/-- Of the entries that lie on the ray, this is the nearest to its point. -/
structure Nearest (ray : Ray K) (entries : List (K × I)) (e : K × I) : Prop where
  mem : e ∈ entries
  covered : ray.covers e.1 = true
  nearest : ∀ x ∈ entries, ray.covers x.1 = true → noFarther ray.direction e.1 x.1

/-- The ray starts at the nearest entry on it, and only where there is none it starts outside: behind the last entry,
or downwards at the first slot. -/
structure Lands (ray : Ray K) (t : Subtree K I) (found : Found Cursor) : Prop where
  outside_iff : found.fit = .outside ↔ ∀ e ∈ t.entries, ray.covers e.1 = false
  /-- The fit is exact if and only if the point is the key of the entry. -/
  inside : found.fit ≠ .outside → ∃ e, t.HasAt found.position e ∧ ray.Nearest t.entries e
    ∧ (found.fit = .exact ↔ ∃ key, ray.point = .key key ∧ compare e.1 key = .eq)
  behind : found.fit = .outside → ray.direction = .ascending →
    ∃ l, t.leaves.getLast? = some (found.position.page, l) ∧ found.position.slot = l.size
  before : found.fit = .outside → ray.direction = .descending →
    ∃ l, t.leaves.head? = some (found.position.page, l) ∧ found.position.slot = 0

theorem fitOf_eq_exact_iff {ray : Ray K} {e : K × I} :
    ray.fitOf (some e) = .exact ↔ ∃ key, ray.point = .key key ∧ compare e.1 key = .eq := by
  unfold fitOf
  cases ray.point with
  | key key => simp
  | bottom => simp
  | top => simp

variable [Std.TransOrd K] {ray : Ray K} {t : Subtree K I} {found : Found Cursor} {as bs : List (K × I)} {e : K × I}

/-- In front of the cut nothing lies on the ray, so what is behind it comes first. -/
theorem nearest_ascending (hinc : Increasing ((as ++ e :: bs).map Prod.fst)) (hdirection : ray.direction = .ascending)
    (has : ∀ x ∈ as, ray.covers x.1 = false) (he : ray.covers e.1 = true) : ray.Nearest (as ++ e :: bs) e := by
  refine ⟨by simp, he, fun x hx hcovered => ?_⟩
  show noFarther ray.direction e.1 x.1
  rw [hdirection]
  rw [Increasing, List.pairwise_map] at hinc
  rcases List.mem_append.mp hx with hx | hx
  · rw [has x hx] at hcovered
    exact absurd hcovered (by simp)
  · rcases List.mem_cons.mp hx with rfl | hx
    · exact Std.ReflCmp.isLE_rfl
    · have hlt := (List.pairwise_cons.mp (List.pairwise_append.mp hinc).2.1).1 x hx
      show (compare e.1 x.1).isLE
      rw [hlt]
      rfl

/-- Behind the cut nothing lies on the ray, so the last entry in front of it comes first. -/
theorem nearest_descending (hinc : Increasing ((as ++ e :: bs).map Prod.fst))
    (hdirection : ray.direction = .descending) (he : ray.covers e.1 = true)
    (hbs : ∀ x ∈ bs, ray.covers x.1 = false) : ray.Nearest (as ++ e :: bs) e := by
  refine ⟨by simp, he, fun x hx hcovered => ?_⟩
  rw [hdirection]
  rw [Increasing, List.pairwise_map] at hinc
  rcases List.mem_append.mp hx with hx | hx
  · have hlt := (List.pairwise_append.mp hinc).2.2 x hx e List.mem_cons_self
    show (compare x.1 e.1).isLE
    rw [hlt]
    rfl
  · rcases List.mem_cons.mp hx with rfl | hx
    · exact Std.ReflCmp.isLE_rfl
    · rw [hbs x hx] at hcovered
      exact absurd hcovered (by simp)

omit [Std.TransOrd K] in
/-- In front of the nearest entry on it, a ray starts as it should. -/
theorem Nearest.lands {cursor : Cursor} (h : ray.Nearest t.entries e) (hat : t.HasAt cursor e) :
    ray.Lands t ⟨ray.fitOf (some e), cursor⟩ := by
  have hinside : ray.fitOf (some e) ≠ .outside := fitOf_ne_outside ray e
  refine ⟨⟨fun hout => absurd hout hinside, fun hnone => ?_⟩, fun _ => ⟨e, hat, h, fitOf_eq_exact_iff⟩,
    fun hout => absurd hout hinside, fun hout => absurd hout hinside⟩
  have hcovered := h.covered
  rw [hnone e h.mem] at hcovered
  exact absurd hcovered (by simp)

/-- Where a ray starts is where it should. -/
theorem Start.lands (h : ray.Start t found) (hinc : Increasing (t.entries.map Prod.fst)) : ray.Lands t found := by
  cases h with
  | @ascending cursor as bs hdirection hcut has hbs =>
    have hentries := hcut.entries_eq
    cases bs with
    | nil =>
      rw [List.append_nil] at hentries
      refine ⟨⟨fun _ e he => has e (hentries ▸ he), fun _ => rfl⟩, fun hne => absurd rfl hne, fun _ _ => hcut.at_end,
        fun _ hdown => Direction.noConfusion (hdirection.symm.trans hdown)⟩
    | cons e bs =>
      refine Nearest.lands ?_ hcut.hasAt
      rw [hentries] at hinc ⊢
      exact nearest_ascending hinc hdirection has (hbs e List.mem_cons_self)
  | @descending cursor as bs e hdirection hcut has he hbs =>
    refine Nearest.lands ?_ hcut.hasAt
    rw [hcut.entries_eq] at hinc ⊢
    exact nearest_descending hinc hdirection he hbs
  | @nowhere r l rest hdirection hleaves hnone =>
    refine ⟨⟨fun _ => hnone, fun _ => rfl⟩, fun hne => absurd rfl hne,
      fun _ hup => Direction.noConfusion (hdirection.symm.trans hup), fun _ _ => ⟨l, ?_, rfl⟩⟩
    rw [hleaves]
    rfl

end Ray

variable [IndexKey K] [Codec I] [Std.TransOrd K] {tree : Tree K I} {pager : Pager K I}
  {view : PageRef → Option (Page K I)} {t : Subtree K I}

/-- Wherever the pages of a tree are, a ray starts at the nearest entry that lies on it, or outside if nothing does.
The last leaf, behind which an ascending ray starts then, is the one that the tree knows. A key is sought along the
ray upwards from it. -/
theorem seek_nearest (h : pager.Shows view) (hsize : 4 ≤ tree.config.pageSize) (ht : tree.Matches view t) :
    (∀ ray : Ray K, ∃ found, (tree.seekRay ray).answer pager = .ok found ∧ ray.Lands t found
      ∧ (found.fit = .outside → ray.direction = .ascending → found.position.page = tree.rightmost))
    ∧ ∀ key, tree.seek key = tree.seekRay ⟨.key key, .ascending⟩ := by
  refine ⟨fun ray => ?_, fun _ => rfl⟩
  obtain ⟨srv, hands, hserves⟩ := h.exists_service
  obtain ⟨d, hcarries⟩ := hands.carries hsize ht
  obtain ⟨found, pager', hrun, -, hstart⟩ := (hcarries.reads_seekRay ray).runs hands.wide hserves
  have hlands := hstart.lands (Subtree.increasing_entries hcarries.ascending)
  refine ⟨found, hrun.answer_eq, hlands, fun hout hup => ?_⟩
  obtain ⟨l, hlast, -⟩ := hlands.behind hout hup
  have hrightmost := ht.last
  rw [hlast] at hrightmost
  exact Option.some.inj hrightmost

namespace Index

/-- Two leaves with a gap at the separator between them: the key 3 was taken out. -/
def aroundGap : Subtree UInt64 UInt64 :=
  .inner ⟨2⟩ [4, 12, 1, 5] [3]
    [.leaf ⟨0⟩ [2, 3, 1, 2] ⟨[(1, 1), (2, 2)], some ⟨1⟩⟩, .leaf ⟨1⟩ [2, 9, 4, 5] ⟨[(4, 4), (5, 5)], none⟩]

/-- An index over these pages. -/
def overGap : Index UInt64 UInt64 := after [.add 5, .remove 3] overTwoLeaves

theorem shows_overGap : overGap.pager.Shows overGap.pager.page?
    ∧ overGap.tree.Matches overGap.pager.page? aroundGap := by
  obtain ⟨hg, hnext, d, t, hholds⟩ := start_overTwoLeaves.holds (by decide)
  have hpages : 3 + pagesMade [.add 5, .remove 3] overTwoLeaves < 2 ^ 64 - 2 := by decide +kernel
  obtain ⟨d', t', hT, hsame, -⟩ := hholds.run hg [.add 5, .remove 3] (by omega)
  have hstored : aroundGap.StoredIn overGap.pager.page? := by
    simp only [aroundGap, Subtree.storedIn_inner, List.forall_mem_cons, Subtree.storedIn_leaf]
    exact ⟨by decide +kernel, by decide +kernel, by decide +kernel, fun _ h => absurd h List.not_mem_nil⟩
  have hroot : aroundGap.ref = overGap.tree.root := by decide +kernel
  -- The final index under its own name: unfolded to the run that leads to it, it would be run in every step below.
  change overGap.Holds d' t' at hT
  obtain rfl := hT.stored.unique hstored (hT.root.symm.trans hroot.symm)
  have hnames : overGap.pager.next.toNat ≤ 2 ^ 64 - 2 := by decide +kernel
  have hgate : overGap.pager.gate.resolve = .always := by decide +kernel
  refine ⟨hT.ready.shows hnames hgate, matches_iff.mp ?_⟩
  exact (matches_iff_holds hT.ready hT.pageSize).mpr ⟨d', hT⟩

/-- Downwards from a separator that is no key: the leaf behind it holds nothing that lies on the ray, and the ray
starts at the end of the leaf before. -/
theorem seek_nearest_overGap : overGap.pager.Shows overGap.pager.page? ∧ 4 ≤ overGap.tree.config.pageSize
    ∧ overGap.tree.Matches overGap.pager.page? aroundGap
    ∧ (overGap.tree.seekRay ⟨.key 3, .descending⟩).answer overGap.pager = .ok ⟨.nearest, ⟨⟨0⟩, 1⟩⟩
    ∧ Ray.Lands ⟨.key 3, .descending⟩ aroundGap ⟨.nearest, ⟨⟨0⟩, 1⟩⟩ := by
  obtain ⟨hshows, hmatches⟩ := shows_overGap
  have hsize : 4 ≤ overGap.tree.config.pageSize := by decide +kernel
  have hanswer : (overGap.tree.seekRay ⟨.key 3, .descending⟩).answer overGap.pager
      = .ok ⟨.nearest, ⟨⟨0⟩, 1⟩⟩ := by decide +kernel
  obtain ⟨found, hfound, hlands, -⟩ := (seek_nearest hshows hsize hmatches).1 ⟨.key 3, .descending⟩
  obtain rfl := Except.ok.inj (hanswer.symm.trans hfound)
  exact ⟨hshows, hsize, hmatches, hanswer, hlands⟩

end Index

end PagedIndex
