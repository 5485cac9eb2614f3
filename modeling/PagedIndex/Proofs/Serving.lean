import PagedIndex.Proofs.Imaged
import PagedIndex.Proofs.Scanning
import PagedIndex.Proofs.WellFormed

/-!
# Where the pages of a tree may be

A tree that only wants to be read may have its pages in memory or in an image. `Pager.Shows` covers both, and
`Tree.Matches` says of a tree and whatever shows its pages what `Index.Matches` says of an index in memory. Either
way there is a service that hands out these pages and nothing else (`Pager.Shows.exists_service`) and carries the
tree (`Service.Hands.carries`), so what is proved for services holds.
-/

namespace PagedIndex

variable {K I : Type}

/-- The pages that `view` has at a name are a sound tree, and the tree knows it. -/
structure Tree.Matches [Ord K] (tree : Tree K I) (view : PageRef → Option (Page K I)) (t : Subtree K I) : Prop where
  root : t.ref = tree.root
  stored : t.StoredIn view
  sound : t.Sound tree.config.pageSize
  /-- The last leaf is the rightmost one. -/
  last : t.leaves.getLast?.map Prod.fst = some tree.rightmost
  /-- Every item is stored under its own key. -/
  keyed : ∀ e ∈ t.entries, compare (tree.keyOf e.2) e.1 = .eq
  len : tree.len = t.entries.length

theorem Index.matches_iff [Ord K] {s : Index K I} {t : Subtree K I} :
    s.Matches t ↔ s.tree.Matches s.pager.page? t :=
  ⟨fun h => ⟨h.root, h.stored, h.sound, h.last, h.keyed, h.len⟩,
    fun h => ⟨h.root, h.stored, h.sound, h.last, h.keyed, h.len⟩⟩

/-- The pager hands out the pages that `view` has at a name, and refuses nothing. -/
inductive Pager.Shows [Codec K] [Codec I] (pager : Pager K I) : (PageRef → Option (Page K I)) → Prop
  /-- They are in memory. -/
  | resident {store : Resident K I} : pager.Started store → pager.gate.resolve = .always → Shows pager pager.shown?
  /-- They lie in an image that was opened. -/
  | imaged {image : Image} {filter : Option BloomFilter} : pager.Opened image filter → Shows pager image.page?

theorem Pager.Ready.shows [Codec K] [Codec I] {pager : Pager K I} (h : pager.Ready)
    (hn : pager.next.toNat ≤ 2 ^ 64 - 2) (hg : pager.gate.resolve = .always) : pager.Shows pager.page? := by
  obtain ⟨store, hs⟩ := h.started
  rw [← h.shown?_eq hn]
  exact .resident hs hg

variable [IndexKey K] [Codec I]

/-- The service hands out the pages that `view` has at a name and nothing else, and refuses nothing. -/
structure Service.Hands (srv : Service K I) (view : PageRef → Option (Page K I)) : Prop where
  pages : srv.view = view
  exact : srv.Exact
  wide : ∀ e pager, ¬ srv.Refuses e pager
  /-- Walks are not given up before they have met more pages than there are. -/
  limit : ∀ refs : List PageRef, refs.Nodup → (∀ r ∈ refs, (view r).isSome) → refs.length ≤ srv.limit

variable {pager : Pager K I} {view : PageRef → Option (Page K I)} {tree : Tree K I} {t : Subtree K I}

omit [IndexKey K] [Codec I] in
/-- There are no more pages than are in memory. -/
theorem Pager.Started.length_le_of_shown {store : Resident K I} (hs : pager.Started store) {refs : List PageRef}
    (hnd : refs.Nodup) (hrefs : ∀ r ∈ refs, (pager.shown? r).isSome) : refs.length ≤ pager.pageCount := by
  rw [Pager.pageCount, hs.backing]
  refine Table.length_le_size (t := store.pages) hnd fun r hr => ?_
  have := hrefs r hr
  rw [Pager.shown?] at this
  split at this
  · rwa [Pager.page?, hs.backing] at this
  · exact absurd this (by simp)

theorem Pager.hands_shownService {store : Resident K I} (hs : pager.Started store)
    (hg : pager.gate.resolve = .always) : (pager.shownService ⟨store, hs⟩).Hands pager.shown? := by
  refine ⟨rfl, Pager.exact_shownService ⟨store, hs⟩, ?_,
    fun _ hnd hrefs => Nat.le_add_right_of_le (hs.length_le_of_shown hnd hrefs)⟩
  rintro e q ⟨n, reason, -, hq⟩
  exact hq.not_always hg

theorem Pager.hands_openedService (image : Image) (filter : Option BloomFilter) :
    (Pager.Opened.service image filter : Service K I).Hands image.page? :=
  ⟨rfl, Pager.exact_openedService image filter, fun _ _ => id,
    fun _ hnd hrefs => Nat.le_add_right_of_le (Image.length_le_of_pages hnd hrefs)⟩

/-- There is a service that hands out what is shown, and whatever it does, the same pages are shown afterwards. -/
theorem Pager.Shows.exists_keeping_service (h : pager.Shows view) :
    ∃ srv : Service K I, srv.Hands view ∧ srv.Serves pager ∧ ∀ q, srv.Serves q → q.Shows view := by
  cases h with
  | resident hs hg =>
    refine ⟨_, Pager.hands_shownService hs hg, ⟨0, .refl hs.backing⟩, ?_⟩
    rintro q ⟨n, hq⟩
    obtain ⟨store, hs'⟩ := hq.still.started ⟨_, hs⟩
    have hpages : q.shown? = pager.shown? := by
      funext ref
      rw [Pager.shown?, Pager.shown?, hq.still.page?]
    rw [← hpages]
    refine .resident hs' ?_
    rw [hq.gate]
    dsimp only
    rw [hg, Schedule.drop_always]
  | imaged hopened => exact ⟨_, Pager.hands_openedService _ _, hopened, fun _ hq => .imaged hq⟩

theorem Pager.Shows.exists_service (h : pager.Shows view) :
    ∃ srv : Service K I, srv.Hands view ∧ srv.Serves pager := by
  obtain ⟨srv, hands, hserves, -⟩ := h.exists_keeping_service
  exact ⟨srv, hands, hserves⟩

theorem Service.Hands.refs_le {srv : Service K I} (h : srv.Hands view) (ht : tree.Matches view t) :
    t.refs.length ≤ srv.limit :=
  h.limit t.refs ht.sound.nodup fun _ hr => ht.stored.isSome hr

variable [Std.TransOrd K] {srv : Service K I}

/-- A service that has the pages of a tree carries the tree, if it does not give up a walk too early. -/
theorem Tree.Matches.exists_carries (ht : tree.Matches view t) (hsize : 4 ≤ tree.config.pageSize)
    (hst : t.StoredIn srv.view) (hdepth : ∀ d, t.Whole tree.config.pageSize d → d < srv.limit) :
    ∃ d, srv.Carries tree d t := by
  have hp : 2 ≤ tree.config.pageSize := by omega
  obtain ⟨⟨d, hwhole⟩, hasc, -, hlinked⟩ := (Subtree.sound_iff hp).mp ht.sound
  have hlast : lastRef none t.leaves = some tree.rightmost := by
    rw [lastRef_eq_getLast? none hwhole.regular.leaves_ne_nil]
    exact ht.last
  exact ⟨d, hp, hst, ht.root.symm, hwhole, hasc, hlinked, hlast, hdepth d hwhole⟩

/-- A service that hands out the pages of a tree carries the tree. -/
theorem Service.Hands.carries (h : srv.Hands view) (hsize : 4 ≤ tree.config.pageSize) (ht : tree.Matches view t) :
    ∃ d, srv.Carries tree d t := by
  refine ht.exists_carries hsize (h.pages ▸ ht.stored) fun d hwhole => ?_
  have hcount := h.refs_le ht
  have hdepth := hwhole.regular.depth_lt
  omega

/-! ## Scans -/

/-- The first `count` entries that a scan along a ray hands out. -/
def Tree.scan (tree : Tree K I) (ray : Ray K) (count : Nat) : Paging K I (List (Except IndexError (K × I))) := do
  let scan ← Scan.ofRay tree ray
  return (← scan.take tree count).1

theorem Service.Carries.reads_scan {d : Nat} (h : srv.Carries tree d t) (hwide : ∀ e pager, ¬ srv.Refuses e pager)
    (ray : Ray K) (count : Nat) :
    srv.Reads (tree.scan ray count) (· = ((ray.along t.entries).take count).map .ok) :=
  (h.reads_ofRay ray).bind fun _ hscan =>
    (h.reads_take hwide count hscan).bind fun _ hout => Service.reads_pure hout.1

/-- A scan hands out the entries along its ray, in the direction of the ray and each of them once, and then it
ends; in particular a scan over everything goes through all entries, upwards or downwards. -/
theorem scan_exact (h : pager.Shows view) (hsize : 4 ≤ tree.config.pageSize) (ht : tree.Matches view t) :
    (∀ ray count, (tree.scan ray count).answer pager = .ok (((ray.along t.entries).take count).map .ok))
      ∧ Increasing (t.entries.map Prod.fst)
      ∧ Ray.upward.along t.entries = t.entries ∧ Ray.downward.along t.entries = t.entries.reverse := by
  obtain ⟨srv, hands, hserves⟩ := h.exists_service
  obtain ⟨d, hcarries⟩ := hands.carries hsize ht
  refine ⟨fun ray count => ?_, Subtree.increasing_entries hcarries.ascending, Ray.along_upward _,
    Ray.along_downward _⟩
  obtain ⟨answer, pager', hrun, -, rfl⟩ := (hcarries.reads_scan hands.wide ray count).runs hands.wide hserves
  exact hrun.answer_eq

/-- Downwards from a key that is present, across two leaves. -/
theorem scan_twoLeaves : Index.overTwoLeaves.pager.Shows Index.overTwoLeaves.pager.page?
    ∧ Index.overTwoLeaves.tree.Matches Index.overTwoLeaves.pager.page? Index.twoLeaves
    ∧ (Index.overTwoLeaves.tree.scan ⟨.key 3, .descending⟩ 9).answer Index.overTwoLeaves.pager
      = .ok [.ok (3, 3), .ok (2, 2), .ok (1, 1)] := by
  have hshows : Index.overTwoLeaves.pager.Shows Index.overTwoLeaves.pager.page? :=
    Index.ready_overTwoLeaves.shows (by decide) rfl
  have hmatches := Index.matches_iff.mp Index.matches_twoLeaves
  refine ⟨hshows, hmatches, ((scan_exact hshows (by decide) hmatches).1 ⟨.key 3, .descending⟩ 9).trans ?_⟩
  have hentries : Index.twoLeaves.entries = [(1, 1), (2, 2), (3, 3), (4, 4)] := by
    simp [Index.twoLeaves, Subtree.entries_inner, Subtree.entries_leaf]
  rw [hentries]
  rfl

end PagedIndex
