import PagedIndex.Proofs.Image.Damaged
import PagedIndex.Proofs.Interrupted
import PagedIndex.Proofs.Reopening

/-!
# Damage does not go unnoticed

A pager over a written image in which up to four bytes in a row of one payload are other ones refuses that page and
hands out all the others as it would over the image itself. So whoever opens the index over it may be told of the
damage, but never gets an entry that was not written (`damage_detected`).
-/

namespace PagedIndex

open PagedIndex.Action

variable {K I : Type} [IndexKey K] [Codec I]

/-! ## Pagers that read an image -/

/-- The pager was made for the image and started; since then it has been asked for anything, but not let go. -/
def Pager.Reading (image : Image) (pager : Pager K I) : Prop :=
  ∃ (capacity : Nat) (requests : List (Σ α, Request K I α)), (∀ request ∈ requests, request.2.disposes = false)
    ∧ pager = (ofImage image capacity).afterEach Request.perform (⟨_, .start⟩ :: requests)

namespace Pager

variable {image : Image} {capacity : Nat} {pager : Pager K I}

/-- Where the descriptor reads, the pager is in service. -/
theorem Reading.stands (h : pager.Reading image) {found : Descriptor × Option BloomFilter}
    (hopens : image.descriptor = .ok found) : ∃ capacity, pager.Stands image capacity .ready := by
  obtain ⟨capacity, requests, hkept, rfl⟩ := h
  have hstart := (stands_ofImage image capacity : Stands (K := K) (I := I) ..).perform .start
  unfold lifeAfter Image.lifeAfterStart at hstart
  rw [hopens] at hstart
  exact ⟨capacity, hstart.afterEach_of_stays rfl hkept⟩

end Pager

/-- Two images with the same bytes at a name give the same page there. -/
theorem Image.resolved_congr {image image' : Image} {ref : PageRef} (h : image.page ref.id = image'.page ref.id)
    (life : Lifecycle) :
    (image.resolved life ref : Except (Halt IndexError) (Page K I)) = image'.resolved life ref := by
  unfold resolved fetch
  rw [h]

theorem Image.resolved_of_page? {image : Image} {ref : PageRef} {page : Page K I} (h : image.page? ref = some page) :
    image.resolved .ready ref = .ok page := by
  have hdefined := (Image.page?_eq_some.mp h).2.1
  unfold resolved
  rw [hdefined]
  exact (Image.fetch_eq_ok hdefined).mpr h

/-! ## Opening -/

section

variable {image image' : Image} {found : Descriptor × Option BloomFilter} {measures : MeasureSet I} {config : Config}
  {keyOf : I → K}

theorem Tree.answer_openStored (h : image.descriptor = .ok found) (h' : image'.descriptor = .ok found)
    (capacity : Nat) : (Tree.openStored config measures keyOf).answer (Pager.ofImage image capacity)
      = (Tree.openStored config measures keyOf).answer (Pager.ofImage image' capacity) := by
  obtain ⟨pager, hrun, -⟩ := Pager.start_runs (K := K) (I := I) h capacity
  obtain ⟨pager', hrun', -⟩ := Pager.start_runs (K := K) (I := I) h' capacity
  unfold Tree.openStored answer
  rw [hrun.bind_eq, hrun'.bind_eq]
  dsimp only
  by_cases hcount : found.1.measures.toNat ≠ measures.length
  · rw [if_pos hcount]
    rfl
  · rw [if_neg hcount]
    unfold Tree.requireValid
    cases ({ config with pageSize := found.1.pageSize.toNat, hasFilter := found.1.hasFilter } : Config).validate <;> rfl

end

/-! ## Answers and failures -/

/-- Whatever the tree is asked behind a pager, it answers what the written-out tree `t` says, or it fails. -/
structure Tree.Truthful (tree : Tree K I) (pager : Pager K I) (t : Subtree K I) : Prop where
  find? : ∀ key, AnswersOrFails (· = itemAt key t.entries) ((tree.find? key).answer pager)
  get : ∀ key, AnswersOrFails (itemAt key t.entries = some ·) ((tree.get key).answer pager)
  contains : ∀ key, AnswersOrFails (· = (itemAt key t.entries).isSome) ((tree.contains key).answer pager)
  seekRay : ∀ ray, AnswersOrFails (ray.Start t) ((tree.seekRay ray).answer pager)
  /-- A scan hands the entries on its ray out, or some first ones and then a failure. -/
  scan : ∀ ray scan pager', Runs (Scan.ofRay tree ray) pager scan pager' →
    ∃ out, Interrupted (ray.along t.entries) out ∧ scan.HandsOut tree pager' out

section

variable [Std.TransOrd K] {srv : Service K I} {tree : Tree K I} {d : Nat} {t : Subtree K I} {pager : Pager K I}

omit [Std.TransOrd K] in
theorem Service.Reads.answersOrFails {α : Type} {x : Paging K I α} {Q : α → Prop} (h : srv.Reads x Q)
    (hserves : srv.Serves pager) : AnswersOrFails Q (x.answer pager) := by
  rcases h.runs_or_fails hserves with ⟨a, pager', hrun, -, hQ⟩ | ⟨e, pager', hfail, -⟩
  · rw [hrun.answer_eq]
    exact hQ
  · rw [hfail.answer_eq]
    trivial

/-- A tree whose pages are handed out or refused is truthful, provided that it turns away no key that is there. -/
theorem Service.Carries.truthful (h : srv.Carries tree d t) (hserves : srv.Serves pager)
    (hmight : ∀ key, srv.Reads (Pager.mightContain key) fun may => may = false → itemAt key t.entries = none) :
    tree.Truthful pager t := by
  have hfind := fun key => Service.reads_find? (hmight key) h.stored h.root h.whole h.ascending h.depth
  refine ⟨fun key => (hfind key).answersOrFails hserves, fun key => ?_, fun key => ?_, fun ray => ?_,
    fun ray scan pager' hrun => ?_⟩
  · rcases (hfind key).runs_or_fails hserves with ⟨item?, pager', hrun, -, rfl⟩ | ⟨e, pager', hfail, -⟩
    · rw [Tree.answer_get hrun.answer_eq]
      cases itemAt key t.entries <;> trivial
    · rw [show tree.get key = tree.find? key >>= _ from rfl, (hfail.bind _).answer_eq]
      trivial
  · exact (Service.reads_contains (hmight key) h.stored h.root h.whole h.ascending h.depth).answersOrFails hserves
  · exact (h.reads_seekRay ray).answersOrFails hserves
  · rcases (h.reads_ofRay ray).runs_or_fails hserves with
      ⟨scan', pager'', hrun', hserves', hscan⟩ | ⟨e, pager'', hfail, -⟩
    · obtain ⟨rfl, rfl⟩ := hrun'.unique hrun
      exact h.exists_handsOut hserves' hscan
    · exact absurd hrun hfail.not_runs

end

/-! ## Damaged images -/

/-- Asked about a key, a pager over the image answers what the filter says. -/
theorem Service.reads_mightContain_overImage {image : Image} {capacity : Nat} {view : PageRef → Option (Page K I)}
    (hpages : ∀ ref page, view ref = some page → AnswersOrFails (· = page) (image.resolved .ready ref)) (key : K) :
    (Service.overImage image capacity view hpages).Reads (Pager.mightContain key) (· = image.admits .ready key) := by
  rintro pager ⟨store, hb, hstands⟩
  obtain ⟨store', hstands', hrun⟩ := gives_iff.mp (hstands.mightContain_gives key)
  rw [show Pager.mightContain key pager = _ from Pager.serve_imaged_runs hb hrun]
  exact ⟨⟨store', rfl, hstands'⟩, rfl⟩

/-- The page `u` is damaged in the image `altered` of the tree `t`, whose pages have the names that `f` gives them
there. Nothing else is, and nobody who reads takes the page for another one. -/
structure Tree.Noticed (tree : Tree K I) (t u : Subtree K I) (f : PageRef → PageRef) (image altered : Image) :
    Prop where
  /-- The page is refused. -/
  refused : ∀ pager : Pager K I, pager.Reading altered → ∃ e : IoError, e.kind = .invalidData
    ∧ (Pager.resolve (f u.ref)).answer pager = .error (.failed (.persistence (f u.ref) e))
  /-- The others are handed out as over the image itself. -/
  same : ∀ v ∈ t.subtrees, v.ref ≠ u.ref → ∀ pager pager' : Pager K I, pager.Reading altered →
    pager'.Reading image → (Pager.resolve (f v.ref)).answer pager = (Pager.resolve (f v.ref)).answer pager'
  /-- What is handed out is what was written, if there are not more measures than can be counted. -/
  kept : tree.measures.length ≤ 65535 → ∀ v ∈ t.subtrees, v.ref ≠ u.ref → ∀ pager : Pager K I,
    pager.Reading altered → (Pager.resolve (f v.ref)).answer pager = .ok (v.rename f).page
  /-- The index is opened as over the image itself. -/
  opens : ∀ config capacity, (Tree.openStored config tree.measures tree.keyOf).answer (Pager.ofImage altered capacity)
    = (Tree.openStored config tree.measures tree.keyOf).answer (Pager.ofImage image capacity)
  /-- It answers what the index did, whatever has been asked for before, or it fails. -/
  truthful : ∀ config capacity opened,
    (Tree.openStored config tree.measures tree.keyOf).answer (Pager.ofImage altered capacity) = .ok opened →
    ∀ pager : Pager K I, pager.Reading altered → opened.Truthful pager (t.rename f)

section

variable {tree : Tree K I} {view : PageRef → Option (Page K I)} {t u v : Subtree K I} {f : PageRef → PageRef}
  {bytes : List UInt8} {altered : Image}

/-- What is asked for under a name and lies elsewhere than the damage. -/
theorem Tree.Damaged.resolved_eq (h : tree.Damaged f bytes t u altered)
    (hsize : (tree.image f bytes t).bytes.length < 2 ^ 64 - 2) (hplaced : Subtree.Placed f bytes.length t.stowed)
    (hv : v ∈ t.subtrees) (hne : v.ref ≠ u.ref) (hpayload : v.stored.payload.length < 2 ^ 32) :
    (altered.resolved .ready (f v.ref) : Except (Halt IndexError) (Page K I))
      = (tree.image f bytes t).resolved .ready (f v.ref) :=
  Image.resolved_congr (h.page_eq_of_ne hsize hplaced hv hne hpayload) .ready

theorem Tree.Damaged.resolved_self (h : tree.Damaged f bytes t u altered)
    (hsize : (tree.image f bytes t).bytes.length < 2 ^ 64 - 2) (hplaced : Subtree.Placed f bytes.length t.stowed)
    (hu : u ∈ t.subtrees) (hpayload : u.stored.payload.length < 2 ^ 32) :
    (altered.resolved .ready (f u.ref) : Except (Halt IndexError) (Page K I))
      = .error (.failed (.persistence (f u.ref) (.checksum (f u.ref).id.toNat))) := by
  obtain ⟨n, hname, hn, -⟩ := hplaced.exists_lies [] (t.stowed_perm.mem_iff.mpr hu)
  have hlong := tree.length_image f bytes t
  have hdefined : (f u.ref).isDefined := by
    refine PageRef.isDefined_of_lt ?_
    rw [hname, Image.toNat_ofNat (by omega)]
    omega
  unfold Image.resolved Image.fetch
  rw [h.page_eq hsize hplaced hpayload, hdefined]
  rfl

variable [LawfulKey K] [LawfulCodec I]

omit [LawfulCodec I] in
/-- A tree that is read off the image is truthful over the damaged one. -/
theorem Tree.Damaged.truthful (h : tree.Damaged f bytes t u altered)
    (hsize : (tree.image f bytes t).bytes.length < 2 ^ 64 - 2) (hplaced : Subtree.Placed f bytes.length t.stowed)
    (hu : u ∈ t.subtrees) (hpayload : ∀ v ∈ t.subtrees, v.stored.payload.length < 2 ^ 32) {opened : Tree K I}
    (hpage : 4 ≤ opened.config.pageSize) (ht : opened.Matches (tree.image f bytes t).page? (t.rename f))
    {pager : Pager K I} (hp : pager.Reading altered) : opened.Truthful pager (t.rename f) := by
  have hopens := h.descriptor_eq hsize
  obtain ⟨capacity, hstands⟩ := hp.stands hopens
  -- of the pages of the image those that are the tree's are looked at
  let view : PageRef → Option (Page K I) :=
    fun ref => if ref ∈ (t.rename f).refs then (tree.image f bytes t).page? ref else none
  have hview : ∀ r ∈ (t.rename f).refs, view r = (tree.image f bytes t).page? r := fun r hr => if_pos hr
  have hmatches : opened.Matches view (t.rename f) :=
    ⟨ht.root, ht.stored.congr hview, ht.sound, ht.last, ht.keyed, ht.len⟩
  have hpages : ∀ ref page, view ref = some page →
      AnswersOrFails (· = page) (altered.resolved .ready ref : Except _ (Page K I)) := by
    intro ref page hsome
    have hmem : ref ∈ (t.rename f).refs := by
      by_contra hnot
      rw [show view ref = none from if_neg hnot] at hsome
      exact absurd hsome (by simp)
    rw [hview ref hmem] at hsome
    rw [Subtree.refs, Subtree.subtrees_rename, List.map_map] at hmem
    obtain ⟨v, hv, rfl⟩ := List.mem_map.mp hmem
    rw [Function.comp_apply, Subtree.ref_rename] at hsome ⊢
    by_cases hne : v.ref = u.ref
    · rw [hne, h.resolved_self hsize hplaced hu (hpayload u hu)]
      trivial
    · rw [h.resolved_eq hsize hplaced hv hne (hpayload v hv), Image.resolved_of_page? hsome]
      rfl
  obtain ⟨d, hcarries⟩ : ∃ d, (Service.overImage _ capacity view hpages).Carries opened d (t.rename f) :=
    Service.exists_carries_overImage hopens hpages hpage hmatches
  refine hcarries.truthful hstands.backing fun key => ?_
  refine (Service.reads_mightContain_overImage hpages key).mono fun may hmay hnot => ?_
  rw [Subtree.entries_rename]
  by_contra hkey
  have hfilter : altered.filterIn .ready = tree.filter t := by
    unfold Image.filterIn
    rw [hopens]
  rw [hmay, Image.admits, hfilter, Tree.all_filter hkey] at hnot
  exact absurd hnot (by simp)

/-- Whoever reads the damaged image notices. -/
theorem Tree.Damaged.noticed (h : tree.Damaged f bytes t u altered) (ht : tree.Matches view t)
    (hvalid : tree.config.validate = .ok ()) (hm : t.Measured tree.measures)
    (hpayload : ∀ v ∈ t.subtrees, v.stored.payload.length < 2 ^ 32)
    (hplaced : Subtree.Placed f bytes.length t.stowed) (hsize : (tree.image f bytes t).bytes.length < 2 ^ 64 - 2)
    (hu : u ∈ t.subtrees) : tree.Noticed t u f (tree.image f bytes t) altered := by
  have hopens := h.descriptor_eq hsize
  have himage : (tree.image f bytes t).descriptor = .ok (tree.descriptor f (tree.filter t), tree.filter t) :=
    Image.descriptor_eq (Nat.lt_trans hsize (by decide)) rfl
  have hself := h.resolved_self hsize hplaced hu (hpayload u hu)
  have hothers : ∀ v ∈ t.subtrees, v.ref ≠ u.ref → (altered.resolved .ready (f v.ref) : Except _ (Page K I))
      = (tree.image f bytes t).resolved .ready (f v.ref) :=
    fun v hv hne => h.resolved_eq hsize hplaced hv hne (hpayload v hv)
  refine ⟨fun pager hp => ?_, fun v hv hne pager pager' hp hp' => ?_, fun hcount v hv hne pager hp => ?_,
    fun config capacity => Tree.answer_openStored hopens himage capacity,
    fun config capacity opened hopen pager hp => ?_⟩
  · obtain ⟨_, hstands⟩ := hp.stands hopens
    exact ⟨.checksum (f u.ref).id.toNat, rfl, (hstands.resolve_gives _).1.trans hself⟩
  · obtain ⟨_, hstands⟩ := hp.stands hopens
    obtain ⟨_, hstands'⟩ := hp'.stands himage
    rw [(hstands.resolve_gives _).1, (hstands'.resolve_gives _).1, hothers v hv hne]
  · obtain ⟨_, hstands⟩ := hp.stands hopens
    have hstored := (ht.written hvalid hm hcount hpayload hplaced hsize tree.config).stored
    have hpage := hstored (v.rename f) (Subtree.subtrees_rename t ▸ List.mem_map_of_mem hv)
    rw [Subtree.ref_rename] at hpage
    rw [(hstands.resolve_gives _).1, hothers v hv hne, Image.resolved_of_page? hpage]
  · -- the index could be opened, so its measures can be counted, and it is the one that was written
    obtain ⟨_, hrun⟩ := exists_runs_of_answer hopen
    obtain ⟨_, hstart, -⟩ := Pager.start_runs (K := K) (I := I) hopens capacity
    obtain ⟨-, hmeasures, hvalid', hrate⟩ := Tree.of_openStored_runs hstart hrun
    have hcount : tree.measures.length ≤ 65535 := by
      have hlt := (UInt16.ofNat tree.measures.length).toNat_lt
      rw [show (UInt16.ofNat tree.measures.length).toNat = _ from hmeasures] at hlt
      omega
    have hproper : config.filterRate.isProper = true := hrate ▸ (Config.of_validate hvalid').2.2
    obtain ⟨_, hreopen, -⟩ := Tree.reopen_runs ht hvalid hcount hsize hproper capacity
    rw [Tree.answer_openStored hopens himage capacity, hreopen.answer_eq] at hopen
    obtain rfl := Except.ok.inj hopen
    have ht' := ht.written hvalid hm hcount hpayload hplaced hsize config
    have hpage : 4 ≤ (tree.rename f config).config.pageSize := (Config.of_validate hvalid).1
    exact h.truthful hsize hplaced hu hpayload hpage ht' hp

end

end PagedIndex
