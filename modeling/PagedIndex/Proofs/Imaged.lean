import PagedIndex.Proofs.Resident
import PagedIndex.Proofs.Taking

/-!
# Pages of an image

What a pager over an image answers is settled by the image alone: `Image.page?` is the page that lies at a name.
The cache in between keeps to it (`Imaged.Faithful`), whatever it has kept or let go, and so an opened image is a
service.
-/

namespace PagedIndex

/-! ## What lies at a name -/

namespace Image

variable {K I : Type} [Codec K] [Codec I]

/-- The page that lies at a name, if one does. -/
def page? (image : Image) (ref : PageRef) : Option (Page K I) :=
  if ref.isDefined then
    match image.page ref.id with
    | .ok stored =>
      match (stored.decode : Except (Halt IoError) (Node K I × List Int64)) with
      | .ok (node, measures) => some { ref, measures, node }
      | .error _ => none
    | .error _ => none
  else
    none

theorem page?_eq_some {image : Image} {ref : PageRef} {page : Page K I} : image.page? ref = some page
    ↔ page.ref = ref ∧ ref.isDefined ∧ ∃ stored, image.page ref.id = .ok stored
      ∧ stored.decode = .ok (page.node, page.measures) := by
  unfold page?
  constructor
  · intro h
    split at h
    · rename_i hd
      split at h
      · rename_i stored hstored
        split at h
        · rename_i node measures hdecode
          obtain rfl := Option.some.inj h
          exact ⟨rfl, hd, stored, hstored, hdecode⟩
        · exact absurd h (by simp)
      · exact absurd h (by simp)
    · exact absurd h (by simp)
  · rintro ⟨rfl, hd, stored, hstored, hdecode⟩
    rw [if_pos hd, hstored]
    dsimp only
    rw [hdecode]

omit [Codec K] [Codec I] in
/-- No page lies behind the end of the image. -/
theorem lt_of_page {image : Image} {offset : UInt64} {stored : StoredPage} (h : image.page offset = .ok stored) :
    offset.toNat < image.bytes.length := by
  by_contra hle
  have hnil : image.bytes.drop offset.toNat = [] := List.drop_eq_nil_of_le (by omega)
  obtain ⟨rest, hrun⟩ := Reader.runs_of_run_eq h
  rw [hnil] at hrun
  obtain ⟨out, rest', hheaded, -⟩ := hrun.of_bind
  -- there is not even room for a header
  unfold headed at hheaded
  obtain ⟨-, hheaded⟩ := Action.Runs.of_check hheaded
  obtain ⟨header, _, hheader, -⟩ := hheaded.of_bind
  obtain ⟨_, _, hrequire, -⟩ := hheader.of_bind
  exact absurd (Reader.le_of_runs_require hrequire) (by decide)

theorem lt_of_page? {image : Image} {ref : PageRef} {page : Page K I} (h : image.page? ref = some page) :
    ref.id.toNat < image.bytes.length := by
  obtain ⟨-, -, stored, hstored, -⟩ := page?_eq_some.mp h
  exact lt_of_page hstored

/-- There are fewer pages in an image than bytes. -/
theorem length_le_of_pages {image : Image} {refs : List PageRef} (hnd : refs.Nodup)
    (h : ∀ r ∈ refs, (image.page? r : Option (Page K I)).isSome) : refs.length ≤ image.bytes.length :=
  PageRef.length_le hnd fun r hr => by
    obtain ⟨page, hpage⟩ := Option.isSome_iff_exists.mp (h r hr)
    exact lt_of_page? hpage

end Image

/-! ## The cache -/

namespace PageCache

variable {V : Type} {cache : PageCache V} {ref r : PageRef} {value v : V}

theorem get_of_kept (h : cache.entries.get? ref = some value) :
    cache.get ref = (some value, { cache with counters := cache.counters.countHit }) := by
  unfold PageCache.get
  rw [h]

theorem get_of_missing (h : cache.entries.get? ref = none) :
    cache.get ref = (none, { cache with counters := cache.counters.countMiss }) := by
  unfold PageCache.get
  rw [h]

/-- Making room only takes values away. -/
theorem get?_of_makeRoom (h : cache.makeRoom.2.entries.get? r = some v) :
    cache.entries.get? r = some v := by
  fun_induction makeRoom cache with
  | case1 => exact h
  | case2 cache _ victim _ _ _ smaller _ _ hroom ih =>
    have hkept : smaller.entries.get? r = some v := ih (hroom ▸ h)
    rw [Table.get?_erase] at hkept
    split at hkept
    · exact absurd hkept (by simp)
    · exact hkept
  | case3 => exact h

/-- Taking a value in hands out this one or the one that is there already, and brings nothing else in. -/
theorem insert_cases (cache : PageCache V) (ref : PageRef) (value : V) :
    ((cache.insert ref value).1 = value ∨ cache.entries.get? ref = some (cache.insert ref value).1)
      ∧ ∀ r v, (cache.insert ref value).2.2.entries.get? r = some v →
        r = ref ∧ v = value ∨ cache.entries.get? r = some v := by
  unfold insert
  split
  · exact ⟨.inl rfl, fun r v h => .inr h⟩
  · split
    · rename_i present hpresent
      exact ⟨.inr hpresent, fun r v h => .inr h⟩
    · refine ⟨.inl rfl, fun r v h => ?_⟩
      dsimp only at h
      rw [Table.get?_insert] at h
      split at h
      · rename_i heq
        exact .inl ⟨heq.symm, (Option.some.inj h).symm⟩
      · exact .inr (get?_of_makeRoom h)

end PageCache

/-! ## The store -/

variable {K I : Type} [Codec K] [Codec I]

/-- The store has been opened over an image with a filter, and what its cache keeps is what lies there. -/
structure Imaged.Faithful (image : Image) (filter : Option BloomFilter) (store : Imaged K I) : Prop where
  lies : store.image = some image
  life : store.life = .ready
  loaded : store.filter = filter
  kept : ∀ ref page, store.cache.entries.get? ref = some page → image.page? ref = some page

namespace Imaged

variable {image : Image} {filter : Option BloomFilter} {store : Imaged K I} {ref : PageRef} {page : Page K I}

omit [Codec K] [Codec I] in
theorem runs_reading {α : Type} {result : Except (Halt IoError) α} {a : α} (h : result = .ok a) (ref : PageRef)
    (store : Imaged K I) : Action.Runs (reading ref result) store a store := by
  rw [h]
  rfl

theorem Faithful.requireReady (h : store.Faithful image filter) : store.life.requireReady = .ok () := by
  rw [h.life]
  rfl

theorem Faithful.source_runs (h : store.Faithful image filter) : Action.Runs source store image store := by
  unfold source
  refine (Action.runs_get store).bind ?_
  rw [h.lies]
  exact Action.runs_pure image store

theorem Faithful.load_runs (h : store.Faithful image filter) (hpage : image.page? ref = some page) :
    ∃ store', Action.Runs (load ref) store page store' ∧ store'.Faithful image filter := by
  obtain ⟨hname, -, stored, hstored, hdecode⟩ := Image.page?_eq_some.mp hpage
  let store₁ : Imaged K I :=
    { store with cache := { store.cache with counters := store.cache.counters.countRead } }
  obtain ⟨hvalue, hentries⟩ := store₁.cache.insert_cases ref page
  have hanswer : (store₁.cache.insert ref page).1 = page := by
    rcases hvalue with heq | hpresent
    · exact heq
    · exact Option.some.inj ((h.kept _ _ hpresent).symm.trans hpage)
  refine ⟨{ store₁ with cache := (store₁.cache.insert ref page).2.2 }, ?_, ⟨h.lies, h.life, h.loaded, ?_⟩⟩
  · unfold load
    refine h.source_runs.bind ?_
    refine (runs_reading hstored ref store).bind ?_
    refine (Action.runs_modify _ store).bind ?_
    refine (runs_reading hdecode ref store₁).bind ?_
    refine (Action.runs_get store₁).bind ?_
    have hsame : (⟨ref, page.measures, page.node⟩ : Page K I) = page := by rw [← hname]
    have htail : Action.Runs (do
        set { store₁ with cache := (store₁.cache.insert ref page).2.2 }
        return (store₁.cache.insert ref page).1 : Action IndexError (Imaged K I) (Page K I)) store₁ page
          { store₁ with cache := (store₁.cache.insert ref page).2.2 } := by
      refine (Action.runs_set store₁ _).bind ?_
      rw [hanswer]
      exact Action.runs_pure page _
    rw [← hsame] at htail ⊢
    exact htail
  · intro r v hv
    rcases hentries r v hv with ⟨rfl, rfl⟩ | hold
    · exact hpage
    · exact h.kept r v hold

/-- The page that lies at a name is handed out, whether it was kept or not. -/
theorem Faithful.resolve_runs (h : store.Faithful image filter) (hpage : image.page? ref = some page) :
    ∃ store', Action.Runs (resolve ref) store page store' ∧ store'.Faithful image filter := by
  have hdefined : ¬ (!ref.isDefined) = true := by
    rw [(Image.page?_eq_some.mp hpage).2.1]
    simp
  cases hget : store.cache.entries.get? ref with
  | some kept =>
    obtain rfl := Option.some.inj ((h.kept _ _ hget).symm.trans hpage)
    let store' : Imaged K I := 
      { store with cache := { store.cache with counters := store.cache.counters.countHit } }
    refine ⟨store', ?_, h.lies, h.life, h.loaded, h.kept⟩
    unfold resolve
    refine (Action.runs_get store).bind ?_
    refine (Action.runs_ofExcept h.requireReady store).bind ?_
    rw [if_neg hdefined, PageCache.get_of_kept hget]
    exact (Action.runs_set store store').bind (Action.runs_pure kept store')
  | none =>
    let store₁ : Imaged K I :=
      { store with cache := { store.cache with counters := store.cache.counters.countMiss } }
    obtain ⟨store', hload, hfaithful⟩ :=
      (show store₁.Faithful image filter from ⟨h.lies, h.life, h.loaded, h.kept⟩).load_runs hpage
    refine ⟨store', ?_, hfaithful⟩
    unfold resolve
    refine (Action.runs_get store).bind ?_
    refine (Action.runs_ofExcept h.requireReady store).bind ?_
    rw [if_neg hdefined, PageCache.get_of_missing hget]
    exact (Action.runs_set store store₁).bind hload

omit [Codec K] [Codec I] in
theorem of_reading_runs {α : Type} {result : Except (Halt IoError) α} {a : α} {ref : PageRef}
    {store store' : Imaged K I} (h : Action.Runs (reading ref result) store a store') :
    result = .ok a ∧ store' = store := by
  cases result with
  | error halt =>
    cases halt with
    | failed e => exact absurd h Action.not_runs_throw
    | aborted => exact absurd h Action.not_runs_throw
    | endless => exact absurd h Action.not_runs_throw
  | ok b =>
    obtain ⟨rfl, rfl⟩ := (runs_reading rfl ref store).unique h
    exact ⟨rfl, rfl⟩

/-- What was read lies in the image. -/
theorem Faithful.of_load_runs (h : store.Faithful image filter) {store' : Imaged K I}
    (hrun : Action.Runs (load ref) store page store') :
    ∃ stored, image.page ref.id = .ok stored ∧ ∃ read : Node K I × List Int64, stored.decode = .ok read := by
  obtain ⟨image', store₁, hsource, hrest⟩ := hrun.of_bind
  obtain ⟨rfl, rfl⟩ := (h.source_runs).unique hsource
  obtain ⟨stored, store₂, hstored, hrest⟩ := hrest.of_bind
  obtain ⟨_, store₃, -, hrest⟩ := hrest.of_bind
  obtain ⟨read, store₄, hread, -⟩ := hrest.of_bind
  exact ⟨stored, (of_reading_runs hstored).1, read, (of_reading_runs hread).1⟩

/-- What is handed out lies in the image. -/
theorem Faithful.of_resolve_runs (h : store.Faithful image filter) {store' : Imaged K I}
    (hrun : Action.Runs (resolve ref) store page store') : (image.page? ref : Option (Page K I)).isSome := by
  obtain ⟨_, _, hget, hrest⟩ := hrun.of_bind
  obtain ⟨rfl, rfl⟩ := (Action.runs_get store).unique hget
  obtain ⟨_, _, hready, hrest⟩ := hrest.of_bind
  obtain ⟨-, rfl⟩ := (Action.runs_ofExcept h.requireReady store).unique hready
  obtain ⟨hd, hrest⟩ := Action.Runs.of_check hrest
  cases hcached : store.cache.entries.get? ref with
  | some kept =>
    rw [h.kept ref kept hcached]
    rfl
  | none =>
    rw [PageCache.get_of_missing hcached] at hrest
    obtain ⟨_, store₁, hset, hload⟩ := hrest.of_bind
    obtain ⟨-, rfl⟩ := (Action.runs_set store _).unique hset
    have hfaithful : Faithful image filter
        { store with cache := { store.cache with counters := store.cache.counters.countMiss } } :=
      ⟨h.lies, h.life, h.loaded, h.kept⟩
    dsimp only at hload
    obtain ⟨stored, hstored, read, hdecode⟩ := hfaithful.of_load_runs hload
    have hpage : image.page? ref = some ⟨ref, read.2, read.1⟩ :=
      Image.page?_eq_some.mpr ⟨rfl, by simpa using hd, stored, hstored, hdecode⟩
    rw [hpage]
    rfl

/-- A key is turned away exactly if there is a filter and the filter denies it. -/
theorem Faithful.mightContain_runs [HashInput K] (h : store.Faithful image filter) (key : K) : ∃ store',
    Action.Runs (mightContain key) store (filter.all (·.contains key)) store' ∧ store'.Faithful image filter := by
  cases hfilter : filter with
  | none =>
    refine ⟨store, ?_, hfilter ▸ h⟩
    unfold mightContain
    refine (Action.runs_get store).bind ?_
    rw [h.loaded, hfilter]
    exact Action.runs_pure true store
  | some loaded =>
    by_cases hmay : loaded.contains key = true
    · refine ⟨store, ?_, hfilter ▸ h⟩
      unfold mightContain
      refine (Action.runs_get store).bind ?_
      rw [h.loaded, hfilter, Option.all_some]
      dsimp only
      rw [if_pos hmay, hmay]
      exact Action.runs_pure true store
    · let store' : Imaged K I := { store with
        cache := { store.cache with counters := store.cache.counters.countRejection }, filter := some loaded }
      refine ⟨store', ?_, h.lies, h.life, rfl, h.kept⟩
      unfold mightContain
      refine (Action.runs_get store).bind ?_
      rw [h.loaded, hfilter, Option.all_some]
      dsimp only
      rw [if_neg hmay, Bool.eq_false_iff.mpr hmay]
      exact (Action.runs_set store store').bind (Action.runs_pure false store')

end Imaged

/-! ## The pager -/

/-- The pager has been opened over an image with a filter, and nothing is refused in front of it. -/
structure Pager.Opened (image : Image) (filter : Option BloomFilter) (pager : Pager K I) : Prop where
  gate : pager.gate.resolve = .always
  backing : ∃ store, pager.backing = .imaged store ∧ store.Faithful image filter

namespace Pager

variable {image : Image} {filter : Option BloomFilter} {pager : Pager K I} {ref : PageRef} {page : Page K I}

omit [Codec K] [Codec I] in
theorem serve_imaged_runs {α : Type} {store store' : Imaged K I} (hb : pager.backing = .imaged store)
    {x : Action IndexError (Resident K I) α} {y : Action IndexError (Imaged K I) α} {a : α}
    (h : Action.Runs y store a store') : Action.Runs (serve x y) pager a { pager with backing := .imaged store' } := by
  unfold Action.Runs serve
  rw [hb]
  dsimp only
  rw [show y store = _ from h]

theorem Opened.pass_runs (h : pager.Opened image filter) : Action.Runs (pass .resolve) pager () pager :=
  pass_always h.gate

theorem Opened.resolve_runs (h : pager.Opened image filter) (hpage : image.page? ref = some page) :
    ∃ pager', Action.Runs (resolve ref) pager page pager' ∧ pager'.Opened image filter := by
  obtain ⟨store, hb, hf⟩ := h.backing
  obtain ⟨store', hrun, hf'⟩ := hf.resolve_runs hpage
  refine ⟨{ pager with backing := .imaged store' }, ?_, h.gate, store', rfl, hf'⟩
  unfold Pager.resolve
  exact h.pass_runs.bind (serve_imaged_runs hb hrun)

theorem Opened.of_resolve_runs (h : pager.Opened image filter) {pager' : Pager K I}
    (hrun : Action.Runs (Pager.resolve ref) pager page pager') : (image.page? ref : Option (Page K I)).isSome := by
  obtain ⟨store, hb, hf⟩ := h.backing
  obtain ⟨_, _, hpass, hserve⟩ := hrun.of_bind
  obtain ⟨-, rfl⟩ := h.pass_runs.unique hpass
  unfold Action.Runs serve at hserve
  rw [hb] at hserve
  dsimp only at hserve
  split at hserve
  · rename_i a store' hresolve
    rw [(EStateM.Result.ok.inj hserve).1] at hresolve
    exact hf.of_resolve_runs hresolve
  · exact absurd hserve (by simp)

/-- The pages of an opened image are a service, which refuses nothing. -/
def Opened.service {K I : Type} [IndexKey K] [Codec I] (image : Image) (filter : Option BloomFilter) :
    Service K I where
  view := image.page?
  Serves := Opened image filter
  Refuses _ _ := False
  limit := image.bytes.length + 2
  limit_le := by
    intro q hq
    obtain ⟨store, hb, hf⟩ := hq.backing
    simp only [walkLimit, hb, hf.lies, Option.map_some, Option.getD_some]
    omega
  served := by
    intro q ref page hq hpage
    obtain ⟨q', hrun, hq'⟩ := hq.resolve_runs hpage
    rw [show Pager.resolve ref q = _ from hrun]
    exact ⟨hq', rfl⟩

theorem reads_mightContain_opened {K I : Type} [IndexKey K] [Codec I] (image : Image) (filter : Option BloomFilter)
    (key : K) : (Opened.service image filter : Service K I).Reads (Pager.mightContain key)
      (· = filter.all (·.contains key)) := by
  intro pager hopened
  obtain ⟨store, hb, hf⟩ := hopened.backing
  obtain ⟨store', hrun, hf'⟩ := hf.mightContain_runs key
  rw [show Pager.mightContain key pager = _ from serve_imaged_runs hb hrun]
  exact ⟨⟨hopened.gate, store', rfl, hf'⟩, rfl⟩

theorem exact_openedService {K I : Type} [IndexKey K] [Codec I] (image : Image) (filter : Option BloomFilter) :
    (Opened.service image filter : Service K I).Exact :=
  fun hq hrun => hq.of_resolve_runs hrun

end Pager

end PagedIndex
