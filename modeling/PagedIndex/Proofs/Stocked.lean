import PagedIndex.Proofs.Hostile
import PagedIndex.Proofs.Verification

/-!
# Pagers with any pages

Behind a pager there may be any pages whatever, as long as there are finitely many: pages that point to themselves, to
one another in a circle, or to nothing, and inner pages with too many children or with none. It may not have been
started, or have been disposed of, and its gate may refuse any call. Asked for a page it hands out the page that it has
under that name or fails (`Pager.Stocked.exists_service`), and that is all that a computation can rely on which is to
come to an end in any case.
-/

namespace PagedIndex

open PagedIndex.Action

variable {K I : Type}

/-! ## What is handed out -/

namespace Action

variable {ε σ α : Type} {s : σ} {Q : α → Prop} {P : σ → Prop}

theorem Gives.meets {x : Action ε σ α} {r : Except (Halt ε) α} (h : Gives x s r P) (hr : AnswersOrFails Q r) :
    Meets x s fun a t => (r = .ok a ∧ Q a) ∧ P t := by
  obtain ⟨t, hP, hrun⟩ := gives_iff.mp h
  unfold Meets
  rw [hrun]
  cases hcase : r with
  | ok a => exact ⟨⟨rfl, hr.answered hcase⟩, hP⟩
  | error halt =>
    obtain ⟨e, rfl⟩ := hr.failed hcase
    trivial

theorem meets_ofExcept (r : Except ε α) : Meets (ofExcept r) s fun a t => r = .ok a ∧ t = s := by
  cases r with
  | ok a => exact meets_pure ⟨rfl, rfl⟩
  | error e => exact meets_fail e

end Action

theorem Lifecycle.eq_ready {life : Lifecycle} {a : Unit} (h : life.requireReady = .ok a) : life = .ready := by
  cases life with
  | ready => rfl
  | fresh => exact absurd h (by simp [requireReady])
  | disposed => exact absurd h (by simp [requireReady])

namespace Resident

/-- The page that is handed out under a name, if any is. -/
def held? (store : Resident K I) (ref : PageRef) : Option (Page K I) :=
  if store.life = .ready ∧ ref.isDefined then store.pages.get? ref else none

theorem meets_resolve (store : Resident K I) (ref : PageRef) : Meets (resolve ref) store fun page t =>
    store.held? ref = some page ∧ ∃ counters, t = { store with counters } := by
  unfold resolve
  refine Meets.bind (Q := fun _ t => store.life = .ready ∧ t = store) ?_ ?_
  · refine meets_get.bind ?_
    rintro _ _ ⟨rfl, rfl⟩
    refine (meets_ofExcept _).mono ?_
    rintro _ _ ⟨hready, rfl⟩
    exact ⟨Lifecycle.eq_ready hready, rfl⟩
  · rintro _ _ ⟨hready, rfl⟩
    split
    · exact meets_fail_bind
    · rename_i hd
      refine meets_get.bind ?_
      rintro _ _ ⟨rfl, rfl⟩
      split
      · rename_i page hpage
        refine (meets_set _).bind ?_
        rintro _ _ rfl
        refine meets_pure ⟨?_, _, rfl⟩
        rw [held?, if_pos ⟨hready, by simpa using hd⟩]
        exact hpage
      · exact meets_fail _

end Resident

namespace Image

variable [Codec K] [Codec I] {image : Image} {life : Lifecycle} {ref : PageRef} {page : Page K I}

/-- The page that is handed out under a name, if any is. -/
def handed? (image : Image) (life : Lifecycle) (ref : PageRef) : Option (Page K I) :=
  (image.resolved life ref).toOption

theorem handed?_eq_some : image.handed? life ref = some page ↔ image.resolved life ref = .ok page := by
  unfold handed?
  cases (image.resolved life ref : Except (Halt IndexError) (Page K I)) with
  | ok page' => simp [Except.toOption]
  | error halt => simp [Except.toOption]

/-- A page that is handed out lies in the image, and the pager has been started. -/
theorem of_resolved_eq_ok (h : image.resolved life ref = .ok page) : life = .ready ∧ image.page? ref = some page := by
  unfold resolved at h
  cases life with
  | ready =>
    refine ⟨rfl, ?_⟩
    by_cases hd : (!ref.isDefined) = true
    · rw [if_pos hd] at h
      exact absurd h (by simp [bind, Except.bind, Except.mapError, Lifecycle.requireReady, throw, throwThe,
        MonadExceptOf.throw])
    · rw [if_neg hd] at h
      exact (fetch_eq_ok (by simpa using hd)).mp h
  | fresh => exact absurd h (by simp [bind, Except.bind, Except.mapError, Lifecycle.requireReady])
  | disposed => exact absurd h (by simp [bind, Except.bind, Except.mapError, Lifecycle.requireReady])

end Image

/-- Whoever goes through the children, each between its separators, or down to the first child, gets past the page: if
it is an inner page with separators it has a child, and not more than one child more than separators. -/
def Page.Passable (page : Page K I) : Prop :=
  page.isLeaf = false → 0 < page.size → 0 < page.children.length ∧ page.children.length ≤ page.size + 1

instance (page : Page K I) : Decidable page.Passable :=
  inferInstanceAs (Decidable (_ = _ → _ < _ → _ ∧ _))

namespace Pager

/-- The pages in memory, whatever was counted since. -/
def OverStore (store : Resident K I) (backing : Backing K I) : Prop :=
  ∃ counters, backing = .resident { store with counters }

/-- The pages of the image, whatever the cache keeps of them. -/
def OverImage [Codec K] [Codec I] (image : Image) (capacity : Nat) (life : Lifecycle) (backing : Backing K I) : Prop :=
  ∃ store, backing = .imaged store ∧ store.Stands image capacity life

/-- At so many names at most there are pages: as many as are in memory, or bytes in the image. -/
def names (pager : Pager K I) : Nat :=
  match pager.backing with
  | .resident store => store.pages.size
  | .imaged store => (store.image.map fun image => image.bytes.length).getD 0

theorem names_le_walkLimit (pager : Pager K I) : pager.names + 2 ≤ pager.walkLimit := by
  show pager.names + 2 ≤ pager.names + pager.gate.resolve.length + 2
  omega

variable {pager : Pager K I}

theorem OverImage.names_eq [Codec K] [Codec I] {image : Image} {capacity : Nat} {life : Lifecycle}
    (h : OverImage image capacity life pager.backing) :
    pager.names = if life = .disposed then 0 else image.bytes.length := by
  obtain ⟨store, hb, hstands⟩ := h
  rw [names, hb]
  dsimp only
  rw [hstands.lies]
  split <;> rfl

theorem meets_pass (call : Call) : Meets (pass call) pager fun _ q => q.backing = pager.backing := by
  unfold Meets
  rw [pass_eq]
  split
  · rename_i hrun
    split at hrun
    · rw [← (EStateM.Result.ok.inj hrun).2]
    · exact absurd hrun (by simp)
  · trivial
  · rename_i hne hrun
    split at hrun
    · exact absurd hrun (by simp)
    · rw [← (EStateM.Result.error.inj hrun).1] at hne
      exact absurd rfl (hne _)

/-- Whatever the gate lets through, the backing answers. -/
theorem meets_resolve [Codec K] [Codec I] {ref : PageRef} {Q : Page K I → Backing K I → Prop}
    (h : match pager.backing with
      | .resident store => Meets (Resident.resolve ref) store fun page t => Q page (.resident t)
      | .imaged store => Meets (Imaged.resolve ref) store fun page t => Q page (.imaged t)) :
    Meets (resolve ref) pager fun page q => Q page q.backing := by
  unfold resolve
  refine (meets_pass .resolve).bind fun _ q hq => ?_
  rw [← hq] at h
  unfold Meets serve
  cases hb : q.backing with
  | resident store =>
    rw [hb] at h
    unfold Meets at h
    dsimp only at h ⊢
    cases hrun : Resident.resolve ref store with
    | ok page t => rwa [hrun] at h
    | error halt t =>
      rw [hrun] at h
      cases halt <;> exact h
  | imaged store =>
    rw [hb] at h
    unfold Meets at h
    dsimp only at h ⊢
    cases hrun : Imaged.resolve ref store with
    | ok page t => rwa [hrun] at h
    | error halt t =>
      rw [hrun] at h
      cases halt <;> exact h

/-- There are pages behind the pager, any whatever, or an image of any bytes. -/
inductive Stocked [Codec K] [Codec I] (pager : Pager K I) : Prop
  | resident {store : Resident K I} : pager.backing = .resident store → Stocked pager
  | imaged {store : Imaged K I} {image : Image} {capacity : Nat} {life : Lifecycle} :
    pager.backing = .imaged store → store.Stands image capacity life → Stocked pager

/-- Where pages may be changed they are in memory. -/
theorem stocked_of_isWritable [Codec K] [Codec I] (h : pager.isWritable = true) : pager.Stocked := by
  unfold isWritable at h
  cases hb : pager.backing with
  | resident store => exact .resident hb
  | imaged store =>
    rw [hb] at h
    exact absurd h (by simp)

/-- All pages in memory can be passed. From an image none is handed out that cannot. -/
def Passable (pager : Pager K I) : Prop :=
  ∀ store, pager.backing = .resident store → ∀ binding ∈ store.pages.bindings, binding.2.Passable

end Pager

/-! ## What can be relied on -/

variable [IndexKey K] [Codec I]

/-- Asked for any page, the service hands out the one that it has or fails, and it has not more than so many. -/
structure Service.Total (srv : Service K I) (names : Nat) : Prop where
  resolve : ∀ ref, srv.Reads (Pager.resolve ref) fun page => srv.view ref = some page
  /-- Any failure whatever is passed on. -/
  refuses : ∀ e pager, srv.Refuses e pager
  count : ∀ refs : List PageRef, refs.Nodup → (∀ r ∈ refs, (srv.view r).isSome) → refs.length ≤ names
  limit : names + 2 ≤ srv.limit

omit [IndexKey K] [Codec I] in
theorem served_of_meets {α : Type} {x : Paging K I α} {pager : Pager K I} {Serves : Pager K I → Prop} {Q : α → Prop}
    (h : Meets x pager fun a q => Q a ∧ Serves q) : Served Serves (fun _ _ => True) Q (x pager) := by
  obtain ⟨a, q, hruns, hQ, hserves⟩ | ⟨e, q, hfails⟩ := h.runs_or_fails
  · rw [show x pager = _ from hruns]
    exact ⟨hserves, hQ⟩
  · rw [show x pager = _ from hfails]
    trivial

/-- Pages that are handed out alike in all states that are come upon are a service. -/
def Service.overBacking (Serves : Backing K I → Prop) (view : PageRef → Option (Page K I)) (names : Nat)
    (hanswers : ∀ (pager : Pager K I) ref, Serves pager.backing →
      Meets (Pager.resolve ref) pager fun page q => view ref = some page ∧ Serves q.backing)
    (hnames : ∀ pager : Pager K I, Serves pager.backing → pager.names = names) : Service K I where
  view := view
  Serves pager := Serves pager.backing
  Refuses _ _ := True
  limit := names + 2
  limit_le {pager} hp := hnames pager hp ▸ pager.names_le_walkLimit
  served {pager ref _} hp hpage := served_of_meets ((hanswers pager ref hp).mono fun _ _ h =>
    ⟨Option.some.inj (h.1.symm.trans hpage), h.2⟩)

theorem Service.exists_total (Serves : Backing K I → Prop) {view : PageRef → Option (Page K I)} {names : Nat}
    (hanswers : ∀ (pager : Pager K I) ref, Serves pager.backing →
      Meets (Pager.resolve ref) pager fun page q => view ref = some page ∧ Serves q.backing)
    (hnames : ∀ pager : Pager K I, Serves pager.backing → pager.names = names)
    (hcount : ∀ refs : List PageRef, refs.Nodup → (∀ r ∈ refs, (view r).isSome) → refs.length ≤ names) :
    ∃ srv : Service K I, srv.view = view ∧ srv.Total names ∧ ∀ pager, Serves pager.backing → srv.Serves pager :=
  ⟨overBacking Serves view names hanswers hnames, rfl,
    ⟨fun ref pager hp => served_of_meets (hanswers pager ref hp), fun _ _ => trivial, hcount, Nat.le_refl _⟩,
    fun _ hp => hp⟩

namespace Pager

theorem exists_service_resident {pager : Pager K I} {store : Resident K I} (hb : pager.backing = .resident store) :
    ∃ srv : Service K I, srv.Total pager.names ∧ srv.Serves pager
      ∧ (pager.Passable → ∀ ref page, srv.view ref = some page → page.Passable) := by
  have hbound : ∀ {ref : PageRef}, (store.held? ref).isSome → store.held? ref = store.pages.get? ref := by
    intro ref h
    unfold Resident.held? at h ⊢
    split at h
    · rename_i hready
      rw [if_pos hready]
    · exact absurd h (by simp)
  have hanswers : ∀ (q : Pager K I) ref, OverStore store q.backing →
      Meets (Pager.resolve ref) q fun page q' => store.held? ref = some page ∧ OverStore store q'.backing := by
    rintro q ref ⟨counters, hq⟩
    refine meets_resolve (Q := fun page backing => store.held? ref = some page ∧ OverStore store backing) ?_
    rw [hq]
    refine (Resident.meets_resolve _ ref).mono ?_
    rintro page _ ⟨hpage, counters', rfl⟩
    exact ⟨hpage, counters', rfl⟩
  have hnames : ∀ q : Pager K I, OverStore store q.backing → q.names = pager.names := by
    rintro q ⟨counters, hq⟩
    rw [names, hq, names, hb]
  have hcount : ∀ refs : List PageRef, refs.Nodup → (∀ r ∈ refs, (store.held? r).isSome) →
      refs.length ≤ pager.names := by
    intro refs hnd hrefs
    rw [names, hb]
    exact Table.length_le_size hnd fun r hr => hbound (hrefs r hr) ▸ hrefs r hr
  obtain ⟨srv, hview, htotal, hserves⟩ := Service.exists_total (OverStore store) hanswers hnames hcount
  refine ⟨srv, htotal, hserves pager ⟨store.counters, hb⟩, fun hpass ref page hpage => ?_⟩
  rw [hview] at hpage
  rw [hbound (by rw [hpage]; rfl)] at hpage
  exact hpass store hb (ref, page) (Table.mem_of_get? hpage)

theorem exists_service_imaged [GuardedCodec K] [GuardedCodec I] {pager : Pager K I} {store : Imaged K I}
    {image : Image} {capacity : Nat} {life : Lifecycle} (hb : pager.backing = .imaged store)
    (hstands : store.Stands image capacity life) : ∃ srv : Service K I, srv.Total pager.names ∧ srv.Serves pager
      ∧ ∀ ref page, srv.view ref = some page → page.Passable := by
  have hanswers : ∀ (q : Pager K I) ref, OverImage image capacity life q.backing →
      Meets (Pager.resolve ref) q fun page q' =>
        image.handed? life ref = some page ∧ OverImage image capacity life q'.backing := by
    rintro q ref ⟨t, hq, ht⟩
    refine meets_resolve
      (Q := fun page backing => image.handed? life ref = some page ∧ OverImage image capacity life backing) ?_
    rw [hq]
    refine ((ht.resolve_gives ref).meets (image.answersOrFails_resolved life ref)).mono ?_
    rintro page t' ⟨⟨hpage, -⟩, ht'⟩
    exact ⟨Image.handed?_eq_some.mpr hpage, t', rfl, ht'⟩
  have hcount : ∀ refs : List PageRef, refs.Nodup → (∀ r ∈ refs, (image.handed? life r : Option (Page K I)).isSome) →
      refs.length ≤ if life = .disposed then 0 else image.bytes.length := by
    intro refs hnd hrefs
    have hlies : ∀ r ∈ refs, life = .ready ∧ (image.page? r : Option (Page K I)).isSome := by
      intro r hr
      obtain ⟨page, hpage⟩ := Option.isSome_iff_exists.mp (hrefs r hr)
      obtain ⟨hlife, hlies⟩ := Image.of_resolved_eq_ok (Image.handed?_eq_some.mp hpage)
      exact ⟨hlife, by rw [hlies]; rfl⟩
    cases refs with
    | nil => exact Nat.zero_le _
    | cons r refs =>
      -- where there is a page, the image has not been let go
      rw [if_neg (by rw [(hlies r List.mem_cons_self).1]; simp)]
      exact Image.length_le_of_pages hnd fun r hr => (hlies r hr).2
  obtain ⟨srv, hview, htotal, hserves⟩ :=
    Service.exists_total (OverImage image capacity life) hanswers (fun _ hq => hq.names_eq) hcount
  rw [OverImage.names_eq ⟨store, hb, hstands⟩]
  refine ⟨srv, htotal, hserves pager ⟨store, hb, hstands⟩, fun ref page hpage => ?_⟩
  rw [hview] at hpage
  -- what is read out of an image was checked for its shape
  have hshaped := ((image.answersOrFails_resolved life ref).answered (Image.handed?_eq_some.mp hpage)).2
  obtain ⟨name, m, node⟩ := page
  cases node with
  | leaf leaf => exact fun hleaf => absurd hleaf (by simp [Page.isLeaf])
  | inner inner =>
    intro _ _
    have hlen : inner.children.length = inner.keys.length + 1 := hshaped inner rfl
    exact ⟨hlen ▸ Nat.succ_pos _, hlen.le⟩

/-- Whatever pages there are, they are a service that has no more of them than there are names. -/
theorem Stocked.exists_service [GuardedCodec K] [GuardedCodec I] {pager : Pager K I} (h : pager.Stocked) :
    ∃ srv : Service K I, srv.Total pager.names ∧ srv.Serves pager
      ∧ (pager.Passable → ∀ ref page, srv.view ref = some page → page.Passable) := by
  cases h with
  | resident hb => exact exists_service_resident hb
  | imaged hb hstands =>
    obtain ⟨srv, htotal, hserves, hpassable⟩ := exists_service_imaged hb hstands
    exact ⟨srv, htotal, hserves, fun _ => hpassable⟩

end Pager

end PagedIndex
