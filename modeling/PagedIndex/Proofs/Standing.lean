import PagedIndex.Proofs.Caching

/-!
# What a pager over an image answers

The image, and whether the pager has been started or disposed of, settle what every call is answered with, failures
included: `Image.started`, `Image.resolved` and `Image.admits` say what. The cache has no part in it. It holds nothing
but pages that lie in the image, and not more of them than its capacity (`Imaged.Stands`).
-/

namespace PagedIndex

/-- The same reason to stop, the error being put in other words. -/
def Halt.map {ε ε' : Type} (f : ε → ε') : Halt ε → Halt ε'
  | failed e => failed (f e)
  | aborted => aborted
  | endless => endless

/-! ## Outcomes -/

theorem Except.mapError_eq_ok {ε ε' α : Type} {f : ε → ε'} {r : Except ε α} {a : α} :
    r.mapError f = .ok a ↔ r = .ok a := by
  cases r with
  | ok b => simp [Except.mapError]
  | error e => simp [Except.mapError]

namespace Action

variable {ε ε' σ α β : Type} {s t : σ} {P Q : σ → Prop}

/-- Started in `s`, the computation has the outcome `r` and leaves a state with `P`. -/
def Gives (x : Action ε σ α) (s : σ) (r : Except (Halt ε) α) (P : σ → Prop) : Prop :=
  x.answer s = r ∧ P (x.after s)

/-- How a computation ends that has the outcome `r` and leaves the state `t`. -/
def ending (r : Except (Halt ε) α) (t : σ) : EStateM.Result (Halt ε) σ α :=
  match r with
  | .ok a => .ok a t
  | .error halt => .error halt t

theorem gives_iff {x : Action ε σ α} {r : Except (Halt ε) α} : Gives x s r P ↔ ∃ t, P t ∧ x s = ending r t := by
  unfold Gives answer after
  constructor
  · rintro ⟨rfl, hP⟩
    cases hrun : x s with
    | ok a t =>
      rw [hrun] at hP
      exact ⟨t, hP, rfl⟩
    | error halt t =>
      rw [hrun] at hP
      exact ⟨t, hP, rfl⟩
  · rintro ⟨t, hP, hrun⟩
    rw [hrun]
    cases r <;> exact ⟨rfl, hP⟩

theorem Runs.gives {x : Action ε σ α} {a : α} (h : Runs x s a t) (ht : P t) : Gives x s (.ok a) P :=
  ⟨h.answer_eq, by rwa [h.after_eq]⟩

theorem gives_pure {a : α} (h : P s) : Gives (pure a : Action ε σ α) s (.ok a) P := ⟨rfl, h⟩

theorem gives_throw {halt : Halt ε} (h : P s) : Gives (throw halt : Action ε σ α) s (.error halt) P := ⟨rfl, h⟩

theorem Gives.mono {x : Action ε σ α} {r : Except (Halt ε) α} (h : Gives x s r P) (hPQ : ∀ t, P t → Q t) :
    Gives x s r Q := h.imp_right (hPQ _)

theorem gives_throw_bind {halt : Halt ε} {f : α → Action ε σ β} (h : P s) :
    Gives (throw halt >>= f) s (.error halt) P := ⟨rfl, h⟩

theorem gives_ofExcept (r : Except ε α) (h : P s) : Gives (ofExcept r) s (r.mapError .failed) P := by
  cases r with
  | ok a => exact gives_pure h
  | error e => exact gives_throw h

theorem Runs.gives_bind {x : Action ε σ α} {f : α → Action ε σ β} {a : α} {r : Except (Halt ε) β} (hx : Runs x s a t)
    (hf : Gives (f a) t r P) : Gives (x >>= f) s r P := by
  unfold Gives answer after at hf ⊢
  rwa [hx.bind_eq f]

theorem Gives.bind_ok {x : Action ε σ α} {f : α → Action ε σ β} {a : α} {r : Except (Halt ε) β}
    (hx : Gives x s (.ok a) P) (hf : ∀ t, P t → Gives (f a) t r Q) : Gives (x >>= f) s r Q := by
  obtain ⟨t, hrun⟩ := exists_runs_of_answer hx.1
  exact hrun.gives_bind (hf t (hrun.after_eq ▸ hx.2))

theorem Gives.bind_error {x : Action ε σ α} {halt : Halt ε} (hx : Gives x s (.error halt) P)
    (f : α → Action ε σ β) : Gives (x >>= f) s (.error halt) P := by
  obtain ⟨t, hP, hrun⟩ := gives_iff.mp hx
  refine gives_iff.mpr ⟨t, hP, ?_⟩
  rw [bind_apply, hrun]
  rfl

/-- A computation in two parts ends where one of them fails, and else with the outcome of the second one. -/
theorem Gives.bind {x : Action ε σ α} {f : α → Action ε σ β} {r : Except (Halt ε) α} {g : α → Except (Halt ε) β}
    (hx : Gives x s r P) (hfailed : ∀ t, P t → Q t) (hf : ∀ a t, r = .ok a → P t → Gives (f a) t (g a) Q) :
    Gives (x >>= f) s (r >>= g) Q := by
  cases r with
  | ok a => exact hx.bind_ok fun t ht => hf a t rfl ht
  | error halt => exact (hx.bind_error f).imp_right (hfailed _)

theorem Gives.mapError {x : Action ε σ α} {r : Except (Halt ε) α} (hx : Gives x s r P) (f : ε → ε') :
    Gives (mapError f x) s (r.mapError (.map f)) P := by
  obtain ⟨t, hP, hrun⟩ := gives_iff.mp hx
  refine gives_iff.mpr ⟨t, hP, ?_⟩
  unfold Action.mapError
  rw [hrun]
  cases r with
  | ok a => rfl
  | error halt => cases halt <;> rfl

theorem Gives.zoom {τ : Type} {get : σ → τ} {set : τ → σ → σ} {x : Action ε τ α} {r : Except (Halt ε) α}
    {P : τ → Prop} (hx : Gives x (get s) r P) : Gives (zoom get set x) s r fun t => ∃ u, P u ∧ t = set u s := by
  obtain ⟨u, hP, hrun⟩ := gives_iff.mp hx
  refine gives_iff.mpr ⟨set u s, ⟨u, hP, rfl⟩, ?_⟩
  unfold Action.zoom
  rw [hrun]
  cases r <;> rfl

/-- A failure as a value; other reasons to stop are none. -/
def attempted : Except (Halt ε) α → Except (Halt ε) (Except ε α)
  | .ok a => .ok (.ok a)
  | .error (.failed e) => .ok (.error e)
  | .error .aborted => .error .aborted
  | .error .endless => .error .endless

theorem Gives.attempt {x : Action ε σ α} {r : Except (Halt ε) α} (hx : Gives x s r P) :
    Gives (attempt x) s (attempted r) P := by
  obtain ⟨t, hP, hrun⟩ := gives_iff.mp hx
  refine gives_iff.mpr ⟨t, hP, ?_⟩
  unfold Action.attempt
  rw [hrun]
  cases r with
  | ok a => rfl
  | error halt => cases halt <;> rfl

end Action

open PagedIndex.Action

/-! ## What the image says -/

namespace Image

variable {K I : Type} (image : Image)

/-- Reading and decoding what lies at a name; a failure carries the name. -/
def fetch [Codec K] [Codec I] (ref : PageRef) : Except (Halt IndexError) (Page K I) := do
  let stored ← (image.page ref.id).mapError (.map (.persistence ref))
  let (node, measures) ← stored.decode.mapError (.map (.persistence ref))
  return { ref, measures, node }

/-- What a pager answers that is asked for a page. -/
def resolved [Codec K] [Codec I] (life : Lifecycle) (ref : PageRef) : Except (Halt IndexError) (Page K I) := do
  life.requireReady.mapError .failed
  if !ref.isDefined then
    throw (.failed (.corruption ref .reservedRef))
  image.fetch ref

/-- What a pager answers that is to be started. -/
def started (life : Lifecycle) : Except (Halt IndexError) Descriptor := do
  let _ ← life.start.mapError .failed
  let (descriptor, _) ← image.descriptor.mapError (.map (.persistence .descriptor))
  return descriptor

/-- How far a pager has come that was to be started. -/
def lifeAfterStart (life : Lifecycle) : Lifecycle :=
  match life, image.descriptor with
  | .fresh, .ok _ => .ready
  | life, _ => life

/-- The filter of a pager: it is there as long as the pager serves. -/
def filterIn (life : Lifecycle) : Option BloomFilter :=
  match life, image.descriptor with
  | .ready, .ok (_, filter) => filter
  | _, _ => none

/-- What a pager answers that is asked about a key. -/
def admits [HashInput K] (life : Lifecycle) (key : K) : Bool := (image.filterIn life).all (·.contains key)

variable [Codec K] [Codec I] {image} {ref : PageRef} {page : Page K I}

theorem fetch_eq_ok (hd : ref.isDefined) : image.fetch ref = .ok page ↔ image.page? ref = some page := by
  unfold fetch page?
  rw [if_pos hd]
  cases image.page ref.id with
  | error halt => simp [bind, Except.bind, Except.mapError]
  | ok stored =>
    show (do
      let (node, measures) ← stored.decode.mapError (.map (.persistence ref))
      return { ref, measures, node } : Except (Halt IndexError) (Page K I)) = .ok page ↔ _
    dsimp only
    cases (stored.decode : Except (Halt IoError) (Node K I × List Int64)) with
    | error halt => simp [bind, Except.bind, Except.mapError]
    | ok read => exact ⟨fun h => congrArg some (Except.ok.inj h), fun h => congrArg Except.ok (Option.some.inj h)⟩

end Image

/-! ## The store -/

variable {K I : Type} [Codec K] [Codec I] {image : Image} {capacity : Nat} {life : Lifecycle}

/-- The store lies over the image and has come so far; what its cache keeps is what lies there, and not more than the
capacity allows. -/
structure Imaged.Stands (image : Image) (capacity : Nat) (life : Lifecycle) (store : Imaged K I) : Prop where
  lies : store.image = if life = .disposed then none else some image
  stage : store.life = life
  filter : store.filter = image.filterIn life
  capacity : store.cache.capacity = capacity
  bounded : store.cache.Bounded
  kept : ∀ ref page, store.cache.entries.get? ref = some page → image.page? ref = some page

namespace Imaged

variable {store : Imaged K I} {ref : PageRef} {page : Page K I}

theorem stands_ofImage (image : Image) (capacity : Nat) :
    (ofImage image capacity : Imaged K I).Stands image capacity .fresh :=
  ⟨rfl, rfl, rfl, rfl, PageCache.bounded_ofCapacity capacity, fun _ _ h => absurd h (by simp [ofImage,
    PageCache.ofCapacity, EmptyCollection.emptyCollection])⟩

/-- Whatever is counted, the store stands as before. -/
theorem Stands.count (h : store.Stands image capacity life) (counters : Counters) :
    Stands image capacity life ⟨store.image,
      ⟨store.cache.capacity, store.cache.entries, store.cache.order, counters⟩, store.filter, store.life⟩ :=
  ⟨h.lies, h.stage, h.filter, h.capacity, h.bounded.count counters, h.kept⟩

omit [Codec K] [Codec I] in
theorem gives_reading {α : Type} (ref : PageRef) (result : Except (Halt IoError) α) {P : Imaged K I → Prop}
    (h : P store) : Gives (reading ref result) store (result.mapError (.map (.persistence ref))) P := by
  refine Gives.mapError ?_ (IndexError.persistence ref)
  cases result with
  | ok a => exact gives_pure h
  | error halt => exact gives_throw h

theorem Stands.source_runs (h : store.Stands image capacity life) (hlife : life ≠ .disposed) :
    Runs source store image store := by
  unfold source
  refine (runs_get store).bind ?_
  rw [h.lies, if_neg hlife]
  exact runs_pure image store

/-- A page that lies in the image is taken into the cache, which may hold it already. -/
theorem Stands.insert (h : store.Stands image capacity life) (hpage : image.page? ref = some page) :
    (store.cache.insert ref page).1 = page
      ∧ { store with cache := (store.cache.insert ref page).2.2 }.Stands image capacity life := by
  obtain ⟨hvalue, hentries⟩ := store.cache.insert_cases ref page
  refine ⟨?_, h.lies, h.stage, h.filter, (PageCache.capacity_insert ..).trans h.capacity, h.bounded.insert ref page,
    fun r v hv => ?_⟩
  · -- a page that is kept already is the page that lies there
    obtain heq | hpresent := hvalue
    · exact heq
    · exact Option.some.inj ((h.kept _ _ hpresent).symm.trans hpage)
  · obtain ⟨rfl, rfl⟩ | hold := hentries r v hv
    · exact hpage
    · exact h.kept r v hold

theorem Stands.load_gives (h : store.Stands image capacity life) (hlife : life ≠ .disposed) (hd : ref.isDefined) :
    Gives (load ref) store (image.fetch ref) (Stands image capacity life) := by
  unfold load Image.fetch
  refine (h.source_runs hlife).gives_bind ?_
  refine (gives_reading ref (image.page ref.id) (P := (store = ·)) rfl).bind (fun _ ht => ht ▸ h) ?_
  rintro stored _ hstored rfl
  have hread := h.count store.cache.counters.countRead
  refine (runs_modify _ store).gives_bind ?_
  dsimp only
  refine (gives_reading ref stored.decode rfl).bind (fun _ ht => ht ▸ hread) ?_
  rintro ⟨node, measures⟩ _ hdecode rfl
  refine (runs_get _).gives_bind ?_
  -- what was decoded is the page that lies there, so it may be kept
  have hpage : image.page? ref = some (⟨ref, measures, node⟩ : Page K I) := Image.page?_eq_some.mpr
    ⟨rfl, hd, stored, Except.mapError_eq_ok.mp hstored, Except.mapError_eq_ok.mp hdecode⟩
  obtain ⟨hanswer, hinsert⟩ := hread.insert hpage
  generalize PageCache.insert _ ref _ = out at hanswer hinsert ⊢
  obtain ⟨answer, gone, cache⟩ := out
  subst hanswer
  exact (runs_set _ _).gives_bind (gives_pure hinsert)

/-- Asked for a page, a store answers what the image says, whether its cache holds the page or not. -/
theorem Stands.resolve_gives (h : store.Stands image capacity life) (ref : PageRef) :
    Gives (resolve ref) store (image.resolved life ref) (Stands image capacity life) := by
  unfold resolve Image.resolved
  refine (runs_get store).gives_bind ?_
  obtain rfl := h.stage
  refine (gives_ofExcept store.life.requireReady (P := (store = ·)) rfl).bind (fun _ ht => ht ▸ h) ?_
  rintro ⟨⟩ _ hready rfl
  by_cases hd : (!ref.isDefined) = true
  · rw [if_pos hd, if_pos hd]
    exact gives_throw_bind h
  rw [if_neg hd, if_neg hd]
  have hdefined : ref.isDefined := by simpa using hd
  have hlife : store.life ≠ .disposed := by
    intro hdisposed
    rw [hdisposed] at hready
    exact absurd hready (by simp [Lifecycle.requireReady, Except.mapError])
  cases hkept : store.cache.entries.get? ref with
  | some page =>
    -- what is kept is what would be read
    rw [PageCache.get_of_kept hkept, (Image.fetch_eq_ok hdefined).mpr (h.kept ref page hkept)]
    exact (runs_set store _).gives_bind (gives_pure (h.count _))
  | none =>
    rw [PageCache.get_of_missing hkept]
    exact (runs_set store _).gives_bind ((h.count _).load_gives hlife hdefined)

/-- To be started, a store reads the descriptor; it stays as it is if it cannot. -/
theorem Stands.start_gives (h : store.Stands image capacity life) :
    Gives start store (image.started life) (Stands image capacity (image.lifeAfterStart life)) := by
  unfold start Image.started
  refine (runs_get store).gives_bind ?_
  obtain rfl := h.stage
  cases hlife : store.life with
  | ready =>
    rw [hlife] at h
    exact gives_throw_bind h
  | disposed =>
    rw [hlife] at h
    exact gives_throw_bind h
  | fresh =>
    have hsource := h.source_runs (by simp [hlife])
    rw [hlife] at h
    refine (runs_ofExcept (r := Lifecycle.fresh.start) rfl store).gives_bind (hsource.gives_bind ?_)
    show Gives _ store (image.descriptor.mapError (Halt.map (IndexError.persistence .descriptor))
      >>= fun read => .ok read.1) _
    unfold Image.lifeAfterStart
    -- the store changes only after everything has been read
    cases hdescriptor : image.descriptor with
    | error halt =>
      exact (gives_reading .descriptor (.error halt) h).bind (fun _ ht => ht) fun _ _ hr => absurd hr (by simp
        [Except.mapError])
    | ok read =>
      obtain ⟨descriptor, filter⟩ := read
      refine (runs_reading rfl .descriptor store).gives_bind ?_
      refine (runs_modify _ store).gives_bind (gives_pure ?_)
      have hfilter : filter = image.filterIn .ready := by
        unfold Image.filterIn
        rw [hdescriptor]
      exact ⟨h.lies, rfl, hfilter, h.capacity, h.bounded, h.kept⟩

/-- Asked about a key, a store answers what the filter of the image says. -/
theorem Stands.mightContain_gives [HashInput K] (h : store.Stands image capacity life) (key : K) :
    Gives (mightContain key) store (.ok (image.admits life key)) (Stands image capacity life) := by
  unfold mightContain Image.admits
  refine (runs_get store).gives_bind ?_
  have hcount := h.count store.cache.counters.countRejection
  rw [← h.filter]
  cases hfilter : store.filter with
  | none => exact gives_pure h
  | some filter =>
    rw [hfilter] at hcount
    dsimp only
    rw [Option.all_some]
    split
    · rename_i hmay
      rw [hmay]
      exact gives_pure h
    · rename_i hmay
      rw [Bool.eq_false_iff.mpr hmay]
      exact (runs_set _ _).gives_bind (gives_pure hcount)

theorem Stands.dispose (h : store.Stands image capacity life) : store.dispose.Stands image capacity .disposed :=
  ⟨rfl, rfl, rfl, h.capacity, h.bounded.clear, fun _ _ hkept => absurd hkept (by
    simp [Imaged.dispose, PageCache.clear, EmptyCollection.emptyCollection])⟩

end Imaged

/-! ## The pager -/

/-- The pager lies over the image and has come so far; nothing is refused in front of it. -/
structure Pager.Stands (image : Image) (capacity : Nat) (life : Lifecycle) (pager : Pager K I) : Prop where
  gate : pager.gate = .wide
  preset : pager.preset = none
  backing : ∃ store, pager.backing = .imaged store ∧ store.Stands image capacity life

namespace Pager

variable {pager : Pager K I} {ref : PageRef} {page : Page K I}

theorem stands_ofImage (image : Image) (capacity : Nat) :
    (ofImage image capacity : Pager K I).Stands image capacity .fresh :=
  ⟨rfl, rfl, _, rfl, Imaged.stands_ofImage image capacity⟩

/-- What the store answers, the pager answers. -/
theorem Stands.serve_gives {α : Type} {r : Except (Halt IndexError) α} {life' : Lifecycle}
    (h : pager.Stands image capacity life) (x : Action IndexError (Resident K I) α)
    {y : Action IndexError (Imaged K I) α}
    (hy : ∀ store : Imaged K I, store.Stands image capacity life →
      Gives y store r (Imaged.Stands image capacity life')) :
    Gives (serve x y) pager r (Stands image capacity life') := by
  obtain ⟨store, hb, hstore⟩ := h.backing
  obtain ⟨store', hstands, hrun⟩ := gives_iff.mp (hy store hstore)
  refine gives_iff.mpr ⟨{ pager with backing := .imaged store' }, ⟨h.gate, h.preset, store', rfl, hstands⟩, ?_⟩
  unfold serve
  rw [hb]
  dsimp only
  rw [hrun]
  cases r <;> rfl

theorem Stands.resolve_gives (h : pager.Stands image capacity life) (ref : PageRef) :
    Gives (Pager.resolve ref) pager (image.resolved life ref) (Stands image capacity life) := by
  unfold Pager.resolve
  exact (pass_always (by rw [h.gate]; rfl)).gives_bind (h.serve_gives _ fun _ hs => hs.resolve_gives ref)

theorem Stands.start_gives (h : pager.Stands image capacity life) : Gives Pager.start pager
    (do return some (← image.started life)) (Stands image capacity (image.lifeAfterStart life)) := by
  unfold Pager.start
  refine (runs_get pager).gives_bind ?_
  rw [h.preset]
  exact h.serve_gives _ fun _ hs => hs.start_gives.bind (fun _ ht => ht) fun _ _ _ ht => gives_pure ht

theorem Stands.mightContain_gives [HashInput K] (h : pager.Stands image capacity life) (key : K) :
    Gives (Pager.mightContain key) pager (.ok (image.admits life key)) (Stands image capacity life) :=
  h.serve_gives _ fun _ hs => hs.mightContain_gives key

theorem Stands.dispose (h : pager.Stands image capacity life) : pager.dispose.Stands image capacity .disposed := by
  obtain ⟨store, hb, hstore⟩ := h.backing
  unfold Pager.dispose
  rw [hb]
  exact ⟨h.gate, h.preset, _, rfl, hstore.dispose⟩

/-- How long walks may be is settled by the image, too. -/
theorem Stands.walkLimit_eq (h : pager.Stands image capacity life) :
    pager.walkLimit = (if life = .disposed then 0 else image.bytes.length) + 2 := by
  obtain ⟨store, hb, hstore⟩ := h.backing
  unfold Pager.walkLimit
  rw [hb, h.gate]
  dsimp only
  rw [hstore.lies]
  split <;> rfl

end Pager

/-! ## Calls -/

/-- A call to a pager that only reads, by the type of its answer. -/
inductive Request (K I : Type) : Type → Type where
  | start : Request K I (Option Descriptor)
  | resolve (ref : PageRef) : Request K I (Page K I)
  | mightContain (key : K) : Request K I Bool
  | dispose : Request K I Unit

section

variable {K I α : Type}

/-- Makes the call. -/
def Request.perform [IndexKey K] [Codec I] : Request K I α → Paging K I α
  | start => Pager.start
  | resolve ref => Pager.resolve ref
  | mightContain key => Pager.mightContain key
  | dispose => modify Pager.dispose

/-- Whether the call lets the image go. -/
def Request.disposes : Request K I α → Bool
  | dispose => true
  | _ => false

/-- The pager behind some calls, whatever became of each. -/
def Pager.afterEach {F : Type → Type} (pager : Pager K I) (perform : ∀ {α : Type}, F α → Paging K I α) :
    List (Σ α, F α) → Pager K I
  | [] => pager
  | call :: calls => afterEach ((perform call.2).after pager) perform calls

namespace Pager

variable [IndexKey K] [Codec I] {image : Image} {capacity : Nat} {life : Lifecycle} {pager : Pager K I}

/-- How far a pager has come after a call. -/
def lifeAfter (image : Image) (life : Lifecycle) : Request K I α → Lifecycle
  | .start => image.lifeAfterStart life
  | .dispose => .disposed
  | _ => life

/-- However a call ends, the pager stands as the image and the calls so far say. -/
theorem Stands.perform (h : pager.Stands image capacity life) (request : Request K I α) :
    (request.perform.after pager).Stands image capacity (lifeAfter image life request) := by
  cases request with
  | start => exact h.start_gives.2
  | resolve ref => exact (h.resolve_gives ref).2
  | mightContain key => exact (h.mightContain_gives key).2
  | dispose => exact h.dispose

end Pager

end

end PagedIndex
