import PagedIndex.Proofs.Reading
import PagedIndex.Proofs.Schedules
import Mathlib.Algebra.Group.Nat.Defs
import Mathlib.Data.List.Nodup
import Mathlib.Data.List.Perm.Subperm

/-!
# Pages in memory

A pager over pages in memory serves what it holds and, however its gate refuses calls, reading leaves all of
it as it was (`Pager.Still`): that makes it a service. A pager is `Ready` when it has been started and all
pages it holds have numbers below the one it will give next; new pages are then new.
-/

namespace PagedIndex

/-! ## Tables -/

namespace Table

variable {α β : Type} [DecidableEq α]

theorem mem_of_get? {t : Table α β} {a : α} {b : β} (h : t.get? a = some b) : (a, b) ∈ t.bindings := by
  obtain ⟨l⟩ := t
  unfold get? at h
  dsimp only at h ⊢
  induction l with
  | nil => exact absurd h (by simp [lookup])
  | cons binding l ih =>
    rw [lookup] at h
    split at h
    · rename_i heq
      rw [← heq, ← Option.some.inj h]
      exact List.mem_cons_self
    · exact List.mem_cons_of_mem _ (ih h)

theorem mem_keys_of_get? {t : Table α β} {a : α} (h : (t.get? a).isSome) : a ∈ t.keys := by
  obtain ⟨b, hb⟩ := Option.isSome_iff_exists.mp h
  exact List.mem_map_of_mem (mem_of_get? hb)

/-- A table has at least as many bindings as names that are bound. -/
theorem length_le_size {t : Table α β} {as : List α} (hn : as.Nodup) (h : ∀ a ∈ as, (t.get? a).isSome) :
    as.length ≤ t.size := by
  have hsub : as ⊆ t.keys := fun a ha => mem_keys_of_get? (h a ha)
  have := (List.subperm_of_subset hn hsub).length_le
  rwa [keys, List.length_map] at this

end Table

/-- Only the two greatest numbers are kept for other uses. -/
theorem PageRef.isDefined_of_lt {r : PageRef} (h : r.id.toNat < 2 ^ 64 - 2) : r.isDefined := by
  have hundefined : r ≠ .undefined := by
    rintro rfl
    have : PageRef.undefined.id.toNat = 2 ^ 64 - 1 := by decide
    omega
  have hdescriptor : r ≠ .descriptor := by
    rintro rfl
    have : PageRef.descriptor.id.toNat = 2 ^ 64 - 2 := by decide
    omega
  simp [isDefined, hundefined, hdescriptor]

/-- There are no more pages than numbers that they may have. -/
theorem PageRef.length_le {refs : List PageRef} (hnd : refs.Nodup) {bound : Nat}
    (h : ∀ r ∈ refs, r.id.toNat < bound) : refs.length ≤ bound := by
  have hinj : Function.Injective fun r : PageRef => r.id.toNat := by
    rintro ⟨a⟩ ⟨b⟩ hab
    exact congrArg PageRef.mk (UInt64.toNat_inj.mp hab)
  have hsub : refs.map (fun r => r.id.toNat) ⊆ List.range bound := by
    intro n hn
    obtain ⟨r, hr, rfl⟩ := List.mem_map.mp hn
    exact List.mem_range.mpr (h r hr)
  have := (List.subperm_of_subset (hnd.map hinj) hsub).length_le
  rwa [List.length_map, List.length_range] at this

namespace Pager

variable {K I : Type}

/-! ## What reading leaves -/

/-- The second pager is the first after some reading: what it counted may differ, and how the calls to come
are answered unless all are let through. -/
inductive Still (pager : Pager K I) : Pager K I → Prop where
  | mk {store : Resident K I} (counters : Counters) (schedule : Schedule) :
    pager.backing = .resident store → (pager.gate.resolve = .always → schedule = .always) →
    Still pager { pager with
      backing := .resident { store with counters }, gate := { pager.gate with resolve := schedule } }

theorem Still.refl {pager : Pager K I} {store : Resident K I} (h : pager.backing = .resident store) :
    pager.Still pager := by
  have := Still.mk store.counters pager.gate.resolve h id
  obtain ⟨backing, gate, preset⟩ := pager
  subst h
  exact this

theorem Still.page? {p q : Pager K I} (h : p.Still q) : q.page? = p.page? := by
  cases h with
  | mk counters schedule hb _ =>
    funext ref
    simp only [Pager.page?, hb]

theorem Still.pageCount {p q : Pager K I} (h : p.Still q) : q.pageCount = p.pageCount := by
  cases h with
  | mk counters schedule hb _ => simp only [Pager.pageCount, hb]

/-- The pager holds pages in memory and serves them. -/
structure Started (pager : Pager K I) (store : Resident K I) : Prop where
  backing : pager.backing = .resident store
  ready : store.life = .ready

/-- A call is let through or refused as the schedule provides, which goes on to the next call. -/
theorem pass_eq (call : Call) (pager : Pager K I) : Pager.pass call pager
    = match (pager.gate.schedule call).next.1 with
      | .granted => .ok () { pager with gate := pager.gate.setSchedule call (pager.gate.schedule call).next.2 }
      | .refused reason => .error (.failed (.io (.callRefused call reason)))
          { pager with gate := pager.gate.setSchedule call (pager.gate.schedule call).next.2 } := by
  unfold Pager.pass Action.zoom Gate.pass
  simp only [Action.bind_apply, Action.get_apply, Action.set_apply]
  generalize (pager.gate.schedule call).next = outcome
  obtain ⟨verdict, schedule⟩ := outcome
  cases verdict <;> rfl

/-- A call that the gate lets through. -/
theorem pass_runs {call : Call} {pager : Pager K I} (h : (pager.gate.schedule call).next.1 = .granted) :
    Action.Runs (Pager.pass call) pager ()
      { pager with gate := pager.gate.setSchedule call (pager.gate.schedule call).next.2 } := by
  unfold Action.Runs
  rw [pass_eq, h]

theorem pass_fails {call : Call} {pager : Pager K I} {reason : Nat}
    (h : (pager.gate.schedule call).next.1 = .refused reason) :
    Action.Fails (Pager.pass call) pager (.io (.callRefused call reason))
      { pager with gate := pager.gate.setSchedule call (pager.gate.schedule call).next.2 } := by
  unfold Action.Fails
  rw [pass_eq, h]

/-- A schedule that lets every call through stays as it is. -/
theorem setSchedule_of_always {gate : Gate} {call : Call} (h : gate.schedule call = .always) :
    gate.setSchedule call (gate.schedule call).next.2 = gate := by
  rw [h]
  show gate.setSchedule call .always = gate
  rw [← h]
  cases call <;> rfl

theorem pass_always {call : Call} {pager : Pager K I} (h : pager.gate.schedule call = .always) :
    Action.Runs (Pager.pass call) pager () pager := by
  have hpass : Action.Runs (Pager.pass call) pager () _ := pass_runs (by rw [h]; rfl)
  rwa [setSchedule_of_always h] at hpass

/-- A call that the gate lets through is answered from the pages in memory. -/
theorem call_runs {α : Type} {call : Call} {pager : Pager K I} {store store' : Resident K I}
    (hb : pager.backing = .resident store) (hg : (pager.gate.schedule call).next.1 = .granted)
    {x : Action IndexError (Resident K I) α} {y : Action IndexError (Imaged K I) α} {a : α}
    (h : Action.Runs x store a store') : Action.Runs (do pass call; serve x y) pager a { pager with
      backing := .resident store', gate := pager.gate.setSchedule call (pager.gate.schedule call).next.2 } := by
  refine (pass_runs hg).bind ?_
  unfold Action.Runs serve
  dsimp only
  rw [hb]
  dsimp only
  rw [show x store = _ from h]

theorem of_serve_resident_runs {α : Type} {pager pager' : Pager K I} {store : Resident K I}
    (hb : pager.backing = .resident store) {x : Action IndexError (Resident K I) α}
    {y : Action IndexError (Imaged K I) α} {a : α} (h : Action.Runs (serve x y) pager a pager') :
    ∃ store', Action.Runs x store a store' := by
  unfold Action.Runs serve at h
  rw [hb] at h
  dsimp only at h
  split at h
  · rename_i b store' hx
    rw [← (EStateM.Result.ok.inj h).1]
    exact ⟨store', hx⟩
  · exact absurd h (by simp)

theorem Resident.requireReady_runs {store : Resident K I} (h : store.life = .ready) :
    Action.Runs Resident.requireReady store () store := by
  unfold Resident.requireReady
  refine (Action.runs_get store).bind (Action.runs_ofExcept ?_ store)
  rw [h]
  rfl

theorem Resident.resolve_runs {store : Resident K I} {ref : PageRef} {page : Page K I}
    (hr : store.life = .ready) (hd : ref.isDefined) (hp : store.pages.get? ref = some page) :
    Action.Runs (Resident.resolve ref) store page { store with counters := store.counters.countHit } := by
  unfold Resident.resolve
  refine (requireReady_runs hr).bind ?_
  rw [if_neg (by simp [hd])]
  refine (Action.runs_get store).bind ?_
  rw [hp]
  exact (Action.runs_set _ _).bind (Action.runs_pure page _)

/-- What is handed out is there, under a name that may be used. -/
theorem Resident.of_resolve_runs {store store' : Resident K I} {ref : PageRef} {page : Page K I}
    (hr : store.life = .ready) (h : Action.Runs (Resident.resolve ref) store page store') :
    ref.isDefined ∧ (store.pages.get? ref).isSome := by
  obtain ⟨_, store₁, hready, hrest⟩ := h.of_bind
  obtain ⟨-, rfl⟩ := (requireReady_runs hr).unique hready
  obtain ⟨hd, hrest⟩ := Action.Runs.of_check hrest
  refine ⟨by simpa using hd, ?_⟩
  obtain ⟨_, _, hget, hmatch⟩ := hrest.of_bind
  obtain ⟨rfl, rfl⟩ := (Action.runs_get store).unique hget
  split at hmatch
  · rename_i hfound
    rw [hfound]
    rfl
  · exact absurd hmatch Action.not_runs_fail

theorem Still.trans {p q r : Pager K I} (h : p.Still q) (h' : q.Still r) : p.Still r := by
  cases h with
  | @mk store counters schedule hb hg =>
    cases h' with
    | @mk store' counters' schedule' hb' hg' =>
      obtain rfl : { store with counters } = store' := Backing.resident.inj hb'
      exact @Still.mk _ _ p store counters' schedule' hb fun ha => hg' (hg ha)

/-- After `n` pages were read, none of which was refused. -/
structure Read (n : Nat) (p q : Pager K I) : Prop where
  still : p.Still q
  grants : p.gate.resolve.Grants n
  gate : q.gate = { p.gate with resolve := p.gate.resolve.drop n }
  hits : q.counters.hits = p.counters.hits + n

/-- After `n` pages were read and the next one was refused for this reason. -/
structure Barred (n reason : Nat) (p q : Pager K I) : Prop where
  still : p.Still q
  bars : p.gate.resolve.Bars n reason
  gate : q.gate = { p.gate with resolve := p.gate.resolve.drop (n + 1) }
  hits : q.counters.hits = p.counters.hits + n

theorem Read.refl {p : Pager K I} {store : Resident K I} (h : p.backing = .resident store) : Read 0 p p :=
  ⟨.refl h, Schedule.grants_zero _, rfl, rfl⟩

theorem Read.trans {m n : Nat} {p q r : Pager K I} (h : Read m p q) (h' : Read n q r) : Read (m + n) p r where
  still := h.still.trans h'.still
  grants := Schedule.grants_add.mpr ⟨h.grants, by have := h'.grants; rwa [h.gate] at this⟩
  gate := by rw [h'.gate, h.gate, Schedule.drop_add]
  hits := by rw [h'.hits, h.hits, Nat.add_assoc]

theorem Read.barred {m n reason : Nat} {p q r : Pager K I} (h : Read m p q) (h' : Barred n reason q r) :
    Barred (m + n) reason p r where
  still := h.still.trans h'.still
  bars := h.grants.bars (by have := h'.bars; rwa [h.gate] at this)
  gate := by rw [h'.gate, h.gate, Nat.add_assoc, Schedule.drop_add m (n + 1)]
  hits := by rw [h'.hits, h.hits, Nat.add_assoc]

theorem Barred.not_always {n reason : Nat} {p q : Pager K I} (h : Barred n reason p q) :
    p.gate.resolve ≠ .always :=
  fun ha => Schedule.not_bars_always n reason (ha ▸ h.bars)

/-- Reading a page that is held. -/
theorem Started.served [Codec K] [Codec I] {p : Pager K I} {store : Resident K I} (hs : p.Started store)
    {ref : PageRef} (hd : ref.isDefined) {page : Page K I} (hpage : p.page? ref = some page) :
    Served (Read 1 p) (fun e q => ∃ reason, e = .io (.callRefused .resolve reason) ∧ Barred 0 reason p q)
      (· = page) (Pager.resolve ref p) := by
  -- the page is there, so it depends on the gate alone whether it is handed out
  have hget : store.pages.get? ref = some page := by
    rw [← hpage, Pager.page?, hs.backing]
  have hcount : p.counters = store.counters := by rw [Pager.counters, hs.backing]
  cases hn : p.gate.resolve.next.1 with
  | granted =>
    have hrun : Action.Runs (Pager.resolve ref) p page _ :=
      call_runs hs.backing (by exact hn) (Resident.resolve_runs hs.ready hd hget)
    rw [show Pager.resolve ref p = _ from hrun]
    refine ⟨⟨?_, ?_, rfl, ?_⟩, rfl⟩
    · refine @Still.mk _ _ p store store.counters.countHit p.gate.resolve.next.2 hs.backing fun ha => ?_
      rw [ha]
      rfl
    · exact (Schedule.grants_zero _).succ hn
    · rw [hcount]
      rfl
  | refused reason =>
    have hfail : Action.Fails (Pager.resolve ref) p _ _ := (pass_fails (by exact hn)).bind _
    rw [show Pager.resolve ref p = _ from hfail]
    have hstill := @Still.mk _ _ p store store.counters p.gate.resolve.next.2 hs.backing fun ha => by
      rw [ha] at hn
      exact absurd hn (by simp [Schedule.always, Schedule.next, Schedule.nextRun])
    rw [show ({ store with counters := store.counters } : Resident K I) = store from rfl, ← hs.backing] at hstill
    exact ⟨reason, rfl, hstill, ⟨Schedule.grants_zero _, hn⟩, rfl, rfl⟩

/-! ## New pages -/

/-- The number of the page that is created next. -/
def next (pager : Pager K I) : UInt64 :=
  match pager.backing with
  | .resident store => store.next
  | .imaged _ => 0

/-- The pager has been started, and the pages it holds are kept under their own names and have numbers below
the next one. -/
structure Ready (pager : Pager K I) : Prop where
  started : ∃ store, pager.Started store
  named : ∀ r page, pager.page? r = some page → page.ref = r
  numbered : ∀ r, (pager.page? r).isSome → r.id.toNat < pager.next.toNat

theorem Ready.isDefined {pager : Pager K I} (h : pager.Ready) (hn : pager.next.toNat ≤ 2 ^ 64 - 2)
    (r : PageRef) (hr : (pager.page? r).isSome) : r.isDefined :=
  PageRef.isDefined_of_lt (Nat.lt_of_lt_of_le (h.numbered r hr) hn)

theorem Ready.isWritable {pager : Pager K I} (h : pager.Ready) : pager.isWritable = true := by
  obtain ⟨store, hs⟩ := h.started
  simp only [Pager.isWritable, hs.backing]

/-- The gate has no part in this. -/
theorem Ready.behind {pager : Pager K I} (h : pager.Ready) (gate : Gate) : ({ pager with gate } : Pager K I).Ready := by
  obtain ⟨store, hs⟩ := h.started
  exact ⟨⟨store, hs.backing, hs.ready⟩, h.named, h.numbered⟩

theorem Still.ready {p q : Pager K I} (h : p.Still q) (hp : p.Ready) : q.Ready := by
  have hpage := h.page?
  cases h with
  | @mk store counters schedule hb hg =>
    obtain ⟨store', hs⟩ := hp.started
    obtain rfl : store' = store := Backing.resident.inj (hs.backing.symm.trans hb)
    refine ⟨⟨_, rfl, hs.ready⟩, fun r page hr => hp.named r page (by rwa [hpage] at hr), fun r hr => ?_⟩
    have := hp.numbered r (by rwa [hpage] at hr)
    rwa [next, hb] at this

theorem Still.next {p q : Pager K I} (h : p.Still q) : q.next = p.next := by
  cases h with
  | mk counters schedule hb _ => simp only [Pager.next, hb]

/-- From the first pager to the second these calls were made and were answered as the gate of the first one
provides; those that went through show in what the pager counts and in the number of the next page. -/
structure Called (calls : Calls) (p q : Pager K I) : Prop where
  gate : q.gate = p.gate.drop calls
  hits : q.counters.hits = p.counters.hits + (p.gate.resolve.answers calls.resolve).count .granted
  next : q.next.toNat = p.next.toNat + (p.gate.create.answers calls.create).count .granted

theorem Called.trans {a b : Calls} {p q r : Pager K I} (h : Called a p q) (h' : Called b q r) :
    Called ⟨a.resolve + b.resolve, a.create + b.create, a.release + b.release⟩ p r where
  gate := by
    rw [h'.gate, h.gate]
    simp only [Gate.drop, Schedule.drop_add]
  hits := by
    rw [h'.hits, h.hits, h.gate, Schedule.answers_add, List.count_append, Nat.add_assoc]
    rfl
  next := by
    rw [h'.next, h.next, h.gate, Schedule.answers_add, List.count_append, Nat.add_assoc]
    rfl

/-- A gate that refuses nothing stays as it is. -/
theorem Called.wide {calls : Calls} {p q : Pager K I} (h : Called calls p q) (hg : p.gate = .wide) :
    q.gate = .wide := by
  rw [h.gate, hg, Gate.drop_wide]

theorem Read.called {n : Nat} {p q : Pager K I} (h : Read n p q) : Called ⟨n, 0, 0⟩ p q where
  gate := h.gate
  hits := by rw [h.hits, h.grants.count]
  next := by rw [h.still.next]; rfl

theorem Barred.called {n reason : Nat} {p q : Pager K I} (h : Barred n reason p q) : Called ⟨n + 1, 0, 0⟩ p q where
  gate := h.gate
  hits := by rw [h.hits, h.bars.count]
  next := by rw [h.still.next]; rfl

/-- The second pager has pages that the first one does not have, and all of its pages as they were. -/
structure Grown (news : List PageRef) (p q : Pager K I) : Prop where
  ready : q.Ready
  next : q.next.toNat = p.next.toNat + news.length
  nodup : news.Nodup
  fresh : ∀ r ∈ news, p.page? r = none
  live : ∀ r ∈ news, (q.page? r).isSome
  frame : ∀ r ∉ news, q.page? r = p.page? r

theorem Grown.refl {p : Pager K I} (h : p.Ready) : Grown [] p p :=
  ⟨h, rfl, List.nodup_nil, by simp, by simp, fun _ _ => rfl⟩

theorem Grown.trans {as bs : List PageRef} {p q s : Pager K I} (h : Grown as p q) (h' : Grown bs q s) :
    Grown (as ++ bs) p s := by
  -- a page that is new the second time was not there after the first time
  have hdisj : ∀ r ∈ as, r ∉ bs := by
    intro r ha hb
    have := h.live r ha
    rw [h'.fresh r hb] at this
    exact absurd this (by simp)
  refine ⟨h'.ready, ?_, ?_, fun r hr => ?_, fun r hr => ?_, fun r hr => ?_⟩
  · rw [h'.next, h.next, List.length_append, Nat.add_assoc]
  · exact List.nodup_append'.mpr ⟨h.nodup, h'.nodup, fun r ha hb => hdisj r ha hb⟩
  · by_cases ha : r ∈ as
    · exact h.fresh r ha
    · have hb := (List.mem_append.mp hr).resolve_left ha
      rw [← h.frame r ha, h'.fresh r hb]
  · by_cases hb : r ∈ bs
    · exact h'.live r hb
    · rw [h'.frame r hb]
      exact h.live r ((List.mem_append.mp hr).resolve_right hb)
  · rw [List.mem_append, not_or] at hr
    rw [h'.frame r hr.2, h.frame r hr.1]

/-- Where there are no pages, the pager is as it should be. -/
theorem Started.ready_of_empty {p : Pager K I} {store : Resident K I} (hs : p.Started store)
    (hempty : ∀ r, store.pages.get? r = none) : p.Ready := by
  have hpage : ∀ r, p.page? r = none := fun r => by rw [Pager.page?, hs.backing]; exact hempty r
  refine ⟨⟨store, hs⟩, fun r page hr => ?_, fun r hr => ?_⟩
  · rw [hpage] at hr
    exact absurd hr (by simp)
  · rw [hpage] at hr
    exact absurd hr (by simp)

/-- The page that is created next. -/
theorem Started.addNext {p : Pager K I} {store : Resident K I} (hs : p.Started store) (h : p.Ready)
    (hn : p.next.toNat + 1 < 2 ^ 64) (node : Node K I) (measures : List Int64) :
    Grown [⟨p.next⟩] p { p with backing := .resident (store.addNext node measures) }
      ∧ ({ p with backing := .resident (store.addNext node measures) } : Pager K I).page? ⟨p.next⟩
        = some ⟨⟨p.next⟩, measures, node⟩ := by
  have hnext : p.next = store.next := by rw [Pager.next, hs.backing]
  have hpage : ∀ r, p.page? r = store.pages.get? r := fun r => by rw [Pager.page?, hs.backing]
  have hq : ∀ r, ({ p with backing := .resident (store.addNext node measures) } : Pager K I).page? r
      = if ⟨p.next⟩ = r then some ⟨⟨p.next⟩, measures, node⟩ else p.page? r := by
    intro r
    rw [hpage r, hnext]
    exact Table.get?_insert store.pages _ r _
  have hsucc : ({ p with backing := .resident (store.addNext node measures) } : Pager K I).next.toNat
      = p.next.toNat + 1 := by
    show (store.next + 1).toNat = _
    rw [hnext] at hn ⊢
    rw [UInt64.toNat_add]
    exact Nat.mod_eq_of_lt hn
  refine ⟨⟨⟨⟨_, rfl, hs.ready⟩, fun r page hr => ?_, fun r hr => ?_⟩, hsucc,
    List.nodup_singleton _, ?_, ?_, fun r hr => ?_⟩, (hq _).trans (if_pos rfl)⟩
  · rw [hq] at hr
    split at hr
    · rename_i heq
      rw [← Option.some.inj hr, heq]
    · exact h.named r page hr
  · rw [hsucc]
    rw [hq] at hr
    split at hr
    · rename_i heq
      rw [← heq]
      exact Nat.lt_succ_self _
    · exact Nat.lt_succ_of_lt (h.numbered r hr)
  · rw [List.forall_mem_singleton]
    cases hp : p.page? ⟨p.next⟩ with
    | none => rfl
    | some page => exact absurd (h.numbered ⟨p.next⟩ (by rw [hp]; rfl)) (Nat.lt_irrefl _)
  · rw [List.forall_mem_singleton, hq, if_pos rfl]
    rfl
  · rw [hq, if_neg]
    rintro rfl
    exact hr (List.mem_singleton.mpr rfl)

/-- A page is made if the gate lets the call through. -/
theorem create_runs {p : Pager K I} (h : p.Ready) (hg : p.gate.create.next.1 = .granted)
    (hn : p.next.toNat + 1 < 2 ^ 64) (node : Node K I) (measures : List Int64) : ∃ q,
    Action.Runs (Pager.create node measures) p ⟨⟨p.next⟩, measures, node⟩ q ∧ Grown [⟨p.next⟩] p q
      ∧ Called ⟨0, 1, 0⟩ p q ∧ q.page? ⟨p.next⟩ = some ⟨⟨p.next⟩, measures, node⟩ := by
  obtain ⟨store, hs⟩ := h.started
  let p' : Pager K I := { p with gate := { p.gate with create := p.gate.create.next.2 } }
  have hs' : p'.Started store := ⟨hs.backing, hs.ready⟩
  obtain ⟨hgrown, hpage⟩ := hs'.addNext ⟨⟨store, hs'⟩, h.named, h.numbered⟩ hn node measures
  have hcount : (p.gate.create.answers 1).count .granted = 1 := by
    rw [Schedule.answers, hg]
    rfl
  refine ⟨_, ?_, ⟨hgrown.ready, hgrown.next, hgrown.nodup, hgrown.fresh, hgrown.live, hgrown.frame⟩, ?_, hpage⟩
  · have hcreate : Action.Runs (Resident.create node measures) store ⟨⟨store.next⟩, measures, node⟩
        (store.addNext node measures) := (Resident.requireReady_runs hs.ready).bind rfl
    rw [show p.next = store.next by rw [Pager.next, hs.backing]]
    exact call_runs hs.backing (by exact hg) hcreate
  · refine ⟨rfl, ?_, ?_⟩
    · rw [show p.counters = store.counters by rw [Pager.counters, hs.backing]]
      rfl
    · rw [hgrown.next, hcount]
      rfl

theorem create_fails {p : Pager K I} {reason : Nat} (hg : p.gate.create.next.1 = .refused reason)
    (node : Node K I) (measures : List Int64) :
    Action.Fails (Pager.create node measures) p (.io (.callRefused .create reason))
      { p with gate := { p.gate with create := p.gate.create.next.2 } } := (pass_fails (by exact hg)).bind _

/-- Ready-made pages are served, as long as there are fewer of them than numbers. -/
theorem ready_ofNodes {nodes : List (Node K I × List Int64)} (hn : nodes.length < 2 ^ 64)
    (descriptor : Descriptor) : (Pager.ofNodes nodes descriptor).Ready
      ∧ (Pager.ofNodes nodes descriptor).next.toNat = nodes.length := by
  -- the pages are added one by one, so this is shown for any pager to start from
  have key : ∀ (nodes : List (Node K I × List Int64)) (p : Pager K I) (store : Resident K I), p.Started store →
      p.Ready → p.next.toNat + nodes.length < 2 ^ 64 →
      let last := nodes.foldl (fun store node => store.addNext node.1 node.2) store
      let q : Pager K I := { p with backing := .resident last }
      q.Ready ∧ q.next.toNat = p.next.toNat + nodes.length := by
    intro nodes
    induction nodes with
    | nil =>
      intro p store hs hp _
      obtain ⟨backing, gate, preset⟩ := p
      obtain rfl : backing = .resident store := hs.backing
      exact ⟨hp, rfl⟩
    | cons node nodes ih =>
      intro p store hs hp hlt
      rw [List.length_cons] at hlt
      obtain ⟨hgrown, -⟩ := hs.addNext hp (by omega) node.1 node.2
      have hnext := hgrown.next
      rw [List.length_singleton] at hnext
      obtain ⟨hready, hlast⟩ := ih _ (store.addNext node.1 node.2) ⟨rfl, hs.ready⟩ hgrown.ready (by omega)
      refine ⟨hready, hlast.trans ?_⟩
      rw [List.length_cons]
      omega
  let p : Pager K I :=
    ⟨.resident { (Resident.fresh : Resident K I) with life := .ready }, .wide, some descriptor⟩
  have hs : p.Started { (Resident.fresh : Resident K I) with life := .ready } := ⟨rfl, rfl⟩
  have hnext : p.next.toNat = 0 := rfl
  obtain ⟨hready, hlast⟩ := key nodes p _ hs (hs.ready_of_empty fun r => rfl) (by omega)
  exact ⟨hready, hlast.trans (by omega)⟩

/-! ## Pages given up -/

/-- From the first pager to the second these pages were offered for release, in this order: those for which the
gate let the call through are gone, and all others are as they were. -/
structure Offered (refs : List PageRef) (p q : Pager K I) : Prop where
  ready : q.Ready
  called : Called ⟨0, 0, refs.length⟩ p q
  pages : ∀ r, q.page? r
    = if (r, .granted) ∈ refs.zip (p.gate.release.answers refs.length) then none else p.page? r

theorem Offered.frame {refs : List PageRef} {p q : Pager K I} (h : Offered refs p q) {r : PageRef}
    (hr : r ∉ refs) : q.page? r = p.page? r := by
  rw [h.pages, if_neg]
  exact fun hmem => hr (List.of_mem_zip hmem).1

/-- Where no call is refused all of the pages are gone. -/
theorem Offered.gone {refs : List PageRef} {p q : Pager K I} (h : Offered refs p q)
    (hg : p.gate.release.Grants refs.length) {r : PageRef} (hr : r ∈ refs) : q.page? r = none := by
  rw [h.pages, if_pos (hg.mem_zip.mpr hr)]

theorem Offered.nil {p : Pager K I} (h : p.Ready) : Offered [] p p := ⟨h, ⟨rfl, rfl, rfl⟩, fun _ => rfl⟩

theorem Offered.cons {ref : PageRef} {refs : List PageRef} {p q r : Pager K I} (h : Offered [ref] p q)
    (h' : Offered refs q r) : Offered (ref :: refs) p r where
  ready := h'.ready
  called := by
    have := h.called.trans h'.called
    rwa [List.length_singleton, Nat.add_comm 1] at this
  pages := by
    intro n
    have hschedule : q.gate.release = p.gate.release.next.2 := by rw [h.called.gate]; rfl
    have hzip : ∀ rs : List PageRef, (ref :: rs).zip (p.gate.release.answers (ref :: rs).length)
        = (ref, p.gate.release.next.1) :: rs.zip (p.gate.release.next.2.answers rs.length) := fun _ => rfl
    rw [h'.pages, h.pages, hschedule, hzip, hzip, List.zip_nil_left]
    by_cases hn : (n, .granted) ∈ refs.zip (p.gate.release.next.2.answers refs.length)
    · rw [if_pos hn, if_pos (List.mem_cons_of_mem _ hn)]
    · rw [if_neg hn]
      refine if_congr ?_ rfl rfl
      rw [List.mem_cons, List.mem_cons, or_iff_left hn, or_iff_left List.not_mem_nil]

/-- A page is forgotten if the gate lets the call through. -/
theorem release_cases {p : Pager K I} (h : p.Ready) (ref : PageRef) : ∃ q, Offered [ref] p q
    ∧ (p.gate.release.next.1 = .granted ∧ Action.Runs (Pager.release ref) p () q
      ∨ ∃ reason, p.gate.release.next.1 = .refused reason
        ∧ Action.Fails (Pager.release ref) p (.io (.callRefused .release reason)) q) := by
  obtain ⟨store, hs⟩ := h.started
  have hcount : p.counters = store.counters := by rw [Pager.counters, hs.backing]
  have hnext : p.next = store.next := by rw [Pager.next, hs.backing]
  have hpage : ∀ r, p.page? r = store.pages.get? r := fun r => by rw [Pager.page?, hs.backing]
  let p' : Pager K I := { p with gate := { p.gate with release := p.gate.release.next.2 } }
  cases hg : p.gate.release.next.1 with
  | granted =>
    let q : Pager K I := { p' with backing := .resident { store with pages := store.pages.erase ref } }
    have hq : ∀ r, q.page? r = if ref = r then none else p.page? r := fun r => by
      rw [hpage r]
      exact Table.get?_erase store.pages ref r
    refine ⟨q, ⟨⟨⟨_, rfl, hs.ready⟩, fun r page hr => ?_, fun r hr => ?_⟩, ⟨rfl, ?_, ?_⟩, fun r => ?_⟩,
      .inl ⟨rfl, ?_⟩⟩
    · rw [hq] at hr
      split at hr
      · exact absurd hr (by simp)
      · exact h.named r page hr
    · rw [hq] at hr
      split at hr
      · exact absurd hr (by simp)
      · have := h.numbered r hr
        rwa [hnext] at this
    · rw [hcount]
      rfl
    · rw [hnext]
      rfl
    · rw [hq, List.length_singleton, Schedule.answers, Schedule.answers, hg, List.zip_cons_cons,
        List.zip_nil_right]
      simp only [List.mem_singleton, Prod.mk.injEq, and_true]
      exact if_congr eq_comm rfl rfl
    · have hrelease : Action.Runs (Resident.release ref) store () { store with pages := store.pages.erase ref } :=
        (Resident.requireReady_runs hs.ready).bind rfl
      exact call_runs hs.backing (by exact hg) hrelease
  | refused reason =>
    refine ⟨p', ⟨⟨⟨store, hs.backing, hs.ready⟩, h.named, h.numbered⟩, ⟨rfl, rfl, rfl⟩, fun r => ?_⟩,
      .inr ⟨reason, rfl, ?_⟩⟩
    · rw [List.length_singleton, Schedule.answers, Schedule.answers, hg, List.zip_cons_cons, List.zip_nil_right]
      rw [if_neg (by simp)]
      rfl
    · exact (pass_fails (by exact hg)).bind _

/-- Every page is offered, whatever became of those before; if any was refused, the answer is the first refusal. -/
theorem releaseAll_cases (refs : List PageRef) {p : Pager K I} (h : p.Ready) : ∃ q, Offered refs p q
    ∧ (p.gate.release.Grants refs.length ∧ Action.Runs (Pager.releaseAll refs) p () q
      ∨ ∃ i reason, i < refs.length ∧ p.gate.release.Bars i reason
        ∧ Action.Fails (Pager.releaseAll refs) p (.io (.callRefused .release reason)) q) := by
  induction refs generalizing p with
  | nil => exact ⟨p, .nil h, .inl ⟨Schedule.grants_zero _, Action.runs_pure _ _⟩⟩
  | cons ref refs ih =>
    obtain ⟨q, hq, hfirst⟩ := release_cases h ref
    obtain ⟨r, hr, hothers⟩ := ih hq.ready
    have hschedule : q.gate.release = p.gate.release.next.2 := by rw [hq.called.gate]; rfl
    rw [hschedule] at hothers
    refine ⟨r, hq.cons hr, ?_⟩
    rw [Pager.releaseAll]
    -- each page is offered whether or not the one before was refused, and the first refusal is the answer
    rcases hfirst with ⟨hg, hrun⟩ | ⟨reason, hg, hfail⟩
    · rcases hothers with ⟨hgs, hruns⟩ | ⟨i, reason, hi, hbars, hfails⟩
      · refine .inl ⟨List.forall_mem_cons.mpr ⟨hg, hgs⟩, hrun.attempt.bind (hruns.attempt.bind ?_)⟩
        exact (Action.runs_ofExcept rfl _).bind (Action.runs_ofExcept rfl _)
      · refine .inr ⟨i + 1, reason, Nat.succ_lt_succ hi, .succ hg hbars,
          hrun.attempt.fails (hfails.attempt.fails ?_)⟩
        exact (Action.runs_ofExcept rfl _).fails (Action.fails_fail _ _)
    · refine .inr ⟨0, reason, Nat.zero_lt_succ _, ⟨Schedule.grants_zero _, hg⟩, hfail.attempt.fails ?_⟩
      rcases hothers with ⟨-, hruns⟩ | ⟨_, _, -, -, hfails⟩
      · exact hruns.attempt.fails ((Action.fails_fail _ _).bind _)
      · exact hfails.attempt.fails ((Action.fails_fail _ _).bind _)

/-- From the first pager to the second the pages `made` came into being and the pages `gone` ceased to be, and of all
others it is the same ones that are there. -/
structure Turnover (made gone : List PageRef) (p q : Pager K I) : Prop where
  fresh : ∀ r ∈ made, p.page? r = none
  nodup_made : made.Nodup
  nodup_gone : gone.Nodup
  owned : ∀ r ∈ gone, (p.page? r).isSome ∨ r ∈ made
  pages : ∀ r, (q.page? r).isSome ↔ ((p.page? r).isSome ∨ r ∈ made) ∧ r ∉ gone

theorem Grown.turnover {news : List PageRef} {p q : Pager K I} (h : Grown news p q) : Turnover news [] p q where
  fresh := h.fresh
  nodup_made := h.nodup
  nodup_gone := List.nodup_nil
  owned := by simp
  pages r := by
    simp only [List.not_mem_nil, not_false_eq_true, and_true]
    by_cases hr : r ∈ news
    · simp only [h.live r hr, hr, or_true]
    · rw [h.frame r hr, or_iff_left hr]

/-- Which pages are there is all that counts. -/
theorem Turnover.congr {made gone : List PageRef} {p q r : Pager K I} (h : Turnover made gone p q)
    (hr : ∀ n, (r.page? n).isSome = (q.page? n).isSome) : Turnover made gone p r :=
  { h with pages := fun n => by rw [hr, h.pages] }

/-- From the first pager to the second these calls were made, and each page that was made was offered for release
afterwards. -/
structure Spared (calls : Calls) (p q : Pager K I) : Prop where
  called : Called calls p q
  offered : ∃ news p', news.length = calls.release ∧ Grown news p p' ∧ p'.gate.release = p.gate.release
    ∧ Offered news p' q

section Spared

variable {calls : Calls} {p q r : Pager K I}

theorem Spared.ready (h : Spared calls p q) : q.Ready := by
  obtain ⟨_, _, -, -, -, hoffered⟩ := h.offered
  exact hoffered.ready

/-- Every page is as it was. -/
theorem Spared.kept (h : Spared calls p q) (ref : PageRef) (hp : (p.page? ref).isSome) :
    q.page? ref = p.page? ref := by
  obtain ⟨news, p', -, hgrown, -, hoffered⟩ := h.offered
  have hnew : ref ∉ news := fun hmem => by
    rw [hgrown.fresh ref hmem] at hp
    exact absurd hp (by simp)
  rw [hoffered.frame hnew, hgrown.frame ref hnew]

/-- If no release was refused, what was made is gone again, and there are the same pages as before. -/
theorem Spared.turnover (h : Spared calls p q) (hg : p.gate.release.Grants calls.release) :
    ∃ made, made.length = calls.release ∧ (p.gate.create.answers calls.create).count .granted = made.length
      ∧ Turnover made made p q ∧ ∀ ref, q.page? ref = p.page? ref := by
  obtain ⟨news, p', hlen, hgrown, hrelease, hoffered⟩ := h.offered
  have hpages : ∀ ref, q.page? ref = p.page? ref := fun ref => by
    by_cases hmem : ref ∈ news
    · rw [hoffered.gone (by rwa [hrelease, hlen]) hmem, hgrown.fresh ref hmem]
    · rw [hoffered.frame hmem, hgrown.frame ref hmem]
  -- names are given one after the other, so the last one tells how many pages were made
  have hcount : (p.gate.create.answers calls.create).count .granted = news.length := by
    have hnext : q.next.toNat = p'.next.toNat := hoffered.called.next
    have := h.called.next
    have := hgrown.next
    omega
  refine ⟨news, hlen, hcount, ⟨hgrown.fresh, hgrown.nodup, hgrown.nodup, fun _ => .inr, fun ref => ?_⟩, hpages⟩
  rw [hpages]
  by_cases hmem : ref ∈ news
  · simp only [hgrown.fresh ref hmem, hmem, Option.isSome_none, Bool.false_eq_true, not_true_eq_false, and_false]
  · simp only [hmem, or_false, not_false_eq_true, and_true]

theorem Spared.returned (h : Spared calls p q) (hg : p.gate.release.Grants calls.release) (ref : PageRef) :
    q.page? ref = p.page? ref := by
  obtain ⟨-, -, -, -, hpages⟩ := h.turnover hg
  exact hpages ref

theorem Still.grown {news : List PageRef} (h : p.Still q) (h' : Grown news q r) : Grown news p r where
  ready := h'.ready
  next := by rw [h'.next, h.next]
  nodup := h'.nodup
  fresh := h.page? ▸ h'.fresh
  live := h'.live
  frame := h.page? ▸ h'.frame

theorem Still.spared (h : p.Still q) (hp : p.Ready) (hcalled : Called calls p q) (hnone : calls.release = 0) :
    Spared calls p q :=
  ⟨hcalled, [], q, hnone.symm, h.grown (.refl (h.ready hp)), by rw [hcalled.gate, Gate.drop, hnone]; rfl,
    .nil (h.ready hp)⟩

theorem Read.spared {n : Nat} (h : Read n p q) (hp : p.Ready) : Spared ⟨n, 0, 0⟩ p q :=
  h.still.spared hp h.called rfl

theorem Barred.spared {n reason : Nat} (h : Barred n reason p q) (hp : p.Ready) : Spared ⟨n + 1, 0, 0⟩ p q :=
  h.still.spared hp h.called rfl

theorem Barred.refuses {n reason : Nat} (h : Barred n reason p q) :
    p.gate.Refuses ⟨n + 1, 0, 0⟩ (.io (.callRefused .resolve reason)) := .resolve h.bars

theorem Read.spares {n : Nat} (h : Read n p q) (h' : Spared calls q r) :
    Spared ⟨n + calls.resolve, calls.create, calls.release⟩ p r where
  called := by
    have := h.called.trans h'.called
    rwa [Nat.zero_add, Nat.zero_add] at this
  offered := by
    obtain ⟨news, p', hlen, hgrown, hrelease, hoffered⟩ := h'.offered
    exact ⟨news, p', hlen, h.still.grown hgrown, by rw [hrelease, h.gate], hoffered⟩

/-- New pages that are all offered for release again leave every other page alone. -/
theorem Grown.spared {k : Nat} {news : List PageRef} (h : Grown news p q) (hcalled : Called ⟨0, k, 0⟩ p q)
    (h' : Offered news q r) : Spared ⟨0, k, news.length⟩ p r where
  called := by
    have := hcalled.trans h'.called
    rwa [Nat.add_zero, Nat.zero_add] at this
  offered := ⟨news, q, rfl, h, by rw [hcalled.gate]; rfl, h'⟩

end Spared

/-- All pages are given up if the gate lets the call through, and the numbers start again. -/
theorem clear_runs {p : Pager K I} (h : p.Ready) (hg : p.gate.clear.next.1 = .granted) :
    ∃ q, Action.Runs Pager.clear p () q ∧ q.Ready ∧ q.gate = { p.gate with clear := p.gate.clear.next.2 }
      ∧ q.next = 0 ∧ ∀ r, q.page? r = none := by
  obtain ⟨store, hs⟩ := h.started
  let store' : Resident K I := { store with pages := ∅, next := 0 }
  have hclear : Action.Runs Resident.clear store () store' := (Resident.requireReady_runs hs.ready).bind rfl
  have hs' : Started
      { p with backing := .resident store', gate := { p.gate with clear := p.gate.clear.next.2 } } store' :=
    ⟨rfl, hs.ready⟩
  exact ⟨_, call_runs hs.backing (by exact hg) hclear, hs'.ready_of_empty fun r => rfl, rfl, rfl, fun r => rfl⟩

end Pager

/-! ## The service -/

namespace Pager

variable {K I : Type}

/-- The page that is handed out under a name: none under the names that are kept for other uses. -/
def shown? (pager : Pager K I) (ref : PageRef) : Option (Page K I) :=
  if ref.isDefined then pager.page? ref else none

theorem Ready.shown?_eq {pager : Pager K I} (h : pager.Ready) (hn : pager.next.toNat ≤ 2 ^ 64 - 2) :
    pager.shown? = pager.page? := by
  funext ref
  unfold shown?
  split
  · rfl
  · rename_i hd
    by_contra hne
    exact hd (h.isDefined hn ref (Option.isSome_iff_ne_none.mpr (Ne.symm hne)))

theorem Still.started {p q : Pager K I} (h : p.Still q) (hp : ∃ store, p.Started store) : ∃ store, q.Started store := by
  cases h with
  | @mk store counters schedule hb _ =>
    obtain ⟨store', hs⟩ := hp
    obtain rfl : store' = store := Backing.resident.inj (hs.backing.symm.trans hb)
    exact ⟨_, rfl, hs.ready⟩

variable [IndexKey K] [Codec I]

/-- Pages in memory are a service, which refuses only what the gate refuses. -/
def shownService (pager : Pager K I) (h : ∃ store, pager.Started store) : Service K I where
  view := pager.shown?
  Serves q := ∃ n, pager.Read n q
  Refuses e q := ∃ n reason, e = .io (.callRefused .resolve reason) ∧ pager.Barred n reason q
  limit := pager.pageCount + 2
  limit_le := by
    rintro q ⟨n, hq⟩
    obtain ⟨store, hs⟩ := hq.still.started h
    rw [← hq.still.pageCount, Pager.pageCount, Pager.walkLimit, hs.backing]
    dsimp only
    omega
  served := by
    rintro q ref page ⟨n, hq⟩ hpage
    obtain ⟨store, hs⟩ := hq.still.started h
    unfold shown? at hpage
    split at hpage
    · rename_i hd
      have hserved := hs.served hd (by rw [hq.still.page?]; exact hpage)
      revert hserved
      cases Pager.resolve ref q with
      | ok a r => exact fun hr => ⟨⟨n + 1, hq.trans hr.1⟩, hr.2⟩
      | error e r =>
        cases e with
        | failed e =>
          rintro ⟨reason, he, hbarred⟩
          exact ⟨n + 0, reason, he, hq.barred hbarred⟩
        | aborted => exact id
        | endless => exact id
    · exact absurd hpage (by simp)

/-- The same service where all pages are under names that may be used. -/
def service (pager : Pager K I) (h : pager.Ready) (hn : pager.next.toNat ≤ 2 ^ 64 - 2) : Service K I :=
  { pager.shownService h.started with
    view := pager.page?
    served := fun hq hpage => (pager.shownService h.started).served hq (by
      rw [← h.shown?_eq hn] at hpage
      exact hpage) }

/-- A page that was handed out is in memory, under a name that may be used. -/
theorem exact_shownService {pager : Pager K I} (h : ∃ store, pager.Started store) : (pager.shownService h).Exact := by
  rintro q ref page q' ⟨n, hq⟩ hrun
  obtain ⟨store, hs⟩ := hq.still.started h
  obtain ⟨_, p, hpass, hserve⟩ := hrun.of_bind
  have hb : p.backing = .resident store := by
    unfold Action.Runs at hpass
    rw [pass_eq] at hpass
    split at hpass
    · rw [← (EStateM.Result.ok.inj hpass).2]
      exact hs.backing
    · exact absurd hpass (by simp)
  obtain ⟨store', hresolve⟩ := of_serve_resident_runs hb hserve
  show (pager.shown? ref).isSome
  rw [shown?, ← hq.still.page?, Pager.page?, hs.backing]
  obtain ⟨hd, hget⟩ := Resident.of_resolve_runs hs.ready hresolve
  rw [if_pos hd]
  exact hget

end Pager

/-- Pages in memory turn no key away. -/
theorem Pager.reads_mightContain {K I : Type} [IndexKey K] [Codec I] {pager : Pager K I} {hp : pager.Ready}
    {hn : pager.next.toNat ≤ 2 ^ 64 - 2} (key : K) :
    (pager.service hp hn).Reads (Pager.mightContain key) (· = true) := by
  rintro q ⟨n, hq⟩
  obtain ⟨store, hs⟩ := (hq.still.ready hp).started
  have hrun : Pager.mightContain key q = .ok true { q with backing := .resident store } := by
    unfold Pager.mightContain Pager.serve
    rw [hs.backing]
    rfl
  rw [hrun, ← hs.backing]
  exact ⟨⟨n, hq⟩, rfl⟩

end PagedIndex
